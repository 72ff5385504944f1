import Mathlib.Algebra.BigOperators.Group.List.Basic
import Mathlib.Algebra.Ring.Int.Defs
import Mathlib.Data.Finset.Card
import Mathlib.Data.List.Induction
import ShardCounter.Cluster.Basic
import ShardCounter.Proofs.Replica.Minter
/-! The increments of a run and who knows of them, apart from how cells carry them. An increment is
told apart from all others by its node and by how many that node had made before it. -/
namespace ShardCounter

structure Contribution (size : Nat) where
  node : Fin size
  /-- How many increments the node had made before this one. -/
  serial : Nat
  delta : Int64
deriving DecidableEq

/-- The steps of a run in which nothing comes from outside. -/
inductive Act (size : Nat) where
  | increment (node : Fin size) (delta writtenAt : Int64)
  | sync (source target : Fin size)

structure Ledger (size : Nat) where
  made : List (Contribution size)
  known : Fin size → Finset (Contribution size)

variable {size : Nat}

namespace Act

def step (name : CellName) : Act size → Step
  | increment node delta writtenAt => .increment node name delta writtenAt
  | sync source target => .sync source target

def isIncrement : Act size → Bool
  | increment .. => true
  | sync .. => false

def gain : Act size → Int
  | increment _ delta _ => delta.toInt
  | sync .. => 0

def isIncrementAt (i : Fin size) : Act size → Bool
  | increment node .. => node = i
  | sync .. => false

end Act

namespace Ledger

def empty : Ledger size := ⟨[], fun _ => ∅⟩

def madeBy (l : Ledger size) (i : Fin size) : Nat := l.made.countP (·.node = i)

def next (l : Ledger size) (i : Fin size) (delta : Int64) : Contribution size :=
  ⟨i, l.madeBy i, delta⟩

/-- A node knows of its own increments, and learns all that is known to a node it hears from. -/
def step (l : Ledger size) : Act size → Ledger size
  | .increment i delta _ =>
    { made := l.next i delta :: l.made
      known := Function.update l.known i (insert (l.next i delta) (l.known i)) }
  | .sync source target =>
    { l with known := Function.update l.known target (l.known target ∪ l.known source) }

def after (acts : List (Act size)) : Ledger size := acts.foldl step empty

structure WellFormed (l : Ledger size) : Prop where
  made_of_known : ∀ i, ∀ e ∈ l.known i, e ∈ l.made
  serial_lt : ∀ e ∈ l.made, e.serial < l.madeBy e.node
  eq_of_serial_eq : ∀ e ∈ l.made, ∀ f ∈ l.made, e.node = f.node → e.serial = f.serial → e = f

variable {l : Ledger size} {acts : List (Act size)}

theorem after_concat (acts : List (Act size)) (a : Act size) :
    after (acts ++ [a]) = (after acts).step a := by
  rw [after, List.foldl_append]
  rfl

section step

variable (l : Ledger size) {i j source target : Fin size} {delta writtenAt : Int64}

@[simp] theorem known_increment_self : (l.step (.increment i delta writtenAt)).known i =
    insert (l.next i delta) (l.known i) :=
  Function.update_self ..

theorem known_increment_of_ne (h : j ≠ i) :
    (l.step (.increment i delta writtenAt)).known j = l.known j :=
  Function.update_of_ne h ..

@[simp] theorem known_sync_self :
    (l.step (.sync source target)).known target = l.known target ∪ l.known source :=
  Function.update_self ..

theorem known_sync_of_ne (h : j ≠ target) : (l.step (.sync source target)).known j = l.known j :=
  Function.update_of_ne h ..

end step

theorem made_sublist_step (l : Ledger size) (a : Act size) : l.made.Sublist (l.step a).made := by
  cases a with
  | increment i delta writtenAt => exact List.sublist_cons_self _ _
  | sync source target => exact List.Sublist.refl _

theorem madeBy_increment (l : Ledger size) (i j : Fin size) (delta writtenAt : Int64) :
    (l.step (.increment i delta writtenAt)).madeBy j = l.madeBy j + if i = j then 1 else 0 := by
  simp [step, madeBy, next, List.countP_cons]

theorem madeBy_after (acts : List (Act size)) (i : Fin size) :
    (after acts).madeBy i = acts.countP (Act.isIncrementAt i) := by
  induction acts using List.reverseRecOn with
  | nil => rfl
  | append_singleton acts a ih =>
    rw [after_concat, List.countP_append, ← ih]
    cases a with
    | increment j delta writtenAt =>
      rw [madeBy_increment]
      simp [Act.isIncrementAt]
    | sync source target => rfl

theorem length_made_after (acts : List (Act size)) :
    (after acts).made.length = acts.countP Act.isIncrement := by
  induction acts using List.reverseRecOn with
  | nil => rfl
  | append_singleton acts a ih =>
    rw [after_concat, List.countP_append, ← ih]
    cases a with
    | increment j delta writtenAt => rfl
    | sync source target => rfl

theorem WellFormed.empty : (empty : Ledger size).WellFormed where
  made_of_known _ _ h := nomatch h
  serial_lt _ h := nomatch h
  eq_of_serial_eq _ h := nomatch h

theorem WellFormed.increment (h : l.WellFormed) (i : Fin size) (delta writtenAt : Int64) :
    (l.step (.increment i delta writtenAt)).WellFormed where
  made_of_known j e he := by
    rcases eq_or_ne j i with rfl | hne
    · rw [known_increment_self, Finset.mem_insert] at he
      rcases he with rfl | he
      · exact List.mem_cons_self
      · exact List.mem_cons_of_mem _ (h.made_of_known j e he)
    · rw [known_increment_of_ne l hne] at he
      exact List.mem_cons_of_mem _ (h.made_of_known j e he)
  serial_lt e he := by
    rw [madeBy_increment]
    rcases List.mem_cons.mp he with rfl | he
    · simp [next]
    · exact Nat.lt_add_right _ (h.serial_lt e he)
  eq_of_serial_eq e he f hf hnode hserial := by
    -- An older increment of the same node has a lower number.
    have hnew : ∀ g ∈ l.made, g.node = i → g.serial ≠ l.madeBy i := by
      rintro g hg rfl
      exact (h.serial_lt g hg).ne
    rcases List.mem_cons.mp he with rfl | he
    · rcases List.mem_cons.mp hf with rfl | hf
      · rfl
      · exact absurd hserial.symm (hnew f hf hnode.symm)
    · rcases List.mem_cons.mp hf with rfl | hf
      · exact absurd hserial (hnew e he hnode)
      · exact h.eq_of_serial_eq e he f hf hnode hserial

theorem WellFormed.sync (h : l.WellFormed) (source target : Fin size) :
    (l.step (.sync source target)).WellFormed where
  made_of_known j e he := by
    rcases eq_or_ne j target with rfl | hne
    · rw [known_sync_self, Finset.mem_union] at he
      exact he.elim (h.made_of_known j e) (h.made_of_known source e)
    · rw [known_sync_of_ne l hne] at he
      exact h.made_of_known j e he
  serial_lt := h.serial_lt
  eq_of_serial_eq := h.eq_of_serial_eq

theorem wellFormed_after (acts : List (Act size)) : (after acts).WellFormed := by
  induction acts using List.reverseRecOn with
  | nil => exact .empty
  | append_singleton acts a ih =>
    rw [after_concat]
    cases a with
    | increment i delta writtenAt => exact ih.increment i delta writtenAt
    | sync source target => exact ih.sync source target

theorem nodup_made_after (acts : List (Act size)) : (after acts).made.Nodup := by
  induction acts using List.reverseRecOn with
  | nil => exact List.nodup_nil
  | append_singleton acts a ih =>
    rw [after_concat]
    cases a with
    | increment i delta writtenAt =>
      refine List.nodup_cons.mpr ⟨fun hmem => ?_, ih⟩
      exact absurd rfl ((wellFormed_after acts).serial_lt _ hmem).ne
    | sync source target => exact ih

theorem mem_known_step {l : Ledger size} {i : Fin size} {e : Contribution size} (a : Act size)
    (h : e ∈ l.known i) : e ∈ (l.step a).known i := by
  cases a with
  | increment j delta writtenAt =>
    rcases eq_or_ne i j with rfl | hne
    · rw [known_increment_self]
      exact Finset.mem_insert_of_mem h
    · rwa [known_increment_of_ne l hne]
  | sync source target =>
    rcases eq_or_ne i target with rfl | hne
    · rw [known_sync_self]
      exact Finset.mem_union_left _ h
    · rwa [known_sync_of_ne l hne]

theorem mem_known_of_mem_made (acts : List (Act size)) :
    ∀ e ∈ (after acts).made, e ∈ (after acts).known e.node := by
  induction acts using List.reverseRecOn with
  | nil => exact fun _ h => nomatch h
  | append_singleton acts a ih =>
    rw [after_concat]
    intro e he
    cases a with
    | increment i delta writtenAt =>
      rcases List.mem_cons.mp he with rfl | he
      · exact known_increment_self (after acts) ▸ Finset.mem_insert_self _ _
      · exact mem_known_step _ (ih e he)
    | sync source target => exact mem_known_step _ (ih e he)

theorem sum_delta_after (acts : List (Act size)) :
    ((after acts).made.map (·.delta.toInt)).sum = (acts.map Act.gain).sum := by
  induction acts using List.reverseRecOn with
  | nil => rfl
  | append_singleton acts a ih =>
    rw [after_concat, List.map_append, List.sum_append, ← ih]
    cases a with
    | increment i delta writtenAt => simp [step, next, Act.gain, Int.add_comm]
    | sync source target => simp [step, Act.gain]

end Ledger
end ShardCounter
