import ShardCounter.Proofs.Cell.Alike
import ShardCounter.Proofs.Cluster.Exchange
/-! Skipping a transfer that is not needed changes nothing that can be told from outside. A run that
skips and a run that never does stay alike: step by step, they differ in pending marks alone. -/
namespace ShardCounter

abbrev Slot.Alike : Slot → Slot → Prop := Option.Rel Cell.Alike

namespace Slot.Alike

variable {slot slot' : Slot} {a a' c c' : Cell}

theorem refl (h : ∀ c, slot = some (.counter c) → c.context.Canonical) : Slot.Alike slot slot := by
  cases slot with
  | none => exact .none
  | some cell => exact .some (.refl fun c hc => h c (congrArg some hc))

theorem clearPending_eq (h : Slot.Alike slot slot') : slot.clearPending = slot'.clearPending := by
  cases h with
  | none => rfl
  | some h => exact congrArg some h.clearPending_eq

theorem digest_eq (h : Slot.Alike slot slot') : slot.map Cell.digest = slot'.map Cell.digest := by
  cases h with
  | none => rfl
  | some h => exact congrArg some h.digest_eq

theorem absorb (hslot : Slot.Alike slot slot') (ha : a.Alike a') (h : slot.absorb a = .ok c)
    (h' : slot'.absorb a' = .ok c') : c.Alike c' := by
  cases hslot with
  | none =>
    cases h
    cases h'
    exact ha
  | some hcurrent => exact hcurrent.reconcile ha h h'

end Slot.Alike

namespace Exchange

variable {sender sender' receiver receiver' : Slot}

theorem alike_transfer {outgoing outgoing' c c' : Cell}
    (hreceiver : Slot.Alike receiver receiver') (hout : outgoing.Alike outgoing')
    (h : transfer .remote outgoing receiver = .ok c)
    (h' : transfer .remote outgoing' receiver' = .ok c') : c.Alike c' := by
  have hclear : outgoing.clearPending.Alike outgoing'.clearPending :=
    hout.clearPending.symm.clearPending.symm
  exact hreceiver.absorb hclear (absorb_of_transfer hout.canonical h)
    (absorb_of_transfer hout.symm.canonical h')

theorem alike_leaves {skipping forced : Exchange} (hsender : Slot.Alike sender sender')
    (hreceiver : Slot.Alike receiver receiver')
    (h : run .remote false sender receiver = .ok skipping)
    (h' : run .remote true sender' receiver' = .ok forced) :
    Slot.Alike (skipping.leaves receiver) (forced.leaves receiver') := by
  cases hsender with
  | none =>
    cases h
    cases h'
    exact hreceiver
  | some hout =>
    obtain ⟨c', hc', rfl⟩ := (run_some_cases h').resolve_right fun hskip => nomatch hskip.1
    rcases run_some_cases h with ⟨c, hc, rfl⟩ | ⟨-, rfl, current, rfl, hdiff⟩
    · exact .some (alike_transfer hreceiver hout hc hc')
    · cases hreceiver with
      | some hcurrent =>
        have habsorb := absorb_of_transfer hout.symm.canonical hc'
        exact .some (hcurrent.reconcile_of_diff? hout.clearPending hdiff habsorb)

end Exchange

theorem Counter.canonical_increment (m : Minter) (name : CellName)
    (delta writtenAt lastDelete : Int64) (c : Counter)
    (hc : Cell.counter (increment m name delta writtenAt lastDelete).1 = .counter c) :
    c.context.Canonical := by
  cases hc
  exact Context.canonical_ofSorted_singleton _

structure Node.Alike (a b : Node) : Prop where
  minter_eq : a.minter = b.minter
  slot : Slot.Alike a.slot b.slot

namespace Cluster

def Alike (left right : Cluster) : Prop := ∀ i : Nat, Option.Rel Node.Alike left[i]? right[i]?

namespace Alike

variable {left right left' right' : Cluster}

theorem refl (h : ∀ i k, slot left i = some (.counter k) → k.context.Canonical) :
    Alike left left := by
  intro i
  have hi := h i
  unfold Cluster.slot at hi
  cases hnode : left[i]? with
  | none => exact .none
  | some node =>
    rw [hnode] at hi
    exact .some ⟨rfl, .refl hi⟩

theorem cases (h : Alike left right) (i : Nat) :
    (left[i]? = none ∧ right[i]? = none) ∨
      ∃ a b, left[i]? = some a ∧ right[i]? = some b ∧ a.Alike b := by
  have hi := h i
  generalize left[i]? = x at hi ⊢
  generalize right[i]? = y at hi ⊢
  cases hi with
  | none => exact .inl ⟨rfl, rfl⟩
  | some hab => exact .inr ⟨_, _, rfl, rfl, hab⟩

theorem slot (h : Alike left right) (i : Nat) : Slot.Alike (slot left i) (slot right i) := by
  unfold Cluster.slot
  rcases h.cases i with ⟨hl, hr⟩ | ⟨a, b, hl, hr, hab⟩
  · rw [hl, hr]
    exact .none
  · rw [hl, hr]
    exact hab.slot

theorem modify (h : Alike left right) (i : Nat) {f g : Node → Node}
    (hfg : ∀ a b, a.Alike b → (f a).Alike (g b)) : Alike (left.modify i f) (right.modify i g) := by
  intro j
  rw [Array.getElem?_modify, Array.getElem?_modify]
  split
  · rcases h.cases j with ⟨hl, hr⟩ | ⟨a, b, hl, hr, hab⟩
    · rw [hl, hr]
      exact .none
    · rw [hl, hr]
      exact .some (hfg a b hab)
  · exact h j

theorem increment (h : Alike left right) (i : Nat) (name : CellName) (delta writtenAt : Int64)
    (hleft : Cluster.increment left i name delta writtenAt = .ok left')
    (hright : Cluster.increment right i name delta writtenAt = .ok right') : Alike left' right' := by
  rcases h.cases i with ⟨hl, hr⟩ | ⟨⟨minter, slot⟩, ⟨minter', slot'⟩, hl, hr, hnode⟩
  · simp only [Cluster.increment, hl] at hleft
    simp only [Cluster.increment, hr] at hright
    cases hleft
    cases hright
    exact h
  · obtain ⟨rfl, hslot⟩ := hnode
    rw [increment_of_node hl] at hleft
    rw [increment_of_node hr] at hright
    obtain ⟨cell, hcell, rfl⟩ := Except.map_eq_ok_iff.mp hleft
    obtain ⟨cell', hcell', rfl⟩ := Except.map_eq_ok_iff.mp hright
    have hminted := Counter.canonical_increment minter name delta writtenAt Counter.neverDeleted
    have hcells : cell.Alike cell' := hslot.absorb (.refl hminted) hcell hcell'
    exact h.modify i fun _ _ _ => ⟨rfl, .some hcells⟩

theorem put (h : Alike left right) (i : Nat) {cell : Cell}
    (hcell : ∀ k, cell = .counter k → k.context.Canonical)
    (hleft : Cluster.put left i cell = .ok left')
    (hright : Cluster.put right i cell = .ok right') : Alike left' right' := by
  obtain ⟨a, ha, hleft⟩ := Except.bind_eq_ok_iff.mp hleft
  obtain ⟨b, hb, hright⟩ := Except.bind_eq_ok_iff.mp hright
  cases hleft
  cases hright
  have hab : a.Alike b := (h.slot i).absorb (.refl hcell) ha hb
  exact h.modify i fun _ _ hnode => ⟨hnode.minter_eq, .some hab⟩

theorem sync (h : Alike left right) {source target : Nat} {r r' : Bool × Cluster}
    (hleft : Cluster.sync left source target false = .ok r)
    (hright : Cluster.sync right source target true = .ok r') : Alike r.2 r'.2 := by
  rcases eq_or_ne source target with rfl | hne
  · rw [sync_self] at hleft hright
    cases hleft
    cases hright
    exact h
  · obtain ⟨skipping, hskip, hr⟩ := sync_eq_ok hne hleft
    obtain ⟨forced, hforce, hr'⟩ := sync_eq_ok hne hright
    have hleaves := Exchange.alike_leaves (h.slot source) (h.slot target) hskip hforce
    rw [hr, hr']
    exact h.modify target fun _ _ hnode => ⟨hnode.minter_eq, hleaves⟩

theorem step (h : Alike left right) {step : Step}
    (hput : ∀ i k, step = .put i (.counter k) → k.context.Canonical)
    (hleft : Cluster.step false left step = .ok left')
    (hright : Cluster.step true right step = .ok right') : Alike left' right' := by
  cases step with
  | increment i name delta writtenAt => exact h.increment i name delta writtenAt hleft hright
  | put i cell => exact h.put i (fun k hk => hput i k (congrArg (Step.put i) hk)) hleft hright
  | sync source target =>
    obtain ⟨r, hr, rfl⟩ := Except.map_eq_ok_iff.mp hleft
    obtain ⟨r', hr', rfl⟩ := Except.map_eq_ok_iff.mp hright
    exact h.sync hr hr'

theorem run (h : Alike left right) {steps : List Step}
    (hputs : ∀ i k, .put i (.counter k) ∈ steps → k.context.Canonical)
    (hleft : Cluster.run false left steps = .ok left')
    (hright : Cluster.run true right steps = .ok right') : Alike left' right' := by
  induction steps generalizing left right with
  | nil =>
    cases hleft
    cases hright
    exact h
  | cons step steps ih =>
    rw [Cluster.run, List.foldlM_cons] at hleft hright
    obtain ⟨next, hnext, hleft⟩ := Except.bind_eq_ok_iff.mp hleft
    obtain ⟨next', hnext', hright⟩ := Except.bind_eq_ok_iff.mp hright
    have hstep := h.step (fun i k hk => hputs i k (hk ▸ List.mem_cons_self)) hnext hnext'
    exact ih hstep (fun i k hk => hputs i k (List.mem_cons_of_mem _ hk)) hleft hright

end Alike

theorem run_prefix {force : Bool} {cluster reached : Cluster} {steps done : List Step}
    (hdone : done <+: steps) (h : run force cluster steps = .ok reached) :
    ∃ c, run force cluster done = .ok c := by
  obtain ⟨rest, rfl⟩ := hdone
  rw [run, List.foldlM_append] at h
  obtain ⟨c, hc, -⟩ := Except.bind_eq_ok_iff.mp h
  exact ⟨c, hc⟩

/-- Whatever the slots hold at first and whatever is put in, incremented and synced, of cells as this
library makes them: as long as no step fails, with and without skipping, every node holds after every
step the same but for pending marks, and so has the same digest. -/
theorem skipping_unobservable {cluster skipped forced : Cluster} {steps : List Step}
    (hslots : ∀ i k, slot cluster i = some (.counter k) → k.context.Canonical)
    (hputs : ∀ i k, .put i (.counter k) ∈ steps → k.context.Canonical)
    (hskipped : run false cluster steps = .ok skipped)
    (hforced : run true cluster steps = .ok forced) :
    ∀ done, done <+: steps → ∃ c d, run false cluster done = .ok c ∧ run true cluster done = .ok d ∧
      ∀ i, (slot c i).clearPending = (slot d i).clearPending ∧
        (slot c i).map Cell.digest = (slot d i).map Cell.digest := by
  intro done hdone
  obtain ⟨c, hc⟩ := run_prefix hdone hskipped
  obtain ⟨d, hd⟩ := run_prefix hdone hforced
  have hputs' : ∀ i k, .put i (.counter k) ∈ done → k.context.Canonical := fun i k hk =>
    hputs i k (hdone.subset hk)
  have halike := (Alike.refl hslots).run hputs' hc hd
  exact ⟨c, d, hc, hd, fun i => ⟨(halike.slot i).clearPending_eq, (halike.slot i).digest_eq⟩⟩

namespace Skipping

def key : CellName := ⟨[120]⟩

def imported : Shard := ⟨.ofNat 9, 3, 4⟩

def minted (isPending : Bool) : Shard := ⟨⟨Minter.mintedBytes ⟨1, 7⟩ 0, isPending⟩, 1, 5⟩

def counter (shards : Array Shard) (writtenAt : Int64) : Cell :=
  .counter ⟨key, .ofSorted shards, writtenAt, 20⟩

def before : Cluster :=
  #[⟨⟨1, 7⟩, some (counter #[imported] 25)⟩, ⟨⟨2, 7⟩, some (.tombstone ⟨key, 4, 20⟩)⟩]

def steps : List Step :=
  [.increment 0 key 5 30, .put 1 (counter #[imported] 25), .sync 0 1, .sync 1 0]

def after (isPending : Bool) : Cluster :=
  #[⟨⟨1, 8⟩, some (counter #[imported, minted isPending] 30)⟩,
    ⟨⟨2, 7⟩, some (counter #[imported, minted false] 30)⟩]

end Skipping

open Skipping in
theorem skipping_unobservable_of_return :
    run false before steps = .ok (after true) ∧ run true before steps = .ok (after false) ∧
      slot (after true) 0 ≠ slot (after false) 0 ∧
      (slot (after true) 0).map Cell.digest = (slot (after false) 0).map Cell.digest := by
  have hskipped : run false before steps = .ok (after true) := by decide +kernel
  have hforced : run true before steps = .ok (after false) := by decide +kernel
  have hcanonical (writtenAt : Int64) (k : Counter)
      (hk : counter #[imported] writtenAt = .counter k) : k.context.Canonical := by
    cases hk
    exact Context.canonical_ofSorted_singleton _
  have hslots : ∀ i k, slot before i = some (.counter k) → k.context.Canonical := by
    intro i k hk
    match i with
    | 0 => exact hcanonical 25 k (Option.some.inj hk)
    | 1 => nomatch hk
    | i + 2 => nomatch hk
  have hputs : ∀ i k, .put i (.counter k) ∈ steps → k.context.Canonical := by
    intro i k hk
    simp only [steps, List.mem_cons, reduceCtorEq, Step.put.injEq, List.not_mem_nil, false_or,
      or_false] at hk
    exact hcanonical 25 k hk.2.symm
  obtain ⟨c, d, hc, hd, halike⟩ :=
    skipping_unobservable hslots hputs hskipped hforced steps List.prefix_rfl
  rw [hskipped] at hc
  rw [hforced] at hd
  cases hc
  cases hd
  exact ⟨hskipped, hforced, by decide +kernel, (halike 0).2⟩

end Cluster
end ShardCounter
