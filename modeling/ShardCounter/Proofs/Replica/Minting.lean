import ShardCounter.Proofs.Context.Bulk
import ShardCounter.Proofs.Context.Conservation
import ShardCounter.Proofs.Replica.Minter
import ShardCounter.Proofs.Replica.Order
/-! Several minters called in turn, in any order. Ids of different nodes never meet, and those of one
node ascend just as long as its sequence does not go round. What is made with them can always be merged
and adds up. -/
namespace ShardCounter

namespace Bytes

theorem value_append (left right : Bytes) :
    value (left ++ right) = value left * 256 ^ right.length + value right := by
  induction left with
  | nil => simp [value]
  | cons b left ih =>
    rw [List.cons_append, value_cons, value_cons, ih, List.length_append, Nat.pow_add, Nat.add_mul,
      Nat.mul_assoc, Nat.add_assoc]

theorem value_ofUInt64 (word : UInt64) : value (ofUInt64 word) = word.toNat :=
  value_bigEndian_of_lt word.toNat_lt

end Bytes

theorem ReplicaId.compare_pending_eq_lt_iff (a b : Vector UInt8 16) :
    compare (ReplicaId.pending a) (.pending b) = .lt ↔
      (ReplicaId.pending a).toNat < (ReplicaId.pending b).toNat := by
  rw [← order_eq_lt_iff]
  show ((ReplicaId.pending a).order (.pending b)).then .eq = .lt ↔ _
  rw [Ordering.then_eq]

namespace Minter

theorem toList_mintedBytes (m : Minter) (mints : Nat) : (m.mintedBytes mints).toList =
    Bytes.ofUInt64 m.nodeId ++ Bytes.ofUInt64 (m.sequenceAfter mints) :=
  Bytes.toList_toVector (length_idBytes _ _)

theorem toNat_mintedBytes (m : Minter) (mints : Nat) :
    (ReplicaId.pending (m.mintedBytes mints)).toNat =
      m.nodeId.toNat * 2 ^ 64 + (m.sequence.toNat + mints) % 2 ^ 64 := by
  have hword : 256 ^ 8 = 2 ^ 64 := rfl
  rw [ReplicaId.toNat, ReplicaId.pending, toList_mintedBytes, Bytes.value_append,
    Bytes.value_ofUInt64, Bytes.value_ofUInt64, Bytes.length_ofUInt64, hword, sequenceAfter,
    UInt64.toNat_add, UInt64.toNat_ofNat', Nat.add_mod_mod]

theorem mintMany_eq (m : Minter) (count : Nat) : m.mintMany count =
    ((List.range count).map fun mints => .pending (m.mintedBytes mints), m.after count) := by
  induction count with
  | zero =>
    rw [after_zero]
    rfl
  | succ count ih =>
    rw [mintMany_succ, ih, mint_after, List.range_succ, List.map_append]
    rfl

/-- The last id before the sequence goes round is the greatest, and the next one the least. -/
theorem ascending_mintMany_iff (m : Minter) (count : Nat) :
    ((m.mintMany count).1.Pairwise fun a b => compare a b = .lt) ↔
      m.sequence.toNat + count ≤ 2 ^ 64 := by
  have hsequence := m.sequence.toNat_lt
  have hlt (i j : Nat) :
      compare (ReplicaId.pending (m.mintedBytes i)) (.pending (m.mintedBytes j)) = .lt ↔
        (m.sequence.toNat + i) % 2 ^ 64 < (m.sequence.toNat + j) % 2 ^ 64 := by
    rw [ReplicaId.compare_pending_eq_lt_iff, toNat_mintedBytes, toNat_mintedBytes,
      Nat.add_lt_add_iff_left]
  rw [mintMany_eq, List.pairwise_map]
  simp only [hlt]
  constructor
  · intro h
    by_contra hpast
    have hlast := List.pairwise_iff_getElem.mp h (2 ^ 64 - 1 - m.sequence.toNat)
      (2 ^ 64 - m.sequence.toNat) (by simp; omega) (by simp; omega) (by omega)
    simp only [List.getElem_range] at hlast
    omega
  · intro hfit
    refine List.pairwise_lt_range.imp_of_mem fun {i j} hi hj hij => ?_
    have hj := List.mem_range.mp hj
    rw [Nat.mod_eq_of_lt (by omega), Nat.mod_eq_of_lt (by omega)]
    omega

theorem mem_mintMany {m : Minter} {count : Nat} {id : ReplicaId} (h : id ∈ (m.mintMany count).1) :
    ∃ mints < count, id = .pending (m.mintedBytes mints) := by
  rw [mintMany_eq] at h
  obtain ⟨mints, hmints, rfl⟩ := List.mem_map.mp h
  exact ⟨mints, List.mem_range.mp hmints, rfl⟩

end Minter

namespace Context

theorem merge_of_disjoint {a b : Context} (ha : a.Canonical) (hb : b.Canonical)
    (hdisjoint : Disjoint a.replicas b.replicas)
    (hcard : (a.replicas ∪ b.replicas).card ≤ maxPendingIndex) :
    ∃ m, a.merge b = .ok m ∧ m.total = a.total + b.total := by
  have hcompat : a.Compatible b := fun s hs t ht hconflict =>
    Finset.disjoint_left.mp hdisjoint (mem_replicas.mpr ⟨s, hs, rfl⟩)
      (mem_replicas.mpr ⟨t, ht, hconflict.1.symm⟩)
  obtain ⟨m, hm⟩ := merge_ok_of_card_le ha hb hcompat hcard
  obtain ⟨htotal, -⟩ := add_dropped_merge ha hb hm Shard.isOlder_older
  rw [dropped_of_disjoint Shard.older hdisjoint] at htotal
  exact ⟨m, hm, (Int64.add_zero m.total).symm.trans htotal⟩

theorem replicas_alone (s : Shard) : (alone s).replicas = {s.id.bytes} := rfl

theorem total_alone (s : Shard) : (alone s).total = s.count := by
  simp [alone, ofSorted, total]

/-- The two share no replica, and come to the sum of both, whichever is merged into the other. -/
structure AddUp (c d : Context) : Prop where
  disjoint : Disjoint c.replicas d.replicas
  forward : ∃ m, c.merge d = .ok m ∧ m.total = c.total + d.total
  backward : ∃ m, d.merge c = .ok m ∧ m.total = d.total + c.total

theorem addUp_alone {s t : Shard} (h : s.id.bytes ≠ t.id.bytes) : AddUp (alone s) (alone t) := by
  have hs := (gathers_alone s).canonical
  have ht := (gathers_alone t).canonical
  have hdisjoint : Disjoint (alone s).replicas (alone t).replicas := by
    rw [replicas_alone, replicas_alone]
    exact Finset.disjoint_singleton.mpr h
  have hcard : ((alone s).replicas ∪ (alone t).replicas).card ≤ maxPendingIndex := by
    refine (Finset.card_union_le _ _).trans ?_
    rw [replicas_alone, replicas_alone, Finset.card_singleton, Finset.card_singleton]
    decide
  refine ⟨hdisjoint, merge_of_disjoint hs ht hdisjoint hcard, ?_⟩
  rw [Finset.union_comm] at hcard
  exact merge_of_disjoint ht hs hdisjoint.symm hcard

end Context

/-- A call to one of several minters, for an id alone or for a context with an increment. -/
structure Call (ι : Type) where
  minter : ι
  delta? : Option Int64

structure Minted (ι : Type) where
  minter : ι
  id : ReplicaId
  context? : Option Context

section calls

variable {ι : Type}

def Call.serve (call : Call ι) (m : Minter) : Minted ι × Minter :=
  match call.delta? with
  | none =>
    let (id, next) := m.mint
    (⟨call.minter, id, none⟩, next)
  | some delta =>
    let (context, next) := Context.increment m delta
    (⟨call.minter, m.mint.1, some context⟩, next)

theorem serve_eq (call : Call ι) (m : Minter) : call.serve m =
    (⟨call.minter, m.mint.1, call.delta?.map fun delta => .alone ⟨m.mint.1, 1, delta⟩⟩,
      m.mint.2) := by
  rcases call with ⟨i, _ | delta⟩ <;> rfl

def Minted.call (x : Minted ι) : Call ι := ⟨x.minter, x.context?.map Context.total⟩

def AscendingByMinter (minted : List (Minted ι)) : Prop :=
  minted.Pairwise fun x y => x.minter = y.minter → compare x.id y.id = .lt

variable [DecidableEq ι]

/-- Serves the calls in the order in which they reach their minters. -/
def serveAll (minters : ι → Minter) : List (Call ι) → List (Minted ι)
  | [] => []
  | call :: calls =>
    let (minted, next) := call.serve (minters call.minter)
    minted :: serveAll (Function.update minters call.minter next) calls

/-- No minter hands out an id after its sequence has come to its end. -/
def Fits (minters : ι → Minter) (calls : List (Call ι)) : Prop :=
  ∀ i, (minters i).sequence.toNat + calls.countP (·.minter = i) ≤ 2 ^ 64

theorem serveAll_cons (minters : ι → Minter) (call : Call ι) (calls : List (Call ι)) :
    serveAll minters (call :: calls) =
      (call.serve (minters call.minter)).1 ::
        serveAll (Function.update minters call.minter (minters call.minter).mint.2) calls := by
  rw [serveAll, serve_eq]

variable {minters : ι → Minter} {calls : List (Call ι)} {x y : Minted ι}

/-- Whatever comes between its calls, a minter serves them as if there were no others. -/
theorem map_filter_serveAll (minters : ι → Minter) (calls : List (Call ι)) (i : ι) :
    ((serveAll minters calls).filter (·.minter = i)).map Minted.id =
      ((minters i).mintMany (calls.countP (·.minter = i))).1 := by
  induction calls generalizing minters with
  | nil => rfl
  | cons call calls ih =>
    rw [serveAll_cons, serve_eq]
    by_cases h : call.minter = i
    · subst h
      rw [List.filter_cons_of_pos (by simp), List.countP_cons_of_pos (by simp), List.map_cons, ih,
        Function.update_self]
      rfl
    · rw [List.filter_cons_of_neg (by simpa using h), List.countP_cons_of_neg (by simpa using h),
        ih, Function.update_of_ne (Ne.symm h)]

theorem map_call_serveAll (minters : ι → Minter) (calls : List (Call ι)) :
    (serveAll minters calls).map Minted.call = calls := by
  induction calls generalizing minters with
  | nil => rfl
  | cons call calls ih =>
    rw [serveAll_cons, serve_eq, List.map_cons, ih]
    rcases call with ⟨i, _ | delta⟩
    · rfl
    · simp [Minted.call, Context.total_alone]

theorem pairwise_iff_filter {α : Type} (f : α → ι) (R : α → α → Prop) (xs : List α) :
    (xs.Pairwise fun x y => f x = f y → R x y) ↔ ∀ i, (xs.filter (f · = i)).Pairwise R := by
  constructor
  · intro h i
    refine (h.filter _).imp_of_mem fun {x y} hx hy hR => hR ?_
    have hx : f x = i := by simpa using (List.mem_filter.mp hx).2
    have hy : f y = i := by simpa using (List.mem_filter.mp hy).2
    exact hx.trans hy.symm
  · intro h
    induction xs with
    | nil => exact .nil
    | cons x xs ih =>
      have htail : ∀ i, (xs.filter (f · = i)).Pairwise R := fun i =>
        (h i).sublist ((List.sublist_cons_self x xs).filter _)
      refine List.pairwise_cons.mpr ⟨fun y hy hxy => ?_, ih htail⟩
      have hhead := h (f x)
      rw [List.filter_cons_of_pos (by simp)] at hhead
      exact List.rel_of_pairwise_cons hhead (List.mem_filter.mpr ⟨hy, by simpa using hxy.symm⟩)

theorem ascendingByMinter_serveAll_iff : AscendingByMinter (serveAll minters calls) ↔
    Fits minters calls := by
  unfold AscendingByMinter Fits
  rw [pairwise_iff_filter Minted.minter]
  refine forall_congr' fun i => ?_
  rw [← Minter.ascending_mintMany_iff, ← map_filter_serveAll, List.pairwise_map]

theorem exists_mintedBytes_of_mem (hx : x ∈ serveAll minters calls) :
    ∃ mints, x.id = .pending ((minters x.minter).mintedBytes mints) := by
  have hid : x.id ∈ ((serveAll minters calls).filter (·.minter = x.minter)).map Minted.id :=
    List.mem_map_of_mem (List.mem_filter.mpr ⟨hx, by simp⟩)
  rw [map_filter_serveAll] at hid
  obtain ⟨mints, -, hid⟩ := Minter.mem_mintMany hid
  exact ⟨mints, hid⟩

theorem take_bytes_of_mem (hx : x ∈ serveAll minters calls) :
    x.id.bytes.toList.take 8 = Bytes.ofUInt64 (minters x.minter).nodeId := by
  obtain ⟨mints, hid⟩ := exists_mintedBytes_of_mem hx
  rw [hid, ReplicaId.pending, Minter.toList_mintedBytes]
  exact List.take_left' (Bytes.length_ofUInt64 _)

theorem bytes_ne_of_minter_ne (hnodes : Function.Injective fun i => (minters i).nodeId)
    (hx : x ∈ serveAll minters calls) (hy : y ∈ serveAll minters calls) (h : x.minter ≠ y.minter) :
    x.id.bytes ≠ y.id.bytes := by
  intro hbytes
  have hnode := (take_bytes_of_mem hx).symm.trans (hbytes ▸ take_bytes_of_mem hy)
  exact h (hnodes (Minter.ofUInt64_injective hnode))

theorem bytes_ne_of_compare (hx : x ∈ serveAll minters calls) (hy : y ∈ serveAll minters calls)
    (hlt : compare x.id y.id = .lt) : x.id.bytes ≠ y.id.bytes := by
  obtain ⟨i, hi⟩ := exists_mintedBytes_of_mem hx
  obtain ⟨j, hj⟩ := exists_mintedBytes_of_mem hy
  rw [hi, hj, ReplicaId.compare_pending_eq_lt_iff] at hlt
  rw [hi, hj]
  -- Both are pending, so it is not by their flags that one precedes the other.
  intro hbytes
  rw [ReplicaId.toNat, ReplicaId.toNat, hbytes] at hlt
  exact Nat.lt_irrefl _ hlt

theorem context_of_mem (hx : x ∈ serveAll minters calls) :
    ∀ c ∈ x.context?, ∃ delta, c = .alone ⟨x.id, 1, delta⟩ := by
  induction calls generalizing minters with
  | nil => contradiction
  | cons call calls ih =>
    rw [serveAll_cons, serve_eq] at hx
    rcases List.mem_cons.mp hx with rfl | hx
    · intro c hc
      obtain ⟨delta, -, rfl⟩ := Option.map_eq_some_iff.mp hc
      exact ⟨delta, rfl⟩
    · exact ih hx

/-- Ids that several minters hand out, in any order of calls: each is pending and leads with its node,
those of different nodes never meet, and those of one node ascend just if its sequence does not go
round. Then no two ids are the same, and any two contexts made with them merge and add up. -/
theorem minted_apart (hnodes : Function.Injective fun i => (minters i).nodeId)
    (calls : List (Call ι)) :
    (serveAll minters calls).map Minted.call = calls ∧
    (∀ x ∈ serveAll minters calls, x.id.isPending = true ∧
      x.id.bytes.toList.take 8 = Bytes.ofUInt64 (minters x.minter).nodeId ∧
      ∀ c ∈ x.context?, c.replicas = {x.id.bytes}) ∧
    (∀ x ∈ serveAll minters calls, ∀ y ∈ serveAll minters calls, x.minter ≠ y.minter →
      x.id.bytes ≠ y.id.bytes) ∧
    (AscendingByMinter (serveAll minters calls) ↔ Fits minters calls) ∧
    (Fits minters calls → (serveAll minters calls).Pairwise fun x y =>
      x.id.bytes ≠ y.id.bytes ∧ ∀ c ∈ x.context?, ∀ d ∈ y.context?, c.AddUp d) := by
  refine ⟨map_call_serveAll minters calls, fun x hx => ⟨?_, take_bytes_of_mem hx, ?_⟩,
    fun x hx y hy => bytes_ne_of_minter_ne hnodes hx hy, ascendingByMinter_serveAll_iff, ?_⟩
  · obtain ⟨mints, hid⟩ := exists_mintedBytes_of_mem hx
    rw [hid]
    rfl
  · intro c hc
    obtain ⟨delta, rfl⟩ := context_of_mem hx c hc
    exact Context.replicas_alone _
  · intro hfits
    have hascending := ascendingByMinter_serveAll_iff.mpr hfits
    refine hascending.imp_of_mem fun {x y} hx hy hlt => ?_
    have hbytes : x.id.bytes ≠ y.id.bytes := by
      by_cases h : x.minter = y.minter
      · exact bytes_ne_of_compare hx hy (hlt h)
      · exact bytes_ne_of_minter_ne hnodes hx hy h
    refine ⟨hbytes, fun c hc d hd => ?_⟩
    obtain ⟨delta, rfl⟩ := context_of_mem hx c hc
    obtain ⟨delta', rfl⟩ := context_of_mem hy d hd
    exact Context.addUp_alone hbytes

end calls

namespace Minting

/-- The first has two ids left, and the second starts at the same sequence number as the third. -/
def minters : Fin 3 → Minter
  | 0 => ⟨7, 18446744073709551614⟩
  | 1 => ⟨8, 5⟩
  | 2 => ⟨9, 5⟩

def calls : List (Call (Fin 3)) :=
  [⟨0, some 5⟩, ⟨1, some (-3)⟩, ⟨2, none⟩, ⟨0, some Int64.maxValue⟩, ⟨1, some 1⟩]

end Minting

open Minting in
theorem minted_apart_of_last_ids :
    AscendingByMinter (serveAll minters calls) ∧
    ¬ AscendingByMinter (serveAll minters (calls ++ [⟨0, none⟩])) ∧
    (serveAll minters calls).Pairwise fun x y =>
      x.id.bytes ≠ y.id.bytes ∧ ∀ c ∈ x.context?, ∀ d ∈ y.context?, c.AddUp d := by
  have hnodes : Function.Injective fun i => (minters i).nodeId := by
    intro i j
    revert i j
    decide
  have hfits : Fits minters calls := by unfold Fits; decide
  have hpast : ¬ Fits minters (calls ++ [⟨0, none⟩]) := by unfold Fits; decide
  obtain ⟨-, -, -, hascending, hapart⟩ := minted_apart hnodes calls
  obtain ⟨-, -, -, hascending', -⟩ := minted_apart hnodes (calls ++ [⟨0, none⟩])
  exact ⟨hascending.mpr hfits, mt hascending'.mp hpast, hapart hfits⟩

end ShardCounter
