import ShardCounter.Proofs.Context.Positions
import ShardCounter.Proofs.Mirror
import ShardCounter.Proofs.Replica.Order
/-! Three contexts merged, the first two first or the last two. Where neither first merge fails, both
groupings come to one result, or neither to any. A first merge can fail for what the third context has
overcome: a conflict at a clock that it supersedes, or the mark of an increment that it knows to be
shared. Then one grouping fails alone. -/
namespace ShardCounter.Context

def mergeLeft (a b c : Context) : Except ContextError Context := do
  (← a.merge b).merge c

def mergeRight (a b c : Context) : Except ContextError Context := do
  a.merge (← b.merge c)

def Regroups (a b c : Context) : Prop := ∀ m, mergeLeft a b c = .ok m ↔ mergeRight a b c = .ok m

/-- What two contexts are refused for that a third one has overcome. -/
inductive Overcome (third left right : Context) : ContextError → Prop where
  /-- It holds a newer record of the replica in conflict. -/
  | superseded (s t u : Shard) (hs : s ∈ left.shards) (ht : t ∈ right.shards) (hu : u ∈ third.shards)
    (hconflict : s.Conflicts t) (hbytes : s.id.bytes = u.id.bytes) (hclock : s.clock < u.clock) :
    Overcome third left right (.clockCountMismatch s.id.toStable s.clock s.count t.count)
  /-- It holds the stable record of a shard that is pending for them. -/
  | settled (s u : Shard) (hs : s ∈ left.records ∪ right.records) (hu : u ∈ third.shards)
    (hpending : s.isPending = true) (hstable : u.isPending = false) (hle : s ≤ u)
    {reason : Malformation} (hlimit : reason.OverLimit) :
    Overcome third left right (.malformed reason)

variable {a b c m left right third : Context} {R S : Set Shard}

theorem mergeLeft_eq_ok_iff (ha : a.Canonical) (hb : b.Canonical) (hc : c.Canonical) {ab : Context}
    (hab : a.merge b = .ok ab) :
    mergeLeft a b c = .ok m ↔ m.Canonical ∧ m.IsJoin (a.records ∪ b.records ∪ c.records) := by
  rw [mergeLeft, hab, Except.ok_bind, merge_eq_ok_iff (canonical_merge ha hb hab) hc]
  exact and_congr_right fun hm => IsJoin.union_iff hm (isJoin_merge ha hb hab)

theorem mergeRight_eq_ok_iff (ha : a.Canonical) (hb : b.Canonical) (hc : c.Canonical) {bc : Context}
    (hbc : b.merge c = .ok bc) :
    mergeRight a b c = .ok m ↔ m.Canonical ∧ m.IsJoin (a.records ∪ b.records ∪ c.records) := by
  rw [mergeRight, hbc, Except.ok_bind, merge_eq_ok_iff ha (canonical_merge hb hc hbc),
    Set.union_assoc, Set.union_comm a.records, Set.union_comm a.records]
  exact and_congr_right fun hm => IsJoin.union_iff hm (isJoin_merge hb hc hbc)

/-- What the header can point to in a join, it can point to in a part of it, unless the rest has
settled what is pending in that part. -/
theorem positionsFit_or_settled {merged : List Shard} (hasc : Ascending merged)
    (hpart : (ofSorted merged.toArray).IsJoin R) (hm : m.Canonical) (hjoin : m.IsJoin (R ∪ S)) :
    PositionsFit merged.toArray ∨
      ∃ s ∈ R, ∃ u ∈ S, s.isPending = true ∧ u.isPending = false ∧ s ≤ u := by
  by_cases hsettled : ∃ s ∈ R, ∃ u ∈ S, s.isPending = true ∧ u.isPending = false ∧ s ≤ u
  · exact .inr hsettled
  have hjoin := (IsJoin.union_iff hm hpart).mpr hjoin
  have hcarried : ∀ s ∈ merged, ∃ t ∈ m.shards, s ≤ t :=
    fun s hs => hjoin.le s (.inl (List.mem_toArray.mpr hs))
  refine .inl (.of_idsWithin hasc hm.ascending ?_ ?_ hm.positionsFit)
  · intro s hs
    obtain ⟨t, ht, hst⟩ := hcarried s hs
    exact ⟨t, Array.mem_toList_iff.mpr ht, hst.1.symm⟩
  · intro s hs hpending u hu hbytes
    have hu := Array.mem_toList_iff.mp hu
    obtain ⟨t, ht, hst⟩ := hcarried s hs
    have htu : t = u := hm.eq_of_bytes_eq ht hu (hst.1.symm.trans hbytes.symm)
    rcases hjoin.mem u hu with hmerged | hS
    · have hus : u = s := hasc.eq_of_bytes_eq (List.mem_toArray.mp hmerged) hs hbytes
      rwa [hus]
    · by_contra hstable
      exact hsettled ⟨s, hpart.mem s (List.mem_toArray.mpr hs), u, hS, hpending,
        Bool.eq_false_iff.mpr hstable, htu ▸ hst⟩

/-- Two contexts that do not merge are part of a join only if the rest has overcome what they are
refused for. -/
theorem overcome_of_isJoin (hl : left.Canonical) (hr : right.Canonical) (hm : m.Canonical)
    (hjoin : m.IsJoin (left.records ∪ right.records ∪ third.records)) {e : ContextError}
    (h : left.merge right = .error e) : Overcome third left right e := by
  rcases merge_eq_error hl hr h with ⟨s, hs, t, ht, hconflict, rfl⟩ |
    ⟨merged, reason, hmerged, hfit, hlimit, rfl⟩
  · obtain ⟨u, hu, hbytes, hclock⟩ := hjoin.exists_newer hl hr hm.ascending hs ht hconflict
    exact .superseded s t u hs ht hu hconflict hbytes hclock
  · have hasc := ascending_mergeLists hl.ascending hr.ascending hmerged
    obtain ⟨s, hs, u, hu, hpending, hstable, hle⟩ :=
      (positionsFit_or_settled hasc (isJoin_mergeLists hmerged) hm hjoin).resolve_left hfit
    exact .settled s u hs hu hpending hstable hle hlimit

/-- Groupings whose first merges both succeed come to the same. Where one grouping comes to a result
and the other does not, the first merge of the other was refused for what its third context has
overcome. -/
theorem merge_regroups (ha : a.Canonical) (hb : b.Canonical) (hc : c.Canonical) :
    ((∃ ab, a.merge b = .ok ab) → (∃ bc, b.merge c = .ok bc) → Regroups a b c) ∧
    (∀ m, mergeLeft a b c = .ok m →
      mergeRight a b c = .ok m ∨ ∃ e, b.merge c = .error e ∧ Overcome a b c e) ∧
    (∀ m, mergeRight a b c = .ok m →
      mergeLeft a b c = .ok m ∨ ∃ e, a.merge b = .error e ∧ Overcome c a b e) := by
  refine ⟨?_, ?_, ?_⟩
  · rintro ⟨ab, hab⟩ ⟨bc, hbc⟩ m
    rw [mergeLeft_eq_ok_iff ha hb hc hab, mergeRight_eq_ok_iff ha hb hc hbc]
  · intro m h
    obtain ⟨ab, hab, -⟩ := Except.bind_eq_ok_iff.mp h
    have hjoin := (mergeLeft_eq_ok_iff ha hb hc hab).mp h
    cases hbc : b.merge c with
    | ok bc => exact .inl ((mergeRight_eq_ok_iff ha hb hc hbc).mpr hjoin)
    | error e =>
      obtain ⟨hm, hjoin⟩ := hjoin
      rw [Set.union_assoc, Set.union_comm] at hjoin
      exact .inr ⟨e, rfl, overcome_of_isJoin hb hc hm hjoin hbc⟩
  · intro m h
    obtain ⟨bc, hbc, -⟩ := Except.bind_eq_ok_iff.mp h
    have hjoin := (mergeRight_eq_ok_iff ha hb hc hbc).mp h
    cases hab : a.merge b with
    | ok ab => exact .inl ((mergeLeft_eq_ok_iff ha hb hc hab).mpr hjoin)
    | error e => exact .inr ⟨e, rfl, overcome_of_isJoin ha hb hjoin.1 hjoin.2 hab⟩

namespace Grouping

def newer : Context := .ofSorted #[⟨.stable (Bytes.toVector 16 [1]), 2, 0⟩]

def unshared (n : Nat) : Shard := ⟨(ReplicaId.ofNat n).toPending, 1, 1⟩

def firstUnshared (count : Nat) : List Shard := (List.range count).map unshared

/-- As many increments as the header can count. -/
def crowded : Context := .ofSorted (firstUnshared maxPendingIndex).toArray

def minted : Context := .ofSorted #[unshared maxPendingIndex]

def returned : Context := .ofSorted #[(unshared maxPendingIndex).toStable]

def full : Context :=
  .ofSorted (firstUnshared maxPendingIndex ++ [(unshared maxPendingIndex).toStable]).toArray

-- Stated for any count: at the limit itself a check by evaluation would write out the whole list.
theorem ascending_firstUnshared {count : Nat} (h : count ≤ 256 ^ 16) :
    Ascending (firstUnshared count) := by
  refine List.pairwise_map.mpr (List.pairwise_lt_range.imp_of_mem ?_)
  intro i j hi hj hlt
  have hnumber : ∀ n ∈ List.range count, (unshared n).id.toNat = n :=
    fun n hn => ReplicaId.toNat_ofNat (Nat.lt_of_lt_of_le (List.mem_range.mp hn) h)
  rw [ReplicaId.order_eq_lt_iff, hnumber i hi, hnumber j hj]
  exact hlt

theorem firstUnshared_succ (count : Nat) :
    firstUnshared (count + 1) = firstUnshared count ++ [unshared count] := by
  rw [firstUnshared, List.range_succ, List.map_append, List.map_singleton, firstUnshared]

theorem length_firstUnshared (count : Nat) : (firstUnshared count).length = count := by
  rw [firstUnshared, List.length_map, List.length_range]

theorem positionsFit_firstUnshared {count : Nat} (h : count ≤ maxPendingIndex) :
    PositionsFit (firstUnshared count).toArray := by
  apply positionsFit_of_size_le
  rwa [List.size_toArray, length_firstUnshared]

theorem isPending_of_mem {count : Nat} {s : Shard} (hs : s ∈ firstUnshared count) :
    s.isPending = true := by
  obtain ⟨n, -, rfl⟩ := List.mem_map.mp hs
  rfl

theorem canonical_firstUnshared {count : Nat} (h : count ≤ maxPendingIndex) :
    (ofSorted (firstUnshared count).toArray).Canonical := by
  have hle : maxPendingIndex ≤ 256 ^ 16 := by decide
  exact canonical_ofSorted (ascending_firstUnshared (h.trans hle)) (positionsFit_firstUnshared h)

theorem canonical_crowded : crowded.Canonical :=
  canonical_firstUnshared (Nat.le_refl maxPendingIndex)

theorem canonical_full : full.Canonical := by
  have hasc : Ascending (firstUnshared (maxPendingIndex + 1)) := ascending_firstUnshared (by decide)
  rw [firstUnshared_succ] at hasc
  obtain ⟨hfirst, -, hlast⟩ := List.pairwise_append.mp hasc
  have hlimit := (positionsFit_firstUnshared (Nat.le_refl maxPendingIndex)).pendingCount_le
  have hstable : [(unshared maxPendingIndex).toStable].countP Shard.isPending = 0 := rfl
  apply canonical_ofSorted
  · refine List.pairwise_append.mpr ⟨hfirst, List.pairwise_singleton _ _, ?_⟩
    intro s hs t ht
    rw [List.mem_singleton.mp ht]
    exact hlast s hs (unshared maxPendingIndex) (List.mem_singleton_self _)
  · constructor
    · intro i hi _
      rw [List.size_toArray, List.length_append, length_firstUnshared, List.length_singleton] at hi
      omega
    · rwa [List.countP_toArray, List.countP_append, hstable, Nat.add_zero, ← List.countP_toArray]

theorem merge_crowded_returned : crowded.merge returned = .ok full := by
  have hreturned : returned.Canonical := canonical_ofSorted_singleton _
  rw [merge_eq_ok_iff canonical_crowded hreturned]
  refine ⟨canonical_full, ?_⟩
  have hshards : ∀ s, s ∈ full.shards ↔ s ∈ crowded.records ∪ returned.records := by
    intro s
    simp [full, crowded, returned, records, ofSorted, or_comm]
  constructor
  · exact fun s hs => (hshards s).mp hs
  · exact fun s hs => ⟨s, (hshards s).mpr hs, le_refl s⟩

theorem not_merge_crowded_minted : ¬ ∃ m, crowded.merge minted = .ok m := by
  rintro ⟨m, hmerge⟩
  have hminted : minted.Canonical := canonical_ofSorted_singleton _
  have hm := canonical_merge canonical_crowded hminted hmerge
  have hjoin := isJoin_merge canonical_crowded hminted hmerge
  have hrecords : crowded.records ∪ minted.records =
      {s | s ∈ firstUnshared (maxPendingIndex + 1)} := by
    ext s
    rw [firstUnshared_succ]
    simp [crowded, minted, records, ofSorted, or_comm]
  rw [hrecords] at hjoin
  have hids : IdsWithin (firstUnshared (maxPendingIndex + 1)) m.shards.toList := by
    intro s hs
    obtain ⟨t, ht, hst⟩ := hjoin.le s hs
    exact ⟨t, Array.mem_toList_iff.mpr ht, hst.1.symm⟩
  -- Every shard of either side is pending, and so all of the merged ones would be: one too many.
  have hsize := hids.length_le (ascending_firstUnshared (by decide))
  have hpending : m.shards.countP Shard.isPending = m.shards.size :=
    Array.countP_eq_size.mpr fun s hs => isPending_of_mem (hjoin.mem s hs)
  have hlimit := hm.positionsFit.pendingCount_le
  rw [length_firstUnshared, Array.length_toList] at hsize
  omega

end Grouping

open Mirror Grouping in
/-- Both ways in which a third context overcomes a refusal occur. -/
theorem merge_depends_on_grouping :
    (five.Canonical ∧ seven.Canonical ∧ newer.Canonical ∧ ¬ Regroups five seven newer) ∧
    crowded.Canonical ∧ minted.Canonical ∧ returned.Canonical ∧
      ¬ Regroups crowded minted returned := by
  have hsuperseded : ¬ Regroups five seven newer := by
    intro h
    have hleft : mergeLeft five seven newer = .ok newer := (h newer).mpr (by decide +kernel)
    exact absurd hleft (by decide +kernel)
  have hsettled : ¬ Regroups crowded minted returned := by
    intro h
    have hreturned : minted.merge returned = .ok returned := by decide +kernel
    have hright : mergeRight crowded minted returned = .ok full := by
      rw [mergeRight, hreturned, Except.ok_bind, merge_crowded_returned]
    obtain ⟨m, hm, -⟩ := Except.bind_eq_ok_iff.mp ((h full).mpr hright)
    exact not_merge_crowded_minted ⟨m, hm⟩
  refine ⟨⟨?_, ?_, ?_, hsuperseded⟩, canonical_crowded, ?_, ?_, hsettled⟩
  · decide +kernel
  · decide +kernel
  · decide +kernel
  · exact canonical_ofSorted_singleton _
  · exact canonical_ofSorted_singleton _

open Mirror Grouping in
theorem merge_regroups_of_newer :
    Regroups five newer seven ∧
    mergeRight five seven newer = .ok newer ∧
    ∃ e, five.merge seven = .error e ∧ Overcome newer five seven e := by
  have hfive : five.Canonical := by decide +kernel
  have hseven : seven.Canonical := by decide +kernel
  have hnewer : newer.Canonical := by decide +kernel
  have hright : mergeRight five seven newer = .ok newer := by decide +kernel
  have hleft : mergeLeft five seven newer ≠ .ok newer := by decide +kernel
  refine ⟨?_, hright, ?_⟩
  · exact (merge_regroups hfive hnewer hseven).1 ⟨newer, by decide +kernel⟩
      ⟨newer, by decide +kernel⟩
  · exact ((merge_regroups hfive hseven hnewer).2.2 newer hright).resolve_left hleft

end ShardCounter.Context
