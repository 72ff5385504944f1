import ShardCounter.Context.Basic
import ShardCounter.Proofs.Shard.Ascending
/-! Canonical contexts are those that ascending shards make when the wire header can point to their
pending ones. Such a context is determined by the shards it holds. -/
namespace ShardCounter

inductive Malformation.OverLimit : Malformation → Prop where
  | index (index : Nat) : OverLimit (.pendingIndexTooLarge index)
  | count (count : Nat) : OverLimit (.tooManyPending count)

namespace Context

/-- The header can point to every pending shard, and count them. -/
structure PositionsFit (shards : Array Shard) : Prop where
  index_le : ∀ (i : Nat) (h : i < shards.size), shards[i].isPending → i ≤ maxPendingIndex
  pendingCount_le : shards.countP Shard.isPending ≤ maxPendingIndex

theorem find?_pastLimit_eq_none_iff (shards : Array Shard) :
    (shards.toList.zipIdx.find? fun (s, i) => s.isPending && maxPendingIndex < i) = none ↔
      ∀ (i : Nat) (h : i < shards.size), shards[i].isPending → i ≤ maxPendingIndex := by
  rw [List.find?_eq_none]
  constructor
  · intro h i hi hpending
    have hmem : (shards[i], i) ∈ shards.toList.zipIdx := by
      rw [List.mk_mem_zipIdx_iff_getElem?]
      simp [hi]
    have hle := h _ hmem
    simp only [hpending, Bool.true_and, decide_eq_true_eq] at hle
    omega
  · rintro h ⟨s, i⟩ hmem
    rw [List.mk_mem_zipIdx_iff_getElem?, Array.getElem?_toList] at hmem
    obtain ⟨hi, rfl⟩ := Array.getElem?_eq_some_iff.mp hmem
    simp only [Bool.and_eq_true, decide_eq_true_eq, not_and, not_lt]
    exact h i hi

theorem checkPending_of_fit {shards : Array Shard} (h : PositionsFit shards) :
    checkPending shards = .ok () := by
  unfold checkPending
  rw [(find?_pastLimit_eq_none_iff shards).mpr h.index_le]
  simp only [not_lt.mpr h.pendingCount_le, if_false]

theorem checkPending_of_not_fit {shards : Array Shard} (h : ¬ PositionsFit shards) :
    ∃ reason : Malformation, reason.OverLimit ∧ checkPending shards = .error (.malformed reason) := by
  unfold checkPending
  split
  · exact ⟨_, .index _, rfl⟩
  · rename_i hnone
    have hindex := (find?_pastLimit_eq_none_iff shards).mp hnone
    have hcount : maxPendingIndex < shards.countP Shard.isPending :=
      Nat.lt_of_not_le fun hle => h ⟨hindex, hle⟩
    simp only [hcount, if_true]
    exact ⟨_, .count _, rfl⟩

theorem ofSorted?_of_fit {shards : Array Shard} (h : PositionsFit shards) :
    ofSorted? shards = .ok (ofSorted shards) := by
  unfold ofSorted?
  rw [checkPending_of_fit h]
  rfl

theorem ofSorted?_of_not_fit {shards : Array Shard} (h : ¬ PositionsFit shards) :
    ∃ reason : Malformation, reason.OverLimit ∧ ofSorted? shards = .error (.malformed reason) := by
  obtain ⟨reason, hlimit, hcheck⟩ := checkPending_of_not_fit h
  refine ⟨reason, hlimit, ?_⟩
  unfold ofSorted?
  rw [hcheck]
  rfl

theorem ofSorted?_eq_ok {shards : Array Shard} {c : Context} (h : ofSorted? shards = .ok c) :
    PositionsFit shards ∧ c = ofSorted shards := by
  by_cases hfit : PositionsFit shards
  · rw [ofSorted?_of_fit hfit] at h
    exact ⟨hfit, (Except.ok.inj h).symm⟩
  · obtain ⟨reason, -, herror⟩ := ofSorted?_of_not_fit hfit
    rw [herror] at h
    contradiction

theorem positionsFit_of_size_le {shards : Array Shard} (h : shards.size ≤ maxPendingIndex) :
    PositionsFit shards where
  index_le i hi _ := by omega
  pendingCount_le := Array.countP_le_size.trans h

theorem positionsFit_of_stable {shards : Array Shard} (h : ∀ s ∈ shards, s.isPending = false) :
    PositionsFit shards where
  index_le i hi hpending := by
    rw [h _ (Array.getElem_mem hi)] at hpending
    contradiction
  pendingCount_le := by
    rw [Array.countP_eq_zero.mpr fun s hs => by simp [h s hs]]
    exact Nat.zero_le _

theorem canonical_ofSorted {shards : Array Shard} (hasc : Ascending shards.toList)
    (hfit : PositionsFit shards) : (ofSorted shards).Canonical where
  ascending := hasc
  pendingCount_eq := rfl
  index_le := hfit.index_le
  pendingCount_le := hfit.pendingCount_le

theorem canonical_ofSorted_singleton (s : Shard) : (ofSorted #[s]).Canonical :=
  canonical_ofSorted (List.pairwise_singleton _ s)
    (positionsFit_of_size_le (show 1 ≤ maxPendingIndex by decide))

theorem canonical_iff (c : Context) : c.Canonical ↔
    Ascending c.shards.toList ∧ c.pendingCount = c.shards.countP Shard.isPending ∧
      (∀ (i : Nat) (h : i < c.shards.size), c.shards[i].isPending → i ≤ maxPendingIndex) ∧
      c.pendingCount ≤ maxPendingIndex :=
  ⟨fun h => ⟨h.ascending, h.pendingCount_eq, h.index_le, h.pendingCount_le⟩,
    fun ⟨hasc, hcount, hindex, hle⟩ => ⟨hasc, hcount, hindex, hle⟩⟩

instance (c : Context) : Decidable c.Canonical :=
  decidable_of_iff' _ (canonical_iff c)

namespace Canonical

variable {a b c : Context}

theorem eq_ofSorted (h : c.Canonical) : c = ofSorted c.shards := by
  obtain ⟨shards, pendingCount⟩ := c
  have hcount : pendingCount = shards.countP Shard.isPending := h.pendingCount_eq
  rw [hcount]
  rfl

theorem positionsFit (h : c.Canonical) : PositionsFit c.shards where
  index_le := h.index_le
  pendingCount_le := h.pendingCount_eq ▸ h.pendingCount_le

theorem ofSorted?_shards (h : c.Canonical) : ofSorted? c.shards = .ok c := by
  rw [ofSorted?_of_fit h.positionsFit, ← h.eq_ofSorted]

theorem eq_of_mem_iff (ha : a.Canonical) (hb : b.Canonical)
    (h : ∀ s, s ∈ a.shards ↔ s ∈ b.shards) : a = b := by
  have hlist : a.shards.toList = b.shards.toList :=
    Ascending.eq_of_mem_iff ha.ascending hb.ascending fun s => by
      rw [Array.mem_toList_iff, Array.mem_toList_iff, h]
  rw [ha.eq_ofSorted, hb.eq_ofSorted, Array.toList_inj.mp hlist]

theorem eq_of_bytes_eq (h : c.Canonical) {s t : Shard} (hs : s ∈ c.shards) (ht : t ∈ c.shards)
    (hbytes : s.id.bytes = t.id.bytes) : s = t :=
  Ascending.eq_of_bytes_eq h.ascending (Array.mem_toList_iff.mpr hs)
    (Array.mem_toList_iff.mpr ht) hbytes

end Canonical
end Context
end ShardCounter
