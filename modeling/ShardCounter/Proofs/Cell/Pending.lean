import ShardCounter.Proofs.Cell.Origin
import ShardCounter.Proofs.Cell.Reconcile
import ShardCounter.Proofs.Context.Merge
import ShardCounter.Proofs.Context.Stable
/-! The pending ids of a cell. No join has one that neither side has, and nothing that is read as
another process's bytes has any. -/
namespace ShardCounter

namespace Context

variable {a b c : Context}

def pendingIds (c : Context) : List ReplicaId :=
  (c.shards.toList.filter Shard.isPending).map Shard.id

theorem mem_pendingIds {id : ReplicaId} :
    id ∈ c.pendingIds ↔ ∃ s ∈ c.shards, s.isPending = true ∧ s.id = id := by
  simp only [pendingIds, List.mem_map, List.mem_filter, Array.mem_toList_iff, and_assoc]

theorem pendingIds_eq_nil_iff : c.pendingIds = [] ↔ ∀ s ∈ c.shards, s.isPending = false := by
  simp only [pendingIds, List.map_eq_nil_iff, List.filter_eq_nil_iff, Array.mem_toList_iff,
    Bool.not_eq_true]

theorem Canonical.pendingIds_clearPending (h : c.Canonical) : c.clearPending.pendingIds = [] := by
  rw [pendingIds_eq_nil_iff, h.shards_clearPending]
  intro s hs
  obtain ⟨t, -, rfl⟩ := Array.mem_map.mp hs
  exact t.isPending_toStable

theorem mem_of_merge {s : Shard} (h : a.merge b = .ok c) (hs : s ∈ c.shards) :
    s ∈ a.shards ∨ s ∈ b.shards := by
  unfold merge at h
  split at h
  · cases h
    exact .inl hs
  split at h
  · cases h
    exact .inr hs
  obtain ⟨shards, hshards, h⟩ := Except.bind_eq_ok_iff.mp h
  rw [mergeInto_eq] at hshards
  obtain ⟨merged, hmerged, rfl⟩ := Except.map_eq_ok_iff.mp hshards
  obtain ⟨-, rfl⟩ := ofSorted?_eq_ok h
  have hmem : s ∈ merged := by simpa [ofSorted, Array.emptyWithCapacity] using hs
  simpa using mem_of_mergeLists hmerged hmem

theorem pendingIds_merge (h : a.merge b = .ok c) :
    c.pendingIds ⊆ a.pendingIds ++ b.pendingIds := by
  intro id hid
  obtain ⟨s, hs, hpending, rfl⟩ := mem_pendingIds.mp hid
  rw [List.mem_append, mem_pendingIds, mem_pendingIds]
  exact (mem_of_merge h hs).imp (fun hs => ⟨s, hs, hpending, rfl⟩) fun hs => ⟨s, hs, hpending, rfl⟩

end Context

namespace Cell

variable {a b joined cell : Cell} {bytes : Bytes}

def pendingIds : Cell → List ReplicaId
  | .counter c => c.context.pendingIds
  | .tombstone _ => []

theorem Canonical.pendingIds_clearPending (h : cell.Canonical) :
    cell.clearPending.pendingIds = [] := by
  cases cell with
  | counter c => exact (canonical_counter_iff.mp h).pendingIds_clearPending
  | tombstone t => rfl

theorem pendingIds_reconcile (h : a.reconcile b = .ok joined) :
    joined.pendingIds ⊆ a.pendingIds ++ b.pendingIds := by
  cases reconciles_of_reconcile h with
  | counters l r context hmerge => exact Context.pendingIds_merge hmerge
  | tombstones l r => exact List.nil_subset _
  | shadowedLeft c t _ => exact List.nil_subset _
  | shadowedRight c t _ => exact List.nil_subset _
  | survivesLeft c t _ => exact List.subset_append_left _ _
  | survivesRight c t _ => exact List.subset_append_right _ _

theorem pendingIds_of_decode_remote (h : decode .remote bytes = .ok cell) :
    cell.pendingIds = [] := by
  rw [decode_remote] at h
  obtain ⟨sent, hsent, rfl⟩ := Except.map_eq_ok_iff.mp h
  exact (encode_of_decode hsent).1.pendingIds_clearPending

end Cell

theorem Counter.pendingIds_of_decode_remote {c : Counter} {bytes : Bytes}
    (h : decode .remote bytes = .ok c) : c.context.pendingIds = [] := by
  rw [decode_remote] at h
  obtain ⟨sent, hsent, rfl⟩ := Except.map_eq_ok_iff.mp h
  exact (encode_of_decode hsent).1.pendingIds_clearPending

end ShardCounter
