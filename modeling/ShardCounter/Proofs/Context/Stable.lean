import ShardCounter.Proofs.Context.Canonical
import ShardCounter.Proofs.Shard.Version
/-! Clearing the pending marks of a canonical context spells every shard as stable and does nothing
else, whether or not there were any marks. -/
namespace ShardCounter

@[simp] theorem Shard.isPending_toStable (s : Shard) : s.toStable.isPending = false := rfl

@[simp] theorem Shard.toStable_toStable (s : Shard) : s.toStable.toStable = s.toStable := rfl

theorem Context.pendingCount_clearPending (c : Context) : c.clearPending.pendingCount = 0 := by
  unfold Context.clearPending
  split
  · simp [Context.ofSorted, Array.countP_eq_zero]
  · rename_i hnone
    simpa [Context.hasPending] using hnone

namespace Context.Canonical

variable {c : Context}

theorem isPending_eq_false (h : c.Canonical) (hnone : c.hasPending = false) :
    ∀ s ∈ c.shards, s.isPending = false := by
  have hzero : c.shards.countP Shard.isPending = 0 := by
    rw [← h.pendingCount_eq]
    simpa [hasPending] using hnone
  exact fun s hs => (Bool.not_eq_true _).mp (Array.countP_eq_zero.mp hzero s hs)

theorem shards_clearPending (h : c.Canonical) :
    c.clearPending.shards = c.shards.map Shard.toStable := by
  unfold clearPending
  split
  · rfl
  · rename_i hnone
    have hstable := h.isPending_eq_false ((Bool.not_eq_true _).mp hnone)
    calc c.shards = c.shards.map id := (Array.map_id c.shards).symm
      _ = c.shards.map Shard.toStable :=
        Array.map_congr_left fun s hs => (Shard.toStable_eq_self (hstable s hs)).symm

theorem clearPending (h : c.Canonical) : c.clearPending.Canonical := by
  unfold Context.clearPending
  split
  · refine canonical_ofSorted ?_ (positionsFit_of_stable ?_)
    · rw [Array.toList_map]
      exact List.pairwise_map.mpr h.ascending
    · intro s hs
      obtain ⟨t, -, rfl⟩ := Array.mem_map.mp hs
      exact Shard.isPending_toStable t
  · exact h

end Context.Canonical
end ShardCounter
