import Mathlib.Data.List.Sort
import ShardCounter.Shard
/-! Shards in strictly ascending order of ids. Such a list holds one shard per replica, and is
determined by its members. -/
namespace ShardCounter

namespace ReplicaId

theorem order_eq_iff {a b : ReplicaId} : a.order b = .eq ↔ a.bytes = b.bytes :=
  Std.LawfulEqOrd.compare_eq_iff_eq

theorem order_gt_iff {a b : ReplicaId} : a.order b = .gt ↔ b.order a = .lt :=
  Std.OrientedCmp.gt_iff_lt (α := Vector UInt8 16)

theorem order_lt_trans {a b c : ReplicaId} (hab : a.order b = .lt) (hbc : b.order c = .lt) :
    a.order c = .lt :=
  Std.TransCmp.lt_trans (α := Vector UInt8 16) hab hbc

theorem bytes_ne_of_order_lt {a b : ReplicaId} (h : a.order b = .lt) : a.bytes ≠ b.bytes := by
  intro heq
  rw [order_eq_iff.mpr heq] at h
  contradiction

theorem order_congr_left {a b c : ReplicaId} (h : a.bytes = b.bytes) :
    a.order c = b.order c := by
  rw [order, order, h]

end ReplicaId

/-- Strictly ascending ids, so no two shards of one replica. -/
abbrev Ascending (shards : List Shard) : Prop :=
  shards.Pairwise fun a b => a.id.order b.id = .lt

namespace Ascending

variable {left right shards : List Shard} {s t : Shard}

theorem nodup_bytes (h : Ascending shards) : (shards.map (·.id.bytes)).Nodup :=
  List.pairwise_map.mpr (h.imp ReplicaId.bytes_ne_of_order_lt)

theorem nodup (h : Ascending shards) : shards.Nodup := h.nodup_bytes.of_map _

theorem eq_of_bytes_eq (h : Ascending shards) (hs : s ∈ shards) (ht : t ∈ shards)
    (hbytes : s.id.bytes = t.id.bytes) : s = t :=
  List.inj_on_of_nodup_map h.nodup_bytes hs ht hbytes

theorem eq_of_mem_iff (hl : Ascending left) (hr : Ascending right)
    (h : ∀ s, s ∈ left ↔ s ∈ right) : left = right := by
  have hperm : left.Perm right := (List.perm_ext_iff_of_nodup hl.nodup hr.nodup).mpr h
  refine hperm.eq_of_pairwise ?_ hl hr
  intro a b _ _ hab hba
  have hself := ReplicaId.order_lt_trans hab hba
  exact absurd rfl (ReplicaId.bytes_ne_of_order_lt hself)

end Ascending
end ShardCounter
