import ShardCounter.Proofs.Context.Dominance
/-! Where shards stand. The position of a shard is the number of replicas before it, so it can only
grow as replicas are added: whatever the header can point to among many replicas, it can point to
among few of them. -/
namespace ShardCounter.Context

def IdsWithin (few many : List Shard) : Prop := ∀ s ∈ few, ∃ t ∈ many, t.id.bytes = s.id.bytes

def rank (shards : List Shard) (id : ReplicaId) : Nat :=
  (shards.filter fun s => s.id.order id = .lt).length

section rank

variable {few many shards : List Shard} {s : Shard} {i : Nat}

theorem rank_of_getElem? (h : Ascending shards) (hs : shards[i]? = some s) :
    rank shards s.id = i := by
  induction shards generalizing i with
  | nil => contradiction
  | cons first rest ih =>
    obtain ⟨hfirst, hrest⟩ := List.pairwise_cons.mp h
    unfold rank at ih ⊢
    cases i with
    | zero =>
      cases hs
      have hnone : (rest.filter fun t => t.id.order s.id = .lt) = [] := by
        refine List.filter_eq_nil_iff.mpr fun t ht => ?_
        rw [ReplicaId.order_gt_iff.mpr (hfirst t ht)]
        simp
      have hself : ¬ s.id.order s.id = .lt := by
        rw [ReplicaId.order_eq_iff.mpr rfl]
        simp
      rw [List.filter_cons_of_neg (by simpa using hself), hnone, List.length_nil]
    | succ i =>
      have hs : rest[i]? = some s := hs
      have hlt := hfirst s (List.mem_of_getElem? hs)
      rw [List.filter_cons_of_pos (by simpa using hlt), List.length_cons, ih hrest hs]

theorem IdsWithin.length_le (h : IdsWithin few many) (hfew : Ascending few) :
    few.length ≤ many.length := by
  have hsub : few.map (·.id.bytes) ⊆ many.map (·.id.bytes) := by
    intro bytes hbytes
    obtain ⟨s, hs, rfl⟩ := List.mem_map.mp hbytes
    obtain ⟨t, ht, hts⟩ := h s hs
    exact List.mem_map.mpr ⟨t, ht, hts⟩
  simpa using (hfew.nodup_bytes.subperm hsub).length_le

theorem IdsWithin.rank_le (h : IdsWithin few many) (hfew : Ascending few) (id : ReplicaId) :
    rank few id ≤ rank many id := by
  refine IdsWithin.length_le (fun s hs => ?_) (hfew.filter _)
  obtain ⟨hs, hlt⟩ := List.mem_filter.mp hs
  obtain ⟨t, ht, hts⟩ := h s hs
  refine ⟨t, List.mem_filter.mpr ⟨ht, ?_⟩, hts⟩
  rwa [ReplicaId.order_congr_left hts]

end rank

/-- The header's reach among many replicas is enough for few of them, if no other shards are
pending. -/
theorem PositionsFit.of_idsWithin {few many : List Shard} (hfew : Ascending few)
    (hmany : Ascending many) (hids : IdsWithin few many)
    (hpending : ∀ s ∈ few, s.isPending → ∀ t ∈ many, t.id.bytes = s.id.bytes → t.isPending)
    (h : PositionsFit many.toArray) : PositionsFit few.toArray := by
  constructor
  · intro i hi hs
    rw [List.getElem_toArray] at hs
    have hmem : few[i] ∈ few := List.getElem_mem hi
    obtain ⟨t, ht, hbytes⟩ := hids few[i] hmem
    obtain ⟨j, hj, rfl⟩ := List.getElem_of_mem ht
    calc i = rank few few[i].id := (rank_of_getElem? hfew (List.getElem?_eq_getElem hi)).symm
      _ ≤ rank many few[i].id := hids.rank_le hfew _
      _ = rank many many[j].id := by unfold rank ReplicaId.order; rw [hbytes]
      _ = j := rank_of_getElem? hmany (List.getElem?_eq_getElem hj)
      _ ≤ maxPendingIndex := h.index_le j hj (hpending _ hmem hs _ ht hbytes)
  · have hwithin : IdsWithin (few.filter Shard.isPending) (many.filter Shard.isPending) := by
      intro s hs
      obtain ⟨hs, hs'⟩ := List.mem_filter.mp hs
      obtain ⟨t, ht, hbytes⟩ := hids s hs
      exact ⟨t, List.mem_filter.mpr ⟨ht, hpending s hs hs' t ht hbytes⟩, hbytes⟩
    have hlength := hwithin.length_le (hfew.filter _)
    have hlimit := h.pendingCount_le
    rw [List.countP_toArray, List.countP_eq_length_filter] at hlimit ⊢
    exact hlength.trans hlimit

variable {a b m : Context}

/-- Nothing refuses the merge with a context that is dominated: its replicas all have their positions
already, and its marks cannot be the only ones. -/
theorem exists_merge_of_dominates (ha : a.Canonical) (hb : b.Canonical) (hcompat : a.Compatible b)
    (hdom : a.dominates b = true) : ∃ m, a.merge b = .ok m := by
  obtain ⟨merged, hmerged⟩ := exists_mergeLists_of_compatible hcompat
  have hasc := ascending_mergeLists ha.ascending hb.ascending hmerged
  rw [merge_eq ha hb, hmerged, Except.ok_bind]
  refine ⟨_, ofSorted?_of_fit (.of_idsWithin hasc ha.ascending ?_ ?_ ha.positionsFit)⟩
  · intro s hs
    rcases mem_of_mergeLists hmerged hs with hs | hs
    · exact ⟨s, hs, rfl⟩
    · obtain ⟨t, ht, hbytes, -⟩ := (dominates_iff ha hb).mp hdom s (Array.mem_toList_iff.mp hs)
      exact ⟨t, Array.mem_toList_iff.mpr ht, hbytes⟩
  · intro s hs hpending t ht hbytes
    obtain ⟨u, hu, htu⟩ := le_of_mergeLists hmerged (.inl ht)
    have hus : u = s := hasc.eq_of_bytes_eq hu hs (htu.1.symm.trans hbytes)
    rcases (hus ▸ htu).2 with hlt | ⟨-, -, himp⟩
    · -- Only a record of the other side could be newer, and it is dominated.
      rcases mem_of_mergeLists hmerged hs with hs | hs
      · have hst := Ascending.eq_of_bytes_eq ha.ascending hs ht hbytes.symm
        exact hst ▸ hpending
      · obtain ⟨v, hv, hbytes', hclock⟩ :=
          (dominates_iff ha hb).mp hdom s (Array.mem_toList_iff.mp hs)
        have hvt := ha.eq_of_bytes_eq hv (Array.mem_toList_iff.mp ht)
          (hbytes'.trans hbytes.symm)
        exact absurd (hvt ▸ hclock) (UInt64.not_le.mpr hlt)
    · exact himp hpending

theorem merge_of_le (ha : a.Canonical) (hb : b.Canonical) (h : b ≤ a) : a.merge b = .ok a := by
  have hcompat : a.Compatible b := by
    intro s hs t ht hconflict
    obtain ⟨u, hu, htu⟩ := h t ht
    have hus := ha.eq_of_bytes_eq hu hs (htu.1.symm.trans hconflict.1.symm)
    exact Shard.not_conflicts_of_le (hus ▸ htu) hconflict.symm
  obtain ⟨m, hmerge⟩ := exists_merge_of_dominates ha hb hcompat (dominates_of_le ha hb h)
  rw [hmerge, (merge_eq_left_iff ha hb hmerge).mpr h]

end ShardCounter.Context
