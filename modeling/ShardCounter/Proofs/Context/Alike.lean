import Mathlib.Data.Set.Image
import ShardCounter.Proofs.Context.Dominance
import ShardCounter.Proofs.Context.Stable
/-! Contexts that are alike differ in their pending marks and in nothing else. Merging and comparing
them respects that, and a merge with a context that is dominated already leaves an alike one. -/
namespace ShardCounter

namespace Shard

variable {s t : Shard}

theorem toStable_mono (h : s ≤ t) : s.toStable ≤ t.toStable := by
  obtain ⟨hbytes, hlt | ⟨hclock, hcount, -⟩⟩ := le_iff.mp h
  · exact ⟨hbytes, .inl hlt⟩
  · exact ⟨hbytes, .inr ⟨hclock, hcount, fun h => h⟩⟩

theorem toStable_le_of_clock_le (h : t ≤ s) (hclock : s.clock ≤ t.clock) :
    s.toStable ≤ t.toStable := by
  obtain ⟨hbytes, hlt | ⟨hclock', hcount, -⟩⟩ := le_iff.mp h
  · exact absurd hclock (UInt64.not_le.mpr hlt)
  · exact ⟨hbytes.symm, .inr ⟨hclock'.symm, hcount.symm, fun h => h⟩⟩

end Shard

namespace Context

variable {a a' b b' c m m' : Context} {R : Set Shard}

theorem Canonical.mem_clearPending (h : c.Canonical) {s : Shard} :
    s ∈ c.clearPending.shards ↔ ∃ t ∈ c.shards, t.toStable = s := by
  rw [h.shards_clearPending, Array.mem_map]

theorem IsJoin.clearPending (hc : c.Canonical) (h : c.IsJoin R) :
    c.clearPending.IsJoin (Shard.toStable '' R) := by
  constructor
  · intro s hs
    obtain ⟨t, ht, rfl⟩ := hc.mem_clearPending.mp hs
    exact Set.mem_image_of_mem _ (h.mem t ht)
  · rintro - ⟨s, hs, rfl⟩
    obtain ⟨t, ht, hst⟩ := h.le s hs
    exact ⟨t.toStable, hc.mem_clearPending.mpr ⟨t, ht, rfl⟩, Shard.toStable_mono hst⟩

theorem records_clearPending (hc : c.Canonical) :
    c.clearPending.records = Shard.toStable '' c.records :=
  Set.ext fun _ => hc.mem_clearPending

theorem isJoin_clearPending_of_merge (ha : a.Canonical) (hb : b.Canonical) (h : a.merge b = .ok m) :
    m.clearPending.IsJoin (a.clearPending.records ∪ b.clearPending.records) := by
  rw [records_clearPending ha, records_clearPending hb, ← Set.image_union]
  exact (isJoin_merge ha hb h).clearPending (canonical_merge ha hb h)

theorem dominates_clearPending (ha : a.Canonical) (hb : b.Canonical) :
    a.clearPending.dominates b.clearPending = a.dominates b := by
  rw [Bool.eq_iff_iff, dominates_iff ha.clearPending hb.clearPending, dominates_iff ha hb]
  simp only [ha.mem_clearPending, hb.mem_clearPending, forall_exists_index, and_imp,
    forall_apply_eq_imp_iff₂, exists_exists_and_eq_and]
  rfl

/-- Dominance looks at clocks alone, and shards of one clock might differ in their counts; but then
the two contexts would not have merged. -/
theorem clearPending_le_of_dominates (ha : a.Canonical) (hb : b.Canonical)
    (hdom : a.dominates b = true) (h : a.merge b = .ok m) : b.clearPending ≤ a.clearPending := by
  have hm := canonical_merge ha hb h
  have hjoin := isJoin_merge ha hb h
  intro r hr
  obtain ⟨s, hs, rfl⟩ := hb.mem_clearPending.mp hr
  obtain ⟨t, ht, hbytes, hclock⟩ := (dominates_iff ha hb).mp hdom s hs
  refine ⟨t.toStable, ha.mem_clearPending.mpr ⟨t, ht, rfl⟩, ?_⟩
  -- The merge has one shard for the replica of `s` and `t`, and it carries both of them.
  obtain ⟨u, hu, hsu⟩ := hjoin.le s (.inr hs)
  obtain ⟨v, hv, htv⟩ := hjoin.le t (.inl ht)
  have huv : u = v := hm.eq_of_bytes_eq hu hv (hsu.1.symm.trans (hbytes.symm.trans htv.1))
  rcases hjoin.mem u hu with hu | hu
  · have hut : u = t := ha.eq_of_bytes_eq hu ht (hsu.1.symm.trans hbytes.symm)
    exact Shard.toStable_mono (hut ▸ hsu)
  · have hus : u = s := hb.eq_of_bytes_eq hu hs hsu.1.symm
    exact Shard.toStable_le_of_clock_le (hus ▸ huv ▸ htv) hclock

/-- Both canonical, and the same but for their pending marks. -/
structure Alike (a b : Context) : Prop where
  canonical : a.Canonical
  canonical' : b.Canonical
  clearPending_eq : a.clearPending = b.clearPending

namespace Alike

theorem refl (h : c.Canonical) : c.Alike c := ⟨h, h, rfl⟩

theorem symm (h : a.Alike b) : b.Alike a := ⟨h.canonical', h.canonical, h.clearPending_eq.symm⟩

theorem trans (hab : a.Alike b) (hbc : b.Alike c) : a.Alike c :=
  ⟨hab.canonical, hbc.canonical', hab.clearPending_eq.trans hbc.clearPending_eq⟩

theorem clearPending (h : c.Canonical) : c.Alike c.clearPending where
  canonical := h
  canonical' := h.clearPending
  clearPending_eq := by
    -- What is cleared is all stable, so clearing it once more leaves its shards as they are.
    have hjoin := (isJoin_records c).clearPending h
    rw [← records_clearPending h] at hjoin
    have hjoin' := (isJoin_records c.clearPending).clearPending h.clearPending
    have hrecords : Shard.toStable '' c.clearPending.records = c.clearPending.records := by
      rw [records_clearPending h, Set.image_image]
      rfl
    rw [hrecords] at hjoin'
    exact hjoin.unique h.clearPending h.clearPending.clearPending hjoin'

theorem dominates_eq (ha : a.Alike a') (hb : b.Alike b') : a.dominates b = a'.dominates b' := by
  rw [← dominates_clearPending ha.canonical hb.canonical, ha.clearPending_eq, hb.clearPending_eq,
    dominates_clearPending ha.canonical' hb.canonical']

theorem merge (ha : a.Alike a') (hb : b.Alike b') (h : a.merge b = .ok m)
    (h' : a'.merge b' = .ok m') : m.Alike m' := by
  have hm := canonical_merge ha.canonical hb.canonical h
  have hm' := canonical_merge ha.canonical' hb.canonical' h'
  have hjoin := isJoin_clearPending_of_merge ha.canonical hb.canonical h
  rw [ha.clearPending_eq, hb.clearPending_eq] at hjoin
  exact ⟨hm, hm', hjoin.unique hm.clearPending hm'.clearPending
    (isJoin_clearPending_of_merge ha.canonical' hb.canonical' h')⟩

theorem merge_of_dominates (ha : a.Canonical) (hb : b.Canonical) (hdom : a.dominates b = true)
    (h : a.merge b = .ok m) : a.Alike m := by
  have hm := canonical_merge ha hb h
  have hle := clearPending_le_of_dominates ha hb hdom h
  exact ⟨ha, hm, (isJoin_union_of_le hle).unique ha.clearPending hm.clearPending
    (isJoin_clearPending_of_merge ha hb h)⟩

end Alike
end Context
end ShardCounter
