import ShardCounter.Proofs.Context.Alike
import ShardCounter.Proofs.Context.Positions
/-! Merging contexts of which some pending marks were cleared before. Fewer marks ask less of the
header, so whatever merges with its marks merges without them, and the result lacks no more than
marks. -/
namespace ShardCounter

namespace Context

variable {a a' b b' c m : Context}

theorem Alike.exists_mem (h : a.Alike a') {t : Shard} (ht : t ∈ a'.shards) :
    ∃ s ∈ a.shards, s.toStable = t.toStable := by
  have hmem := h.canonical'.mem_clearPending.mpr ⟨t, ht, rfl⟩
  rw [← h.clearPending_eq] at hmem
  exact h.canonical.mem_clearPending.mp hmem

theorem Alike.compatible (ha : a.Alike a') (hb : b.Alike b') (h : a.Compatible b) :
    a'.Compatible b' := by
  intro s' hs' t' ht' hconflict
  obtain ⟨s, hs, hss'⟩ := ha.exists_mem hs'
  obtain ⟨t, ht, htt'⟩ := hb.exists_mem ht'
  have hstable : s.toStable.Conflicts t.toStable := by
    rw [hss', htt']
    exact hconflict
  exact h s hs t ht hstable

/-- Alike, and whatever is pending on the right is so on the left. -/
structure Clears (a a' : Context) : Prop extends a.Alike a' where
  le : a ≤ a'

theorem Clears.refl (h : c.Canonical) : c.Clears c := ⟨.refl h, le_rfl⟩

theorem Clears.clearPending (h : c.Canonical) : c.Clears c.clearPending where
  toAlike := .clearPending h
  le s hs := ⟨s.toStable, h.mem_clearPending.mpr ⟨s, hs, rfl⟩, rfl, .inr ⟨rfl, rfl, nofun⟩⟩

/-- Fewer marks ask less of the header: each shard of the first list is carried by the second, which
carries nothing that the first does not. -/
theorem PositionsFit.of_carried {few many : List Shard} (hfew : Ascending few)
    (hmany : Ascending many)
    (hcarried : ∀ s ∈ few, ∃ t ∈ many, t.id.bytes = s.id.bytes ∧ s.clock ≤ t.clock)
    (hkept : ∀ t ∈ many, ∃ s ∈ few, t ≤ s) (h : PositionsFit many.toArray) :
    PositionsFit few.toArray := by
  refine .of_idsWithin hfew hmany ?_ ?_ h
  · intro s hs
    obtain ⟨t, ht, hbytes, -⟩ := hcarried s hs
    exact ⟨t, ht, hbytes⟩
  · intro s hs hpending t ht hbytes
    obtain ⟨t', ht', hbytes', hclock⟩ := hcarried s hs
    have htt' : t' = t := hmany.eq_of_bytes_eq ht' ht (hbytes'.trans hbytes.symm)
    obtain ⟨s', hs', hle⟩ := hkept t ht
    have hss' : s' = s := hfew.eq_of_bytes_eq hs' hs (hle.1.symm.trans hbytes)
    rcases (hss' ▸ hle).2 with hlt | ⟨-, -, himp⟩
    · exact absurd (htt' ▸ hclock) (UInt64.not_le.mpr hlt)
    · exact himp hpending

section Clears

variable (ha : a.Clears a') (hb : b.Clears b') {merged : List Shard}
  (hmerged : mergeLists a'.shards.toList b'.shards.toList = .ok merged)

include ha hb hmerged

theorem exists_carrier (h : a.merge b = .ok m) {s : Shard} (hs : s ∈ merged) :
    ∃ t ∈ m.shards, t.id.bytes = s.id.bytes ∧ s.clock ≤ t.clock := by
  obtain ⟨r, hr, hrs⟩ : ∃ r ∈ a.records ∪ b.records, r.toStable = s.toStable := by
    rcases mem_of_mergeLists hmerged hs with hs | hs
    · obtain ⟨r, hr, hrs⟩ := ha.exists_mem (Array.mem_toList_iff.mp hs)
      exact ⟨r, .inl hr, hrs⟩
    · obtain ⟨r, hr, hrs⟩ := hb.exists_mem (Array.mem_toList_iff.mp hs)
      exact ⟨r, .inr hr, hrs⟩
  have hbytes : r.id.bytes = s.id.bytes := congrArg (·.id.bytes) hrs
  have hclock : r.clock = s.clock := congrArg (·.clock) hrs
  obtain ⟨t, ht, hrt⟩ := (isJoin_merge ha.canonical hb.canonical h).le r hr
  exact ⟨t, ht, hrt.1.symm.trans hbytes, hclock ▸ Shard.clock_le_of_le hrt⟩

theorem exists_kept (h : a.merge b = .ok m) {t : Shard} (ht : t ∈ m.shards) :
    ∃ s ∈ merged, t ≤ s := by
  obtain ⟨t', ht', hle⟩ : ∃ t', (t' ∈ a'.shards.toList ∨ t' ∈ b'.shards.toList) ∧ t ≤ t' := by
    rcases (isJoin_merge ha.canonical hb.canonical h).mem t ht with ht | ht
    · obtain ⟨t', ht', hle⟩ := ha.le t ht
      exact ⟨t', .inl (Array.mem_toList_iff.mpr ht'), hle⟩
    · obtain ⟨t', ht', hle⟩ := hb.le t ht
      exact ⟨t', .inr (Array.mem_toList_iff.mpr ht'), hle⟩
  obtain ⟨s, hs, hle'⟩ := le_of_mergeLists hmerged ht'
  exact ⟨s, hs, hle.trans hle'⟩

end Clears

theorem exists_merge_of_clears (ha : a.Clears a') (hb : b.Clears b') (h : a.merge b = .ok m) :
    ∃ m', a'.merge b' = .ok m' := by
  have hm := canonical_merge ha.canonical hb.canonical h
  have hcompat := ha.compatible hb.toAlike (compatible_of_merge ha.canonical hb.canonical h)
  obtain ⟨merged, hmerged⟩ := exists_mergeLists_of_compatible hcompat
  have hasc := ascending_mergeLists ha.canonical'.ascending hb.canonical'.ascending hmerged
  have hfit : PositionsFit merged.toArray := by
    refine .of_carried hasc hm.ascending (fun s hs => ?_) (fun t ht => ?_) hm.positionsFit
    · obtain ⟨t, ht, hcarries⟩ := exists_carrier ha hb hmerged h hs
      exact ⟨t, Array.mem_toList_iff.mpr ht, hcarries⟩
    · exact exists_kept ha hb hmerged h (Array.mem_toList_iff.mp ht)
  rw [merge_eq ha.canonical' hb.canonical', hmerged, Except.ok_bind]
  exact ⟨_, ofSorted?_of_fit hfit⟩

theorem merge_clearPending (ha : a.Canonical) (hb : b.Canonical) (h : a.merge b = .ok m) :
    a.clearPending.merge b.clearPending = .ok m.clearPending := by
  obtain ⟨m', hm'⟩ := exists_merge_of_clears (.clearPending ha) (.clearPending hb) h
  have hcanonical := canonical_merge ha.clearPending hb.clearPending hm'
  have hjoin := isJoin_merge ha.clearPending hb.clearPending hm'
  rw [hm', hjoin.unique hcanonical (canonical_merge ha hb h).clearPending
    (isJoin_clearPending_of_merge ha hb h)]

end Context
end ShardCounter
