import Mathlib.Order.Defs.PartialOrder
import ShardCounter.Shard
/-! Versions of one replica's shard. A higher clock supersedes a lower one, and between records that
agree on clock and count the stable spelling supersedes the pending one. Records of different
replicas, and records in conflict, are not comparable. -/
namespace ShardCounter.Shard

theorem toStable_eq_self {s : Shard} (h : s.isPending = false) : s.toStable = s := by
  obtain ⟨⟨bytes, isPending⟩, clock, count⟩ := s
  have hflag : isPending = false := h
  rw [hflag]
  rfl

/-- `t` carries all that `s` does. -/
def SupersededBy (s t : Shard) : Prop :=
  s.id.bytes = t.id.bytes ∧
    (s.clock < t.clock ∨ s.clock = t.clock ∧ s.count = t.count ∧ (t.isPending → s.isPending))

theorem SupersededBy.trans {r s t : Shard} (hrs : r.SupersededBy s) (hst : s.SupersededBy t) :
    r.SupersededBy t := by
  obtain ⟨hbytes, hrs⟩ := hrs
  obtain ⟨hbytes', hst⟩ := hst
  refine ⟨hbytes.trans hbytes', ?_⟩
  rcases hrs with hlt | ⟨hclock, hcount, hpending⟩
  · rcases hst with hlt' | ⟨hclock', -, -⟩
    · exact .inl (UInt64.lt_trans hlt hlt')
    · exact .inl (hclock' ▸ hlt)
  · rcases hst with hlt' | ⟨hclock', hcount', hpending'⟩
    · exact .inl (hclock ▸ hlt')
    · exact .inr ⟨hclock.trans hclock', hcount.trans hcount', hpending ∘ hpending'⟩

theorem SupersededBy.antisymm {s t : Shard} (hst : s.SupersededBy t) (hts : t.SupersededBy s) :
    s = t := by
  obtain ⟨hbytes, hst⟩ := hst
  obtain ⟨-, hts⟩ := hts
  rcases hst with hlt | ⟨hclock, hcount, hpending⟩
  · rcases hts with hlt' | ⟨hclock', -, -⟩
    · exact absurd (UInt64.lt_trans hlt hlt') (UInt64.lt_irrefl _)
    · exact absurd (hclock' ▸ hlt) (UInt64.lt_irrefl _)
  · rcases hts with hlt' | ⟨-, -, hpending'⟩
    · exact absurd (hclock ▸ hlt') (UInt64.lt_irrefl _)
    · have hflag : s.id.isPending = t.id.isPending :=
        Bool.eq_iff_iff.mpr ⟨hpending', hpending⟩
      obtain ⟨⟨bytes, isPending⟩, clock, count⟩ := s
      obtain ⟨⟨bytes', isPending'⟩, clock', count'⟩ := t
      simp_all

instance : PartialOrder Shard where
  le := SupersededBy
  le_refl s := ⟨rfl, .inr ⟨rfl, rfl, fun h => h⟩⟩
  le_trans _ _ _ := SupersededBy.trans
  le_antisymm _ _ := SupersededBy.antisymm

theorem le_iff {s t : Shard} : s ≤ t ↔ s.id.bytes = t.id.bytes ∧
    (s.clock < t.clock ∨ s.clock = t.clock ∧ s.count = t.count ∧ (t.isPending → s.isPending)) :=
  Iff.rfl

theorem clock_le_of_le {s t : Shard} (h : s ≤ t) : s.clock ≤ t.clock := by
  rcases h.2 with hlt | ⟨hclock, -, -⟩
  · exact UInt64.le_of_lt hlt
  · exact UInt64.le_of_eq hclock

/-- One replica, one clock, and no agreement on the count. -/
def Conflicts (s t : Shard) : Prop :=
  s.id.bytes = t.id.bytes ∧ s.clock = t.clock ∧ s.count ≠ t.count

theorem Conflicts.symm {s t : Shard} (h : s.Conflicts t) : t.Conflicts s :=
  ⟨h.1.symm, h.2.1.symm, h.2.2.symm⟩

theorem not_conflicts_of_le {s t : Shard} (h : s ≤ t) : ¬ s.Conflicts t := by
  rintro ⟨-, hclock, hcount⟩
  rcases h.2 with hlt | ⟨-, hcount', -⟩
  · exact absurd (hclock ▸ hlt) (UInt64.lt_irrefl _)
  · exact hcount hcount'

theorem Conflicts.clock_lt {s t u : Shard} (h : s.Conflicts t) (hs : s ≤ u) (ht : t ≤ u) :
    s.clock < u.clock := by
  obtain ⟨-, hclock, hcount⟩ := h
  rcases hs.2 with hlt | ⟨-, hcount', -⟩
  · exact hlt
  · rcases ht.2 with hlt | ⟨-, hcount'', -⟩
    · rwa [hclock]
    · exact absurd (hcount'.trans hcount''.symm) hcount

instance (s t : Shard) : Decidable (s.Conflicts t) :=
  inferInstanceAs (Decidable (_ ∧ _))

end ShardCounter.Shard
