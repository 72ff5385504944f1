import ShardCounter.Cell.Digest
import ShardCounter.Proofs.Cell.Canonical
import ShardCounter.Proofs.Cell.Codec
import ShardCounter.Proofs.Context.Alike
/-! Cells that are alike differ in the pending marks of their contexts and in nothing else. Versions
that are alike reconcile to cells that are alike, whether they came over the wire or not, and a
transfer that is skipped would have brought no more than marks. -/
namespace ShardCounter

structure Counter.Alike (c d : Counter) : Prop where
  name_eq : c.name = d.name
  context : c.context.Alike d.context
  writtenAt_eq : c.writtenAt = d.writtenAt
  lastDelete_eq : c.lastDelete = d.lastDelete

/-- Counters that are alike, or one tombstone twice. -/
inductive Cell.Alike : Cell → Cell → Prop where
  | counter {c d : Counter} (h : c.Alike d) : Alike (.counter c) (.counter d)
  | tombstone (t : Tombstone) : Alike (.tombstone t) (.tombstone t)

namespace Counter.Alike

variable {c d l l' r r' : Counter} {m m' : Context}

theorem clearPending_eq (h : c.Alike d) : c.clearPending = d.clearPending := by
  unfold Counter.clearPending
  rw [h.context.clearPending_eq]
  obtain ⟨name, context, writtenAt, lastDelete⟩ := c
  obtain ⟨name', context', writtenAt', lastDelete'⟩ := d
  obtain ⟨rfl, -, rfl, rfl⟩ := h
  rfl

theorem digestInput_eq (h : c.Alike d) : c.digestInput = d.digestInput := by
  rw [digestInput, digestInput, h.context.clearPending_eq, h.writtenAt_eq, h.lastDelete_eq,
    h.name_eq]

theorem join (hl : l.Alike l') (hr : r.Alike r') (h : l.context.merge r.context = .ok m)
    (h' : l'.context.merge r'.context = .ok m') : (l.join r m).Alike (l'.join r' m') where
  name_eq := hl.name_eq
  context := hl.context.merge hr.context h h'
  writtenAt_eq := congrArg₂ max hl.writtenAt_eq hr.writtenAt_eq
  lastDelete_eq := congrArg₂ max hl.lastDelete_eq hr.lastDelete_eq

theorem survive (h : c.Alike d) (deletedAt : Int64) :
    (c.survive deletedAt).Alike (d.survive deletedAt) :=
  { h with lastDelete_eq := congrArg (max · deletedAt) h.lastDelete_eq }

theorem applyTombstone (h : c.Alike d) (t : Tombstone) :
    (c.applyTombstone t).Alike (d.applyTombstone t) := by
  rcases Int64.lt_or_le c.writtenAt t.deletedAt with hlt | hle
  · rw [applyTombstone_of_lt hlt, applyTombstone_of_lt (h.writtenAt_eq ▸ hlt)]
    exact .tombstone t
  · rw [applyTombstone_of_le hle, applyTombstone_of_le (h.writtenAt_eq ▸ hle)]
    exact .counter (h.survive t.deletedAt)

theorem join_of_diff? (hl : l.context.Canonical) (hr : r.context.Canonical)
    (hdiff : l.diff? r = none) (h : l.context.merge r.context = .ok m) : l.Alike (l.join r m) := by
  obtain ⟨hwritten, hdelete, hdom⟩ := Counter.diff?_eq_none_iff.mp hdiff
  exact ⟨rfl, .merge_of_dominates hl hr hdom h, (max_eq_left hwritten).symm,
    (max_eq_left hdelete).symm⟩

theorem diff?_eq_none_iff (hl : l.Alike l') (hr : r.Alike r') :
    l.diff? r = none ↔ l'.diff? r' = none := by
  rw [Counter.diff?_eq_none_iff, Counter.diff?_eq_none_iff, hl.writtenAt_eq, hl.lastDelete_eq,
    hr.writtenAt_eq, hr.lastDelete_eq, hl.context.dominates_eq hr.context]

end Counter.Alike

namespace Cell

variable {a a' b b' m m' : Cell}

namespace Alike

theorem refl (h : a.Canonical) : a.Alike a := by
  cases a with
  | counter c => exact .counter ⟨rfl, .refl (h c rfl), rfl, rfl⟩
  | tombstone t => exact .tombstone t

theorem canonical (h : a.Alike b) : a.Canonical := by
  cases h with
  | counter h => exact canonical_counter_iff.mpr h.context.canonical
  | tombstone t => exact canonical_tombstone t

theorem symm (h : a.Alike b) : b.Alike a := by
  cases h with
  | counter h =>
    exact .counter ⟨h.name_eq.symm, h.context.symm, h.writtenAt_eq.symm, h.lastDelete_eq.symm⟩
  | tombstone t => exact .tombstone t

theorem trans {c : Cell} (hab : a.Alike b) (hbc : b.Alike c) : a.Alike c := by
  cases hab with
  | counter h =>
    cases hbc with
    | counter h' =>
      exact .counter ⟨h.name_eq.trans h'.name_eq, h.context.trans h'.context,
        h.writtenAt_eq.trans h'.writtenAt_eq, h.lastDelete_eq.trans h'.lastDelete_eq⟩
  | tombstone t => exact hbc

theorem clearPending_eq (h : a.Alike b) : a.clearPending = b.clearPending := by
  cases h with
  | counter h => exact congrArg Cell.counter h.clearPending_eq
  | tombstone t => rfl

theorem of_clearPending_eq (ha : a.Canonical) (hb : b.Canonical)
    (h : a.clearPending = b.clearPending) : a.Alike b := by
  cases a with
  | counter c =>
    cases b with
    | counter d =>
      simp only [Cell.clearPending, Counter.clearPending, counter.injEq, Counter.mk.injEq] at h
      obtain ⟨hname, hcontext, hwritten, hdelete⟩ := h
      exact .counter ⟨hname, ⟨ha c rfl, hb d rfl, hcontext⟩, hwritten, hdelete⟩
    | tombstone t => contradiction
  | tombstone s =>
    cases b with
    | counter d => contradiction
    | tombstone t =>
      cases h
      exact .tombstone s

theorem digestInput_eq (h : a.Alike b) : a.digestInput = b.digestInput := by
  cases h with
  | counter h => exact h.digestInput_eq
  | tombstone t => rfl

theorem digest_eq (h : a.Alike b) : a.digest = b.digest :=
  congrArg Digest.ofInput h.digestInput_eq

theorem clearPending (h : a.Alike b) : a.Alike b.clearPending := by
  cases h with
  | counter h =>
    exact .counter { h with context := h.context.trans (.clearPending h.context.canonical') }
  | tombstone t => exact .tombstone t

theorem reconcile (ha : a.Alike a') (hb : b.Alike b') (h : a.reconcile b = .ok m)
    (h' : a'.reconcile b' = .ok m') : m.Alike m' := by
  have hname := name_eq_of_reconcile h
  have hname' := name_eq_of_reconcile h'
  cases ha with
  | counter hl =>
    cases hb with
    | counter hr =>
      cases reconciles_of_reconcile h with
      | counters _ _ _ hmerge =>
        cases reconciles_of_reconcile h' with
        | counters _ _ _ hmerge' => exact .counter (hl.join hr hmerge hmerge')
    | tombstone t =>
      rw [reconcile_counter_tombstone hname] at h
      rw [reconcile_counter_tombstone hname'] at h'
      cases h
      cases h'
      exact hl.applyTombstone t
  | tombstone t =>
    cases hb with
    | counter hr =>
      rw [reconcile_tombstone_counter hname] at h
      rw [reconcile_tombstone_counter hname'] at h'
      cases h
      cases h'
      exact hr.applyTombstone t
    | tombstone u =>
      rw [h] at h'
      cases h'
      cases reconciles_of_reconcile h with
      | tombstones => exact .tombstone _

/-- A version that lacks nothing of another learns no more than marks from it, and neither does one
that is alike. -/
theorem reconcile_of_diff? (ha : a.Alike a') (hb : b.Alike b') (hdiff : a.diff? b = .ok none)
    (h : a'.reconcile b' = .ok m) : a.Alike m := by
  have hname := name_eq_of_diff? hdiff
  cases ha with
  | counter hl =>
    cases hb with
    | counter hr =>
      rw [diff?_counters hname, Except.ok.injEq, Option.map_eq_none_iff, hl.diff?_eq_none_iff hr]
        at hdiff
      cases reconciles_of_reconcile h with
      | counters _ _ _ hmerge =>
        have hjoin := Counter.Alike.join_of_diff? hl.context.canonical' hr.context.canonical' hdiff
          hmerge
        exact (Alike.counter hl).trans (.counter hjoin)
    | tombstone t =>
      exact (Alike.counter hl).reconcile (.tombstone t)
        (reconcile_of_diff?_eq_none (.inr rfl) hdiff) h
  | tombstone t =>
    exact (Alike.tombstone t).reconcile hb (reconcile_of_diff?_eq_none (.inl rfl) hdiff) h

end Alike
end Cell
end ShardCounter
