import ShardCounter.Proofs.Cell.Digest
import ShardCounter.Proofs.Cell.Dominance
import ShardCounter.Proofs.Context.Positions
import ShardCounter.Proofs.Mirror
/-! What has to be transferred. Whether one version lacks anything of another is decided without
reconciling them, by a walk of its own; between versions that are not in conflict it comes to the same:
nothing is lacking just when reconciling would add no more than pending marks. -/
namespace ShardCounter

namespace Context

variable {a b m : Context}

theorem diff?_eq_none_iff : a.diff? b = none ↔ a.dominates b = true := by
  unfold diff?
  split <;> simp_all

theorem diff?_cases (a b : Context) : a.diff? b = none ∨ a.diff? b = some b := by
  unfold diff?
  split
  · exact .inl rfl
  · exact .inr rfl

theorem dominates_of_clearPending_eq (ha : a.Canonical) (hb : b.Canonical) (h : a.merge b = .ok m)
    (hclear : m.clearPending = a.clearPending) : a.dominates b = true := by
  have hm := canonical_merge ha hb h
  have halike : a.Alike m := ⟨ha, hm, hclear.symm⟩
  rw [halike.dominates_eq (.refl hb)]
  exact dominates_of_le hm hb (le_merge_right ha hb h)

theorem dominates_iff_merge (ha : a.Canonical) (hb : b.Canonical) (hcompat : a.Compatible b) :
    a.dominates b = true ↔ ∃ m, a.merge b = .ok m ∧ m.clearPending = a.clearPending := by
  constructor
  · intro hdom
    obtain ⟨m, hmerge⟩ := exists_merge_of_dominates ha hb hcompat hdom
    exact ⟨m, hmerge, (Alike.merge_of_dominates ha hb hdom hmerge).clearPending_eq.symm⟩
  · rintro ⟨m, hmerge, hclear⟩
    exact dominates_of_clearPending_eq ha hb hmerge hclear

theorem Alike.dominates (h : a.Alike b) : a.dominates b = true :=
  ((Alike.refl h.canonical).dominates_eq h.symm).trans
    (dominates_refl h.canonical)

theorem dominates_both_iff (ha : a.Canonical) (hb : b.Canonical) (hcompat : a.Compatible b) :
    a.dominates b = true ∧ b.dominates a = true ↔ a.clearPending = b.clearPending := by
  constructor
  · rintro ⟨hab, hba⟩
    obtain ⟨m, hmerge, hleft⟩ := (dominates_iff_merge ha hb hcompat).mp hab
    have hmerge' := ((mirrored_merge ha hb).eq_ok_iff m).mp hmerge
    rw [← hleft, (Alike.merge_of_dominates hb ha hba hmerge').clearPending_eq]
  · intro h
    have halike : a.Alike b := ⟨ha, hb, h⟩
    exact ⟨halike.dominates, halike.symm.dominates⟩

end Context

namespace Counter

variable {l r : Counter} {m : Context}

theorem diff?_of_clearPending_join (hl : l.context.Canonical) (hr : r.context.Canonical)
    (h : l.context.merge r.context = .ok m) (hclear : (l.join r m).clearPending = l.clearPending) :
    l.diff? r = none := by
  simp only [clearPending, join, mk.injEq] at hclear
  obtain ⟨-, hcontext, hwritten, hdelete⟩ := hclear
  exact diff?_eq_none_iff.mpr ⟨max_eq_left_iff.mp hwritten, max_eq_left_iff.mp hdelete,
    Context.dominates_of_clearPending_eq hl hr h hcontext⟩

end Counter

namespace Cell

variable {a b joined : Cell}

/-- Live versions are not in conflict. Nothing is asked of deletes. -/
def Compatible (a b : Cell) : Prop :=
  ∀ l r, a = .counter l → b = .counter r → l.context.Compatible r.context

theorem compatible_counters_iff {l r : Counter} :
    (counter l).Compatible (counter r) ↔ l.context.Compatible r.context :=
  ⟨fun h => h l r rfl rfl, fun h _ _ hl hr => counter.inj hl ▸ counter.inj hr ▸ h⟩

theorem exists_reconcile_of_dominates (ha : a.Canonical) (hb : b.Canonical) (hcompat : a.Compatible b)
    (h : Dominates a b) : ∃ c, a.reconcile b = .ok c ∧ c.clearPending = a.clearPending := by
  have hdiff := diff?_eq_none_iff.mpr h
  cases h with
  | counters l r hname _ _ hcontext =>
    obtain ⟨m, hmerge⟩ := Context.exists_merge_of_dominates (ha l rfl) (hb r rfl)
      (hcompat l r rfl rfl) hcontext
    have hjoin := reconcile_counters_of_merge hname hmerge
    have halike := Alike.reconcile_of_diff? (.refl ha) (.refl hb) hdiff hjoin
    exact ⟨_, hjoin, halike.clearPending_eq.symm⟩
  | remembers => exact ⟨_, reconcile_of_diff?_eq_none (.inr rfl) hdiff, rfl⟩
  | shadows | tombstones => exact ⟨_, reconcile_of_diff?_eq_none (.inl rfl) hdiff, rfl⟩

theorem dominates_of_clearPending_eq (ha : a.Canonical) (hb : b.Canonical) (hname : a.name = b.name)
    (h : Reconciles a b joined) (hclear : joined.clearPending = a.clearPending) : Dominates a b := by
  cases h with
  | counters l r m hmerge =>
    have hdiff := Counter.diff?_of_clearPending_join (ha l rfl) (hb r rfl) hmerge
      (counter.inj hclear)
    rw [← diff?_eq_none_iff, diff?_counters hname, hdiff]
    rfl
  | tombstones l r =>
    exact .tombstones l r hname ((Tombstone.later_eq_left_iff hname).mp (tombstone.inj hclear))
  | shadowedLeft => contradiction
  | shadowedRight c t hlt => exact .shadows t c hname hlt
  | survivesLeft c t hle =>
    have hdelete : max c.lastDelete t.deletedAt = c.lastDelete :=
      congrArg Counter.lastDelete (counter.inj hclear)
    exact .remembers c t hname hle (max_eq_left_iff.mp hdelete)
  | survivesRight => contradiction

theorem diff?_eq_none_iff_exists (ha : a.Canonical) (hb : b.Canonical) (hname : a.name = b.name)
    (hcompat : a.Compatible b) : a.diff? b = .ok none ↔
      ∃ c, a.reconcile b = .ok c ∧ c.clearPending = a.clearPending := by
  rw [diff?_eq_none_iff]
  constructor
  · exact exists_reconcile_of_dominates ha hb hcompat
  · rintro ⟨c, hc, hclear⟩
    exact dominates_of_clearPending_eq ha hb hname (reconciles_of_reconcile hc) hclear

theorem Alike.dominates (h : a.Alike b) : Dominates a b := by
  cases h with
  | counter h =>
    exact .counters _ _ h.name_eq (Int64.le_of_eq h.writtenAt_eq.symm)
      (Int64.le_of_eq h.lastDelete_eq.symm) h.context.dominates
  | tombstone t => exact .tombstones t t rfl (.refl t)

/-- A counter and a tombstone never dominate each other both ways: either the write or the delete is
the later one. -/
theorem Alike.of_dominates (ha : a.Canonical) (hb : b.Canonical) (hcompat : a.Compatible b)
    (hab : Dominates a b) (hba : Dominates b a) : a.Alike b := by
  cases hab with
  | counters l r hname hwritten hdelete hcontext =>
    cases hba with
    | counters _ _ _ hwritten' hdelete' hcontext' =>
      have hclear := (Context.dominates_both_iff (ha l rfl) (hb r rfl)
        (hcompat l r rfl rfl)).mp ⟨hcontext, hcontext'⟩
      exact .counter ⟨hname, ⟨ha l rfl, hb r rfl, hclear⟩, Int64.le_antisymm hwritten' hwritten,
        Int64.le_antisymm hdelete' hdelete⟩
  | remembers c t _ hwritten _ =>
    cases hba with
    | shadows _ _ _ hlt => exact absurd hlt (Int64.not_lt.mpr hwritten)
  | shadows t c _ hlt =>
    cases hba with
    | remembers _ _ _ hwritten _ => exact absurd hlt (Int64.not_lt.mpr hwritten)
  | tombstones l r hname hle =>
    cases hba with
    | tombstones _ _ _ hle' =>
      cases hle'.antisymm hname hle
      exact .tombstone l

theorem dominates_both_iff (ha : a.Canonical) (hb : b.Canonical) (hcompat : a.Compatible b) :
    Dominates a b ∧ Dominates b a ↔ a.clearPending = b.clearPending := by
  constructor
  · rintro ⟨hab, hba⟩
    exact (Alike.of_dominates ha hb hcompat hab hba).clearPending_eq
  · intro h
    have halike := Alike.of_clearPending_eq ha hb h
    exact ⟨halike.dominates, halike.symm.dominates⟩

end Cell

/-- Between versions that are not in conflict, nothing is to be transferred just when reconciling would
add no more than pending marks; otherwise the whole version is. Neither side has anything to transfer
just when both digests are taken of the same bytes. -/
theorem nothing_to_transfer_iff :
    (∀ a b : Cell, a.Canonical → b.Canonical → a.name = b.name → a.Compatible b →
      (a.diff? b = .ok none ↔ ∃ c, a.reconcile b = .ok c ∧ c.clearPending = a.clearPending) ∧
      ((¬ ∃ c, a.reconcile b = .ok c ∧ c.clearPending = a.clearPending) →
        a.diff? b = .ok (some b)) ∧
      (a.diff? b = .ok none ∧ b.diff? a = .ok none ↔ a.digestInput = b.digestInput)) ∧
    (∀ a b : Context, a.Canonical → b.Canonical → a.Compatible b →
      (a.diff? b = none ↔ ∃ m, a.merge b = .ok m ∧ m.clearPending = a.clearPending) ∧
      ((¬ ∃ m, a.merge b = .ok m ∧ m.clearPending = a.clearPending) → a.diff? b = some b) ∧
      (a.diff? b = none ∧ b.diff? a = none ↔ a.clearPending = b.clearPending)) := by
  constructor
  · intro a b ha hb hname hcompat
    have hdiff := Cell.diff?_eq_none_iff_exists ha hb hname hcompat
    refine ⟨hdiff, fun hadds => (Cell.diff?_cases hname).resolve_left (mt hdiff.mp hadds), ?_⟩
    rw [Cell.diff?_eq_none_iff, Cell.diff?_eq_none_iff, Cell.dominates_both_iff ha hb hcompat,
      Cell.digestInput_eq_iff ha hb (congrArg CellName.size hname)]
  · intro a b ha hb hcompat
    have hdiff := Context.diff?_eq_none_iff.trans (Context.dominates_iff_merge ha hb hcompat)
    refine ⟨hdiff, fun hadds => (Context.diff?_cases a b).resolve_left (mt hdiff.mp hadds), ?_⟩
    rw [Context.diff?_eq_none_iff, Context.diff?_eq_none_iff,
      Context.dominates_both_iff ha hb hcompat]

namespace Transfer

def counterOf (context : Context) (writtenAt : Int64) : Counter := ⟨⟨[120]⟩, context, writtenAt, 3⟩

def minted : Context := .ofSorted #[⟨.pending (Bytes.toVector 16 [1]), 1, 5⟩]

def returned : Context := .ofSorted #[⟨.stable (Bytes.toVector 16 [1]), 1, 5⟩]

def relayed : Context :=
  .ofSorted #[⟨.stable (Bytes.toVector 16 [1]), 1, 5⟩, ⟨.stable (Bytes.toVector 16 [2]), 3, 7⟩]

end Transfer

open Transfer in
theorem nothing_to_transfer_iff_of_return :
    (Cell.counter (counterOf minted 10)).diff? (.counter (counterOf returned 10)) = .ok none ∧
    (Cell.counter (counterOf minted 10)).digestInput =
      (Cell.counter (counterOf returned 10)).digestInput ∧
    (Cell.counter (counterOf minted 10)).diff? (.counter (counterOf returned 11)) =
      .ok (some (.counter (counterOf returned 11))) ∧
    minted.diff? relayed = some relayed := by
  have hminted : minted.Canonical := by decide +kernel
  have hreturned : returned.Canonical := by decide +kernel
  have hrelayed : relayed.Canonical := by decide +kernel
  have hcompat : minted.Compatible returned := by decide +kernel
  have hcells (writtenAt : Int64) := nothing_to_transfer_iff.1 (.counter (counterOf minted 10))
    (.counter (counterOf returned writtenAt)) (Cell.canonical_counter_iff.mpr hminted)
    (Cell.canonical_counter_iff.mpr hreturned) rfl
    (Cell.compatible_counters_iff.mpr hcompat)
  have hcontexts := nothing_to_transfer_iff.2 minted relayed hminted hrelayed (by decide +kernel)
  have hnone : (Cell.counter (counterOf minted 10)).diff? (.counter (counterOf returned 10)) =
      .ok none :=
    (hcells 10).1.mpr ⟨.counter (counterOf returned 10), by decide +kernel, by decide +kernel⟩
  refine ⟨hnone, (hcells 10).2.2.mp ⟨hnone, by decide +kernel⟩, (hcells 11).2.1 ?_,
    hcontexts.2.1 ?_⟩
  · rintro ⟨c, hc, hclear⟩
    have hjoin : (Cell.counter (counterOf minted 10)).reconcile (.counter (counterOf returned 11)) =
        .ok (.counter (counterOf returned 11)) := by decide +kernel
    cases hjoin.symm.trans hc
    exact absurd hclear (by decide +kernel)
  · rintro ⟨m, hm, hclear⟩
    have hmerge : minted.merge relayed = .ok relayed := by decide +kernel
    cases hmerge.symm.trans hm
    exact absurd hclear (by decide +kernel)

end ShardCounter
