import ShardCounter.Proofs.Cell.Dominance
import ShardCounter.Proofs.Mirror
import ShardCounter.Proofs.Transfer
/-! Which versions cannot be compared, and which cannot be reconciled. Both refuse cells of two names.
A conflict stops reconciling alone: comparing looks at ids and clocks, and takes two counts at one
clock for one record. -/
namespace ShardCounter

/-- Refusals for what the two sides hold, not for what the header can point to. -/
inductive ContextError.IsMismatch : ContextError → Prop where
  | clockCountMismatch (replica : ReplicaId) (clock : UInt64) (left right : Int64) :
    IsMismatch (.clockCountMismatch replica clock left right)

inductive CellError.IsMismatch : CellError → Prop where
  | nameMismatch (left right : CellName) : IsMismatch (.nameMismatch left right)
  | context {e : ContextError} (h : e.IsMismatch) : IsMismatch (.context e)

/-- Comparing two versions fails just when reconciling them fails with a mismatch. -/
def Reconcile.FailAlike {α ε : Type} [Reconcile α ε] (mismatch : ε → Prop) (a b : α) : Prop :=
  (∃ e, dominates a b = .error e) ↔ ∃ e, reconcile a b = .error e ∧ mismatch e

namespace Context

variable {a b : Context}

theorem merge_mismatch_iff (ha : a.Canonical) (hb : b.Canonical) :
    (∃ e, a.merge b = .error e ∧ e.IsMismatch) ↔ ¬ a.Compatible b := by
  constructor
  · rintro ⟨e, herror, hmismatch⟩ hcompat
    rcases merge_of_compatible ha hb hcompat with ⟨m, hm⟩ | ⟨reason, hreason⟩
    · rw [hm] at herror
      contradiction
    · rw [hreason] at herror
      cases herror
      contradiction
  · intro hconflict
    cases h : a.merge b with
    | ok m => exact absurd (compatible_of_merge ha hb h) hconflict
    | error e =>
      rcases merge_eq_error ha hb h with ⟨s, -, t, -, -, rfl⟩ | ⟨merged, -, hmerged, -⟩
      · exact ⟨_, rfl, .clockCountMismatch ..⟩
      · exact absurd (compatible_of_mergeLists ha hb hmerged) hconflict

/-- Comparing contexts never fails, so a conflict is what the two ways differ in. -/
theorem failAlike_iff (ha : a.Canonical) (hb : b.Canonical) :
    Reconcile.FailAlike ContextError.IsMismatch a b ↔ a.Compatible b := by
  have hnever : ¬ ∃ e, Reconcile.dominates a b = .error e := nofun
  unfold Reconcile.FailAlike
  rw [iff_false_left hnever]
  exact (not_congr (merge_mismatch_iff ha hb)).trans not_not

end Context

namespace Cell

variable {a b : Cell}

theorem dominates_of_name_ne (h : a.name ≠ b.name) :
    a.dominates b = .error (.nameMismatch a.name b.name) := by
  unfold dominates diff? checkNames
  rw [if_pos h]
  rfl

theorem dominates_eq_error_iff {e : CellError} :
    a.dominates b = .error e ↔ a.name ≠ b.name ∧ a.reconcile b = .error e := by
  by_cases hname : a.name = b.name
  · obtain ⟨verdict, hverdict⟩ := exists_dominates hname
    rw [hverdict]
    exact iff_of_false nofun fun h => h.1 hname
  · rw [dominates_of_name_ne hname, reconcile_of_name_ne hname, Except.error.injEq,
      Except.error.injEq]
    exact ⟨fun h => ⟨hname, h⟩, And.right⟩

theorem counters_mismatch_iff {l r : Counter} (hname : l.name = r.name) (hl : l.context.Canonical)
    (hr : r.context.Canonical) :
    (∃ e, (counter l).reconcile (counter r) = .error e ∧ e.IsMismatch) ↔
      ¬ l.context.Compatible r.context := by
  rw [← Context.merge_mismatch_iff hl hr, reconcile_counters hname]
  cases hmerge : l.context.merge r.context with
  | ok context =>
    rw [Counter.reconcile_of_merge hname hmerge, Except.map_ok]
    exact iff_of_false nofun nofun
  | error e =>
    rw [Counter.reconcile_of_merge_error hname hmerge, Except.map_error]
    constructor
    · rintro ⟨_, herror, hmismatch⟩
      cases herror
      cases hmismatch with
      | context h => exact ⟨e, rfl, h⟩
    · rintro ⟨_, herror, h⟩
      cases herror
      exact ⟨_, rfl, .context h⟩

theorem reconcile_mismatch_iff (ha : a.Canonical) (hb : b.Canonical) (hname : a.name = b.name) :
    (∃ e, a.reconcile b = .error e ∧ e.IsMismatch) ↔ ¬ a.Compatible b := by
  cases a with
  | counter l =>
    cases b with
    | counter r =>
      rw [compatible_counters_iff]
      exact counters_mismatch_iff hname (ha l rfl) (hb r rfl)
    | tombstone t =>
      rw [reconcile_counter_tombstone hname]
      exact iff_of_false nofun fun h => h nofun
  | tombstone t =>
    cases b with
    | counter r =>
      rw [reconcile_tombstone_counter hname]
      exact iff_of_false nofun fun h => h nofun
    | tombstone r =>
      rw [reconcile_tombstones hname]
      exact iff_of_false nofun fun h => h nofun

theorem failAlike_iff (ha : a.Canonical) (hb : b.Canonical) :
    Reconcile.FailAlike CellError.IsMismatch a b ↔ (a.name = b.name → a.Compatible b) := by
  have hfails : (∃ e, Reconcile.dominates a b = .error e) ↔
      ∃ e, a.name ≠ b.name ∧ Reconcile.reconcile a b = .error e :=
    exists_congr fun _ => dominates_eq_error_iff
  unfold Reconcile.FailAlike
  rw [hfails]
  by_cases hname : a.name = b.name
  · have hnever : ¬ ∃ e, a.name ≠ b.name ∧ Reconcile.reconcile a b = .error e :=
      fun ⟨_, hne, _⟩ => hne hname
    rw [iff_false_left hnever, forall_prop_of_true hname]
    exact (not_congr (reconcile_mismatch_iff ha hb hname)).trans not_not
  · have hrefused : Reconcile.reconcile a b = .error (CellError.nameMismatch a.name b.name) :=
      reconcile_of_name_ne hname
    refine iff_of_true (iff_of_true ⟨_, hname, hrefused⟩ ⟨_, hrefused, ?_⟩)
      fun h => absurd h hname
    exact .nameMismatch ..

end Cell

/-- Comparing fails as reconciling does, but for a conflict: cells of two names are refused for one
reason by both, contexts are compared whatever they hold, and what reconciling calls a mismatch
between live versions comparing does not see. -/
theorem comparison_fails_iff {a b : Cell} {c d : Context} (ha : a.Canonical) (hb : b.Canonical)
    (hc : c.Canonical) (hd : d.Canonical) :
    ((∀ e, Reconcile.dominates a b = .error e ↔
        a.name ≠ b.name ∧ Reconcile.reconcile a b = .error e) ∧
      (Reconcile.FailAlike CellError.IsMismatch a b ↔ (a.name = b.name → a.Compatible b))) ∧
    (∀ e, Reconcile.dominates c d ≠ .error e) ∧
      (Reconcile.FailAlike ContextError.IsMismatch c d ↔ c.Compatible d) := by
  refine ⟨⟨?_, Cell.failAlike_iff ha hb⟩, ?_, Context.failAlike_iff hc hd⟩
  · exact fun e => Cell.dominates_eq_error_iff
  · exact fun e => nofun

open Mirror in
/-- A conflict is taken for agreement: five and seven at one clock cannot be reconciled, and neither
has anything to transfer to the other. -/
theorem conflict_compared :
    (¬ ∀ a b : Context, a.Canonical → b.Canonical →
      Reconcile.FailAlike ContextError.IsMismatch a b) ∧
    (¬ ∀ a b : Cell, a.Canonical → b.Canonical → Reconcile.FailAlike CellError.IsMismatch a b) ∧
    (¬ ∀ a b : Context, a.Canonical → b.Canonical → ¬ a.Compatible b → a.diff? b ≠ none) ∧
    ¬ ∀ a b : Cell, a.Canonical → b.Canonical → ¬ a.Compatible b → a.diff? b ≠ .ok none := by
  have hfive : five.Canonical := by decide +kernel
  have hseven : seven.Canonical := by decide +kernel
  have hfive' : (counterOf five).Canonical := Cell.canonical_counter_iff.mpr hfive
  have hseven' : (counterOf seven).Canonical := Cell.canonical_counter_iff.mpr hseven
  have hconflict : ¬ five.Compatible seven := by decide +kernel
  have hconflict' : ¬ (counterOf five).Compatible (counterOf seven) :=
    mt Cell.compatible_counters_iff.mp hconflict
  refine ⟨?_, ?_, ?_, ?_⟩
  · intro h
    exact hconflict ((Context.failAlike_iff hfive hseven).mp (h _ _ hfive hseven))
  · intro h
    exact hconflict' ((Cell.failAlike_iff hfive' hseven').mp (h _ _ hfive' hseven') rfl)
  · intro h
    exact h _ _ hfive hseven hconflict (by decide +kernel)
  · intro h
    exact h _ _ hfive' hseven' hconflict' (by decide +kernel)

open Mirror in
theorem comparison_fails_iff_of_five_seven :
    Reconcile.dominates (counterOf five) (.tombstone ⟨⟨[121]⟩, 0, 8⟩) =
      .error (CellError.nameMismatch ⟨[120]⟩ ⟨[121]⟩) ∧
    ¬ Reconcile.FailAlike CellError.IsMismatch (counterOf five) (counterOf seven) ∧
    Reconcile.FailAlike CellError.IsMismatch (counterOf five) delete ∧
    ¬ Reconcile.FailAlike ContextError.IsMismatch five seven ∧
    Reconcile.FailAlike ContextError.IsMismatch five five := by
  have hfive : five.Canonical := by decide +kernel
  have hseven : seven.Canonical := by decide +kernel
  have hconflict : ¬ five.Compatible seven := by decide +kernel
  have hfive' : (counterOf five).Canonical := Cell.canonical_counter_iff.mpr hfive
  have hseven' : (counterOf seven).Canonical := Cell.canonical_counter_iff.mpr hseven
  have hother : (Cell.tombstone ⟨⟨[121]⟩, 0, 8⟩).Canonical := Cell.canonical_tombstone _
  obtain ⟨⟨hname, -⟩, -, hsame⟩ := comparison_fails_iff hfive' hother hfive hfive
  obtain ⟨⟨-, hcells⟩, -, hcontexts⟩ := comparison_fails_iff hfive' hseven' hfive hseven
  obtain ⟨⟨-, hdeleted⟩, -⟩ := comparison_fails_iff hfive' (Cell.canonical_tombstone _) hfive hfive
  refine ⟨?_, ?_, ?_, ?_, ?_⟩
  · exact (hname _).mpr ⟨by decide, by decide⟩
  · intro halike
    exact hconflict (Cell.compatible_counters_iff.mp (hcells.mp halike rfl))
  · exact hdeleted.mpr fun _ => nofun
  · exact mt hcontexts.mp hconflict
  · exact hsame.mpr (by decide +kernel)

end ShardCounter
