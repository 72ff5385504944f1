import ShardCounter.Proofs.Cell.Associativity
import ShardCounter.Proofs.Cell.Dominance
import ShardCounter.Proofs.Context.Dominance
/-! Dominance as an order. Every version dominates itself, and the two sides of a comparison see one
order from either end. Through a third version dominance carries over too, except through a delete
between two writes: a counter that remembers the delete need not carry the write that the delete
shadows. -/
namespace ShardCounter

namespace Reconcile

variable {α ε : Type} [Reconcile α ε] {a b : α} {forward backward : Bool}

theorem partialCompare_swap (hforward : dominates a b = .ok forward)
    (hbackward : dominates b a = .ok backward) :
    ∃ order, partialCompare a b = .ok order ∧
      partialCompare b a = .ok (order.map Ordering.swap) := by
  unfold partialCompare
  rw [hforward, hbackward]
  cases forward <;> cases backward <;> exact ⟨_, rfl, rfl⟩

end Reconcile

namespace Cell

variable {a b c : Cell}

/-- The one on the left remembers a delete which shadows the one on the right, and does not carry all
that this one does. -/
def Forgets : Cell → Cell → Cell → Prop
  | .counter x, .tombstone _, .counter y =>
    ¬ (y.lastDelete ≤ x.lastDelete ∧ x.context.dominates y.context = true)
  | _, _, _ => False

theorem dominates_refl (ha : a.Canonical) : Dominates a a := by
  cases a with
  | counter c =>
    exact .counters c c rfl (Int64.le_refl _) (Int64.le_refl _) (Context.dominates_refl (ha c rfl))
  | tombstone t => exact .tombstones t t rfl (.refl t)

theorem dominates_trans_iff (ha : a.Canonical) (hb : b.Canonical) (hc : c.Canonical)
    (hab : Dominates a b) (hbc : Dominates b c) : Dominates a c ↔ ¬ Forgets a b c := by
  have hname : a.name = c.name := (name_eq_of_dominates hab).trans (name_eq_of_dominates hbc)
  cases hab with
  | counters x y _ hwritten hdelete hcontext =>
    cases hbc with
    | counters _ z _ hwritten' hdelete' hcontext' =>
      have htrans := Context.dominates_trans (ha x rfl) (hb y rfl) (hc z rfl) hcontext hcontext'
      exact iff_of_true (.counters x z hname (Int64.le_trans hwritten' hwritten)
        (Int64.le_trans hdelete' hdelete) htrans) not_false
    | remembers _ t _ hwritten' hdelete' =>
      exact iff_of_true (.remembers x t hname (Int64.le_trans hwritten' hwritten)
        (Int64.le_trans hdelete' hdelete)) not_false
  | remembers x s _ hwritten hdelete =>
    cases hbc with
    | shadows _ y _ hlt =>
      -- The write of `y` is before the delete, but its shards and its last delete may be anything.
      have hwritten' := Int64.le_of_lt (Int64.lt_of_lt_of_le hlt hwritten)
      unfold Forgets
      rw [not_not]
      constructor
      · intro h
        cases h with
        | counters _ _ _ _ hdelete hcontext => exact ⟨hdelete, hcontext⟩
      · rintro ⟨hdelete, hcontext⟩
        exact .counters x y hname hwritten' hdelete hcontext
    | tombstones _ t _ hle =>
      have hat := hle.deletedAt_le
      exact iff_of_true (.remembers x t hname (Int64.le_trans hat hwritten)
        (Int64.le_trans hat hdelete)) not_false
  | shadows s x _ hlt =>
    cases hbc with
    | counters _ y _ hwritten =>
      exact iff_of_true (.shadows s y hname (Int64.lt_of_le_of_lt hwritten hlt)) not_false
    | remembers _ t _ hwritten =>
      exact iff_of_true (.tombstones s t hname (.inl (Int64.lt_of_le_of_lt hwritten hlt))) not_false
  | tombstones s t _ hle =>
    cases hbc with
    | shadows _ x _ hlt =>
      exact iff_of_true (.shadows s x hname (Int64.lt_of_lt_of_le hlt hle.deletedAt_le)) not_false
    | tombstones _ u _ hle' => exact iff_of_true (.tombstones s u hname (hle'.trans hle)) not_false

/-- Dominance is an order but for what a counter forgets: it is reflexive, it carries over from version
to version unless a delete comes between two writes of which the later does not carry the earlier,
and it is seen alike from both sides. -/
theorem dominance_order (ha : a.Canonical) (hb : b.Canonical) (hc : c.Canonical) :
    Reconcile.dominates a a = .ok true ∧
    (Reconcile.dominates a b = .ok true → Reconcile.dominates b c = .ok true →
      (Reconcile.dominates a c = .ok true ↔ ¬ Forgets a b c)) ∧
    (a.name = b.name → ∃ order, Reconcile.partialCompare a b = .ok order ∧
      Reconcile.partialCompare b a = .ok (order.map Ordering.swap)) := by
  refine ⟨?_, ?_, ?_⟩
  · exact dominates_iff.mpr (dominates_refl ha)
  · intro hab hbc
    exact dominates_iff.trans
      (dominates_trans_iff ha hb hc (dominates_iff.mp hab) (dominates_iff.mp hbc))
  · intro hname
    obtain ⟨forward, hforward⟩ := exists_dominates hname
    obtain ⟨backward, hbackward⟩ := exists_dominates hname.symm
    exact Reconcile.partialCompare_swap hforward hbackward

open Bracketing in
/-- Dominance is not transitive: between the two writes stands the delete that one of them survives. -/
theorem dominance_not_transitive :
    ¬ ∀ a b c : Cell, a.Canonical → b.Canonical → c.Canonical → a.name = b.name → b.name = c.name →
      Reconcile.dominates a b = .ok true → Reconcile.dominates b c = .ok true →
      Reconcile.dominates a c = .ok true := by
  intro h
  have hdominates := h (.counter (late.survive 2)) (.tombstone delete) (.counter early)
    (by decide +kernel) (by decide +kernel) (by decide +kernel) rfl rfl (by decide +kernel)
    (by decide +kernel)
  exact absurd hdominates (by decide +kernel)

open Bracketing in
theorem dominance_order_of_delete_between :
    Reconcile.dominates (counter late) (counter late) = .ok true ∧
    Reconcile.dominates (counter ((early.join late both).survive 2)) (counter early) = .ok true ∧
    Reconcile.dominates (counter (late.survive 2)) (counter early) ≠ .ok true ∧
    ∃ order, Reconcile.partialCompare (counter (late.survive 2)) (tombstone delete) = .ok order ∧
      Reconcile.partialCompare (tombstone delete) (counter (late.survive 2)) =
        .ok (order.map Ordering.swap) := by
  have hearly : (counter early).Canonical := by decide +kernel
  have hlate : (counter (late.survive 2)).Canonical := by decide +kernel
  have hboth : (counter ((early.join late both).survive 2)).Canonical := by decide +kernel
  have hshadowed : Reconcile.dominates (tombstone delete) (counter early) = .ok true := by
    decide +kernel
  have hdelete : (tombstone delete).Canonical := canonical_tombstone delete
  obtain ⟨hrefl, -, -⟩ :=
    dominance_order (show (counter late).Canonical by decide +kernel) hdelete hearly
  obtain ⟨-, hcarried, -⟩ := dominance_order hboth hdelete hearly
  obtain ⟨-, hforgotten, horder⟩ := dominance_order hlate hdelete hearly
  refine ⟨hrefl, ?_, ?_, horder rfl⟩
  · -- The survivor carries the shadowed write.
    apply (hcarried (by decide +kernel) hshadowed).mpr
    exact fun hforgets => hforgets (by decide +kernel)
  · intro hdominates
    have hforgets := (hforgotten (by decide +kernel) hshadowed).mp hdominates
    exact hforgets (by unfold Forgets; decide +kernel)

end Cell
end ShardCounter
