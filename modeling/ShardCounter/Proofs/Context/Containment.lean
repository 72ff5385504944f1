import ShardCounter.Proofs.Context.Dominance
import ShardCounter.Reconcile
/-! The verdict on two contexts says for either side whether it contains the other: whether it holds
every replica of the other at an equal or higher clock. The walk is the same from both sides, so one
account of what the left side lacks, read from either end, fixes the verdict. -/
namespace ShardCounter

namespace Relationship

def mirror : Relationship → Relationship
  | .equal => .equal
  | .greater => .less
  | .less => .greater
  | .disjoint => .disjoint

@[simp] theorem mirror_absorb (verdict step : Relationship) :
    (verdict.absorb step).mirror = verdict.mirror.absorb step.mirror := by
  cases verdict <;> cases step <;> rfl

@[simp] theorem mirror_ofClocks (left right : UInt64) :
    (ofClocks left right).mirror = ofClocks right left := by
  unfold ofClocks
  by_cases hlt : right < left
  · rw [if_pos hlt, if_neg (UInt64.lt_asymm hlt), if_pos hlt]
    rfl
  · by_cases hgt : left < right
    · rw [if_neg hlt, if_pos hgt, if_pos hgt]
      rfl
    · rw [if_neg hlt, if_neg hgt, if_neg hgt, if_neg hlt]
      rfl

@[simp] theorem absorb_disjoint (step : Relationship) : disjoint.absorb step = disjoint := by
  cases step <;> rfl

theorem eq_iff_lacks {verdict verdict' : Relationship} :
    verdict = verdict' ↔
      verdict.lacks = verdict'.lacks ∧ verdict.mirror.lacks = verdict'.mirror.lacks := by
  cases verdict <;> cases verdict' <;> decide

/-- The verdict as a comparison; sides that lack something of each other are not comparable. -/
def ordering? : Relationship → Option Ordering
  | .equal => some .eq
  | .greater => some .gt
  | .less => some .lt
  | .disjoint => none

end Relationship

namespace Context

variable {a b c : Context}

theorem relate_disjoint (left right : List Shard) : relate .disjoint left right = .disjoint := by
  cases left <;> cases right <;> simp [relate]

theorem relate_cons_cons (verdict : Relationship) (a : Shard) (left : List Shard) (b : Shard)
    (right : List Shard) :
    relate verdict (a :: left) (b :: right) =
      match a.id.order b.id with
      | .lt => relate (verdict.absorb .greater) left (b :: right)
      | .gt => relate (verdict.absorb .less) (a :: left) right
      | .eq => relate (verdict.absorb (.ofClocks a.clock b.clock)) left right := by
  rw [relate]
  split
  · rename_i hdisjoint
    subst hdisjoint
    simp only [Relationship.absorb_disjoint, relate_disjoint]
    split <;> rfl
  · rfl

theorem mirror_relate (verdict : Relationship) (left right : List Shard) :
    (relate verdict left right).mirror = relate verdict.mirror right left := by
  fun_induction relate verdict left right with
  | case1 verdict => rw [relate]
  | case2 verdict a left =>
    rw [relate, Relationship.mirror_absorb]
    rfl
  | case3 verdict b right =>
    rw [relate, Relationship.mirror_absorb]
    rfl
  | case4 a left b right => exact (relate_disjoint _ _).symm
  | case5 verdict a left b right _ horder ih =>
    rw [ih, Relationship.mirror_absorb, relate_cons_cons, ReplicaId.order_gt_iff.mpr horder]
    rfl
  | case6 verdict a left b right _ horder ih =>
    rw [ih, Relationship.mirror_absorb, relate_cons_cons, ReplicaId.order_gt_iff.mp horder]
    rfl
  | case7 verdict a left b right _ horder ih =>
    have hbytes := ReplicaId.order_eq_iff.mp horder
    rw [ih, Relationship.mirror_absorb, Relationship.mirror_ofClocks, relate_cons_cons,
      ReplicaId.order_eq_iff.mpr hbytes.symm]

theorem relationship_swap (a b : Context) : b.relationship a = (a.relationship b).mirror :=
  (mirror_relate .equal a.shards.toList b.shards.toList).symm

/-- Every replica of `b` is in `a`, at an equal or higher clock, whatever the counts and marks. -/
def Contains (a b : Context) : Prop :=
  ∀ s ∈ b.shards, ∃ t ∈ a.shards, t.id.bytes = s.id.bytes ∧ s.clock ≤ t.clock

theorem not_contains_iff (ha : a.Canonical) (hb : b.Canonical) :
    ¬ a.Contains b ↔ (a.relationship b).lacks = true := by
  rw [Contains, ← dominates_iff ha hb, dominates_eq_not_lacks]
  simp

theorem relationship_eq_iff (ha : a.Canonical) (hb : b.Canonical) (verdict : Relationship) :
    a.relationship b = verdict ↔
      (¬ a.Contains b ↔ verdict.lacks = true) ∧ (¬ b.Contains a ↔ verdict.mirror.lacks = true) := by
  rw [not_contains_iff ha hb, not_contains_iff hb ha, relationship_swap a b,
    Relationship.eq_iff_lacks]
  exact and_congr Bool.eq_iff_iff Bool.eq_iff_iff

theorem partialCompare_eq (a b : Context) :
    Reconcile.partialCompare a b = .ok (a.relationship b).ordering? := by
  have hforward : Reconcile.dominates a b = .ok (!(a.relationship b).lacks) :=
    congrArg Except.ok (dominates_eq_not_lacks a b)
  have hbackward : Reconcile.dominates b a = .ok (!(a.relationship b).mirror.lacks) := by
    rw [← relationship_swap]
    exact congrArg Except.ok (dominates_eq_not_lacks b a)
  unfold Reconcile.partialCompare
  rw [hforward, hbackward]
  cases a.relationship b <;> rfl

instance (a b : Context) : Decidable (a.Contains b) :=
  inferInstanceAs (Decidable (∀ s ∈ b.shards, ∃ t ∈ a.shards, _))

/-- The verdict tells which sides contain the other. So dominance is containment, a preorder; from the
other side the verdict is the mirror image; and comparing goes by the verdict. -/
theorem relationship_tells_containment (ha : a.Canonical) (hb : b.Canonical) (hc : c.Canonical) :
    ((a.relationship b = .equal ↔ a.Contains b ∧ b.Contains a) ∧
      (a.relationship b = .greater ↔ a.Contains b ∧ ¬ b.Contains a) ∧
      (a.relationship b = .less ↔ ¬ a.Contains b ∧ b.Contains a) ∧
      (a.relationship b = .disjoint ↔ ¬ a.Contains b ∧ ¬ b.Contains a)) ∧
    (a.dominates b = true ↔ a.Contains b) ∧
    a.dominates a = true ∧
    (a.dominates b = true → b.dominates c = true → a.dominates c = true) ∧
    b.relationship a = (a.relationship b).mirror ∧
    Reconcile.partialCompare a b = .ok (a.relationship b).ordering? := by
  refine ⟨⟨?_, ?_, ?_, ?_⟩, dominates_iff ha hb, dominates_refl ha, dominates_trans ha hb hc,
    relationship_swap a b, partialCompare_eq a b⟩
  all_goals
    rw [relationship_eq_iff ha hb]
    simp [Relationship.mirror]

namespace Containment

def stale : Context := .ofSorted #[⟨.pending (Bytes.toVector 16 [1]), 1, 5⟩]

def fresh : Context :=
  .ofSorted #[⟨.stable (Bytes.toVector 16 [1]), 2, -3⟩, ⟨.stable (Bytes.toVector 16 [2]), 1, 7⟩]

def aside : Context := .ofSorted #[⟨.pending (Bytes.toVector 16 [2]), 4, 7⟩]

end Containment

open Containment in
theorem relationship_tells_containment_of_stale :
    fresh.relationship stale = .greater ∧ stale.relationship fresh = .less ∧
    fresh.relationship aside = .disjoint ∧ aside.relationship fresh = .disjoint ∧
    stale.relationship stale.clearPending = .equal ∧
    Reconcile.partialCompare fresh aside = .ok none ∧
    fresh.dominates stale.clearPending = true := by
  have hstale : stale.Canonical := by decide +kernel
  have hcleared : stale.clearPending.Canonical := by decide +kernel
  have hfresh : fresh.Canonical := by decide +kernel
  have haside : aside.Canonical := by decide +kernel
  obtain ⟨⟨-, hgreater, -, -⟩, hdominates, -, htrans, hmirror, -⟩ :=
    relationship_tells_containment hfresh hstale hcleared
  obtain ⟨⟨-, -, -, hdisjoint⟩, -, -, -, hmirror', hcompare⟩ :=
    relationship_tells_containment hfresh haside hstale
  obtain ⟨⟨hequal, -⟩, hcleared', -⟩ := relationship_tells_containment hstale hcleared hstale
  have hverdict := hgreater.mpr (by decide +kernel)
  have hverdict' := hdisjoint.mpr (by decide +kernel)
  refine ⟨hverdict, ?_, hverdict', ?_, hequal.mpr (by decide +kernel), ?_, ?_⟩
  · rw [hmirror, hverdict]
    rfl
  · rw [hmirror', hverdict']
    rfl
  · rw [hcompare, hverdict']
    rfl
  · exact htrans (hdominates.mpr (by decide +kernel)) (hcleared'.mpr (by decide +kernel))

end Context
end ShardCounter
