import ShardCounter.Context.Dominance
import ShardCounter.Proofs.Context.Join
/-! Dominance decided by one walk over two ascending lists is containment: every replica of the one
side is on the other, at an equal or higher clock. -/
namespace ShardCounter

namespace Relationship

def lacks : Relationship → Bool
  | .equal | .greater => false
  | .less | .disjoint => true

@[simp] theorem lacks_equal : equal.lacks = false := rfl

@[simp] theorem lacks_greater : greater.lacks = false := rfl

@[simp] theorem lacks_less : less.lacks = true := rfl

@[simp] theorem lacks_disjoint : disjoint.lacks = true := rfl

@[simp] theorem lacks_absorb (verdict step : Relationship) :
    (verdict.absorb step).lacks = (verdict.lacks || step.lacks) := by
  cases verdict <;> cases step <;> rfl

theorem lacks_ofClocks (left right : UInt64) :
    (ofClocks left right).lacks = true ↔ left < right := by
  unfold ofClocks
  split
  · rename_i h
    simp [UInt64.lt_asymm h]
  · split <;> simp_all

end Relationship

namespace Context

def Covers (left right : List Shard) : Prop :=
  ∀ s ∈ right, ∃ t ∈ left, t.id.bytes = s.id.bytes ∧ s.clock ≤ t.clock

section Covers

variable {a b : Shard} {left right : List Shard}

theorem covers_nil (left : List Shard) : Covers left [] := fun _ h => nomatch h

theorem not_covers_cons (h : ∀ t ∈ left, t.id.bytes ≠ b.id.bytes) : ¬ Covers left (b :: right) := by
  intro hcovers
  obtain ⟨t, ht, hbytes, -⟩ := hcovers b List.mem_cons_self
  exact h t ht hbytes

theorem bytes_ne_of_lt_head (h : a.id.order b.id = .lt) (hr : Ascending (b :: right)) :
    ∀ s ∈ b :: right, a.id.bytes ≠ s.id.bytes := by
  intro s hs
  rcases List.mem_cons.mp hs with rfl | hs
  · exact ReplicaId.bytes_ne_of_order_lt h
  · exact ReplicaId.bytes_ne_of_order_lt
      (ReplicaId.order_lt_trans h (List.rel_of_pairwise_cons hr hs))

theorem covers_cons_left_iff (h : ∀ s ∈ right, a.id.bytes ≠ s.id.bytes) :
    Covers (a :: left) right ↔ Covers left right := by
  constructor
  · intro hcovers s hs
    obtain ⟨t, ht, hbytes, hclock⟩ := hcovers s hs
    rcases List.mem_cons.mp ht with rfl | ht
    · exact absurd hbytes (h s hs)
    · exact ⟨t, ht, hbytes, hclock⟩
  · intro hcovers s hs
    obtain ⟨t, ht, hts⟩ := hcovers s hs
    exact ⟨t, List.mem_cons_of_mem a ht, hts⟩

theorem covers_cons_cons_iff (hl : Ascending (a :: left)) (hr : Ascending (b :: right))
    (hbytes : a.id.bytes = b.id.bytes) :
    Covers (a :: left) (b :: right) ↔ b.clock ≤ a.clock ∧ Covers left right := by
  have ha : ∀ s ∈ right, a.id.bytes ≠ s.id.bytes := fun s hs =>
    hbytes ▸ ReplicaId.bytes_ne_of_order_lt (List.rel_of_pairwise_cons hr hs)
  constructor
  · intro hcovers
    refine ⟨?_, (covers_cons_left_iff ha).mp fun s hs => hcovers s (List.mem_cons_of_mem b hs)⟩
    obtain ⟨t, ht, hbytes', hclock⟩ := hcovers b List.mem_cons_self
    rcases List.mem_cons.mp ht with rfl | ht
    · exact hclock
    · have hne := ReplicaId.bytes_ne_of_order_lt (List.rel_of_pairwise_cons hl ht)
      exact absurd (hbytes.trans hbytes'.symm) hne
  · rintro ⟨hclock, hcovers⟩ s hs
    rcases List.mem_cons.mp hs with rfl | hs
    · exact ⟨a, List.mem_cons_self, hbytes, hclock⟩
    · exact (covers_cons_left_iff ha).mpr hcovers s hs

end Covers

theorem lacks_relate (verdict : Relationship) {left right : List Shard} (hl : Ascending left)
    (hr : Ascending right) :
    (relate verdict left right).lacks = true ↔ verdict.lacks = true ∨ ¬ Covers left right := by
  fun_induction relate verdict left right with
  | case1 verdict => simp [covers_nil]
  | case2 verdict a left => simp [covers_nil]
  | case3 verdict b right =>
    have hnot : ¬ Covers [] (b :: right) := not_covers_cons fun t ht => nomatch ht
    simp [hnot]
  | case4 => simp
  | case5 verdict a left b right _ horder ih =>
    rw [ih hl.of_cons hr, covers_cons_left_iff (bytes_ne_of_lt_head horder hr)]
    simp
  | case6 verdict a left b right _ horder ih =>
    have hnot : ¬ Covers (a :: left) (b :: right) := not_covers_cons fun t ht =>
      (bytes_ne_of_lt_head (ReplicaId.order_gt_iff.mp horder) hl t ht).symm
    rw [ih hl hr.of_cons]
    simp [hnot]
  | case7 verdict a left b right _ horder ih =>
    rw [ih hl.of_cons hr.of_cons, Relationship.lacks_absorb,
      covers_cons_cons_iff hl hr (ReplicaId.order_eq_iff.mp horder), Bool.or_eq_true,
      Relationship.lacks_ofClocks, not_and_or, UInt64.not_le, or_assoc]

theorem dominates_eq_not_lacks (a b : Context) : a.dominates b = !(a.relationship b).lacks := by
  unfold dominates
  cases a.relationship b <;> rfl

theorem dominates_iff {a b : Context} (ha : a.Canonical) (hb : b.Canonical) :
    a.dominates b = true ↔
      ∀ s ∈ b.shards, ∃ t ∈ a.shards, t.id.bytes = s.id.bytes ∧ s.clock ≤ t.clock := by
  have h := lacks_relate .equal ha.ascending hb.ascending
  rw [dominates_eq_not_lacks, Bool.not_eq_true', ← Bool.not_eq_true]
  unfold relationship
  rw [h]
  simp [Covers]

theorem dominates_of_le {a b : Context} (ha : a.Canonical) (hb : b.Canonical) (h : b ≤ a) :
    a.dominates b = true := by
  rw [dominates_iff ha hb]
  intro s hs
  obtain ⟨t, ht, hbytes, hst⟩ := h s hs
  refine ⟨t, ht, hbytes.symm, ?_⟩
  rcases hst with hlt | ⟨heq, -⟩
  · exact UInt64.le_of_lt hlt
  · exact heq ▸ UInt64.le_refl _

theorem dominates_refl {a : Context} (ha : a.Canonical) : a.dominates a = true :=
  dominates_of_le ha ha le_rfl

theorem dominates_trans {a b c : Context} (ha : a.Canonical) (hb : b.Canonical) (hc : c.Canonical)
    (hab : a.dominates b = true) (hbc : b.dominates c = true) : a.dominates c = true := by
  rw [dominates_iff ha hc]
  intro s hs
  obtain ⟨t, ht, hts, hclock⟩ := (dominates_iff hb hc).mp hbc s hs
  obtain ⟨u, hu, hut, hclock'⟩ := (dominates_iff ha hb).mp hab t ht
  exact ⟨u, hu, hut.trans hts, UInt64.le_trans hclock hclock'⟩

theorem dominates_merge {a b d m : Context} (ha : a.Canonical) (hb : b.Canonical)
    (hd : d.Canonical) (h : a.merge b = .ok m) (hda : d.dominates a = true)
    (hdb : d.dominates b = true) : d.dominates m = true := by
  rw [dominates_iff hd (canonical_merge ha hb h)]
  intro s hs
  rcases (isJoin_merge ha hb h).mem s hs with hs | hs
  · exact (dominates_iff hd ha).mp hda s hs
  · exact (dominates_iff hd hb).mp hdb s hs

end Context
end ShardCounter
