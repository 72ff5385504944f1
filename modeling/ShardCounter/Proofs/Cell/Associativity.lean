import ShardCounter.Proofs.Cell.Reconcile
import ShardCounter.Proofs.Context.Join
/-! Where the bracketing of three cells matters. A delete drops the shards of every write it shadows,
and a counter that survives it remembers no more than its time. So a write shadowed by a delete that
a later write survives is kept if the two writes meet first, and is lost if the delete comes between
them. This is the only way in which two bracketings can differ. -/
namespace ShardCounter

namespace Counter

/-- `x` is shadowed by a delete that `y` survives, and `y` does not carry all that `x` does. -/
structure LostBetween (x : Counter) (t : Tombstone) (y : Counter) : Prop where
  shadowed : x.writtenAt < t.deletedAt
  survived : t.deletedAt ≤ y.writtenAt
  not_carried : ¬ (x.context ≤ y.context ∧ x.lastDelete ≤ max y.lastDelete t.deletedAt)

variable {x y : Counter} {t : Tombstone} {m : Context}

theorem not_lostBetween_of_le (h : t.deletedAt ≤ x.writtenAt) : ¬ x.LostBetween t y :=
  fun hlost => absurd hlost.shadowed (Int64.not_lt.mpr h)

theorem not_lostBetween_of_lt (h : y.writtenAt < t.deletedAt) : ¬ x.LostBetween t y :=
  fun hlost => absurd hlost.survived (Int64.not_le.mpr h)

theorem not_lostBetween_iff (hx : x.writtenAt < t.deletedAt) (hy : t.deletedAt ≤ y.writtenAt) :
    ¬ x.LostBetween t y ↔
      x.context ≤ y.context ∧ x.lastDelete ≤ max y.lastDelete t.deletedAt := by
  constructor
  · intro h
    by_contra hnot
    exact h ⟨hx, hy, hnot⟩
  · exact fun h hlost => hlost.not_carried h

theorem survive_join (x y : Counter) (m : Context) (mark : Int64) :
    (x.join y m).survive mark = x.join (y.survive mark) m := by
  simp only [join, survive, max_assoc]

theorem join_survive (x y : Counter) (m : Context) (mark : Int64) :
    (x.survive mark).join y m = (x.join y m).survive mark := by
  simp only [join, survive, max_right_comm]

theorem survive_survive (x : Counter) (mark later : Int64) :
    (x.survive mark).survive later = x.survive (max mark later) := by
  simp only [survive, max_assoc]

theorem join_survive_eq_left_iff (hx : x.context.Canonical) (hy : y.context.Canonical)
    (hm : x.context.merge y.context = .ok m) (hwritten : y.writtenAt ≤ x.writtenAt) (mark : Int64) :
    (x.join y m).survive mark = x.survive mark ↔
      y.context ≤ x.context ∧ y.lastDelete ≤ max x.lastDelete mark := by
  rw [← Context.merge_eq_left_iff hx hy hm, ← max_eq_left_iff, max_right_comm]
  simp only [join, survive, mk.injEq, max_eq_left hwritten, true_and]

theorem join_survive_eq_right_iff (hx : x.context.Canonical) (hy : y.context.Canonical)
    (hname : x.name = y.name) (hm : x.context.merge y.context = .ok m)
    (hwritten : x.writtenAt ≤ y.writtenAt) (mark : Int64) :
    (x.join y m).survive mark = y.survive mark ↔
      x.context ≤ y.context ∧ x.lastDelete ≤ max y.lastDelete mark := by
  rw [← Context.merge_eq_right_iff hx hy hm, ← max_eq_left_iff, max_right_comm,
    max_comm y.lastDelete x.lastDelete]
  simp only [join, survive, mk.injEq, max_eq_right hwritten, hname, true_and]

end Counter

theorem Tombstone.later_assoc {r s t : Tombstone} (hrs : r.name = s.name) (hst : s.name = t.name) :
    (r.later s).later t = r.later (s.later t) := by
  rcases later_cases r s with ⟨hl, hsr⟩ | ⟨hl, hrs'⟩
  · rcases later_cases s t with ⟨hr, hts⟩ | ⟨hr, -⟩
    · rw [hl, hr, hl]
      rcases later_cases r t with ⟨h, -⟩ | ⟨h, hrt⟩
      · exact h
      · rw [h]
        exact (hts.trans hsr).antisymm (hst.symm.trans hrs.symm) hrt
    · rw [hl, hr]
  · rcases later_cases s t with ⟨hr, -⟩ | ⟨hr, hst'⟩
    · rw [hl, hr, hl]
    · rw [hl, hr]
      rcases later_cases r t with ⟨h, htr⟩ | ⟨h, -⟩
      · rw [h]
        exact htr.antisymm (hst.symm.trans hrs.symm) (hrs'.trans hst')
      · exact h.symm

theorem Tombstone.later_eq_right_of_lt {s t : Tombstone} (h : s.deletedAt < t.deletedAt) :
    s.later t = t := by
  rcases later_cases s t with ⟨-, hle⟩ | ⟨h', -⟩
  · exact absurd h (Int64.not_lt.mpr hle.deletedAt_le)
  · exact h'

theorem Tombstone.later_eq_left_of_lt {s t : Tombstone} (h : t.deletedAt < s.deletedAt) :
    s.later t = s := by
  rcases later_cases s t with ⟨h', -⟩ | ⟨-, hle⟩
  · exact h'
  · exact absurd h (Int64.not_lt.mpr hle.deletedAt_le)

namespace Cell

/-- The bracketing decides whether some write counts. With the counters on the outside either of
them can be lost; else it is the one in the middle, next to the delete in one bracketing only. -/
def LosesWrite : Cell → Cell → Cell → Prop
  | .counter x, .counter y, .tombstone t => y.LostBetween t x
  | .tombstone t, .counter x, .counter y => x.LostBetween t y
  | .counter x, .tombstone t, .counter y => x.LostBetween t y ∨ y.LostBetween t x
  | _, _, _ => False

variable {a b c ab bc left right joined : Cell} {x y : Counter} {s t : Tombstone}

theorem eq_applyTombstone (h : Reconciles (.counter x) (.tombstone t) joined) :
    joined = x.applyTombstone t := by
  cases h with
  | shadowedLeft _ _ hlt => exact (Counter.applyTombstone_of_lt hlt).symm
  | survivesLeft _ _ hle => exact (Counter.applyTombstone_of_le hle).symm

theorem eq_applyTombstone' (h : Reconciles (.tombstone t) (.counter x) joined) :
    joined = x.applyTombstone t := by
  cases h with
  | shadowedRight _ _ hlt => exact (Counter.applyTombstone_of_lt hlt).symm
  | survivesRight _ _ hle => exact (Counter.applyTombstone_of_le hle).symm

theorem applyTombstone_survive {u : Tombstone} (hs : s.deletedAt ≤ x.writtenAt)
    (hu : u.deletedAt = max s.deletedAt t.deletedAt) (hlt : s.deletedAt < t.deletedAt → u = t) :
    (x.survive s.deletedAt).applyTombstone t = x.applyTombstone u := by
  rcases Int64.lt_or_le x.writtenAt t.deletedAt with ht | ht
  · rw [hlt (Int64.lt_of_le_of_lt hs ht), Counter.applyTombstone_of_lt ht]
    exact Counter.applyTombstone_of_lt (c := x.survive s.deletedAt) ht
  · have hmax : u.deletedAt ≤ x.writtenAt := hu ▸ max_le hs ht
    rw [Counter.applyTombstone_of_le hmax, hu, ← Counter.survive_survive]
    exact Counter.applyTombstone_of_le (c := x.survive s.deletedAt) ht

theorem eq_applyTombstone_later (h : Reconciles (x.applyTombstone s) (.tombstone t) joined) :
    joined = x.applyTombstone (s.later t) := by
  rcases Int64.lt_or_le x.writtenAt s.deletedAt with hs | hs
  · rw [Counter.applyTombstone_of_lt hs] at h
    cases h
    have hle := (Tombstone.left_notAfter_later s t).deletedAt_le
    exact (Counter.applyTombstone_of_lt (Int64.lt_of_lt_of_le hs hle)).symm
  · rw [Counter.applyTombstone_of_le hs] at h
    rw [eq_applyTombstone h]
    exact applyTombstone_survive hs (Tombstone.deletedAt_later s t) Tombstone.later_eq_right_of_lt

theorem eq_applyTombstone_later' (h : Reconciles (.tombstone s) (x.applyTombstone t) joined) :
    joined = x.applyTombstone (s.later t) := by
  rcases Int64.lt_or_le x.writtenAt t.deletedAt with ht | ht
  · rw [Counter.applyTombstone_of_lt ht] at h
    cases h
    have hle := (Tombstone.right_notAfter_later s t).deletedAt_le
    exact (Counter.applyTombstone_of_lt (Int64.lt_of_lt_of_le ht hle)).symm
  · rw [Counter.applyTombstone_of_le ht] at h
    rw [eq_applyTombstone' h]
    have hmax := (Tombstone.deletedAt_later s t).trans (max_comm _ _)
    exact applyTombstone_survive ht hmax Tombstone.later_eq_left_of_lt

theorem applyTombstone_right (h : Reconciles (.counter x) (y.applyTombstone t) joined) :
    y.writtenAt < t.deletedAt ∧ joined = x.applyTombstone t ∨
      t.deletedAt ≤ y.writtenAt ∧ ∃ m, x.context.merge y.context = .ok m ∧
        joined = .counter ((x.join y m).survive t.deletedAt) := by
  rcases Int64.lt_or_le y.writtenAt t.deletedAt with ht | ht
  · rw [Counter.applyTombstone_of_lt ht] at h
    exact .inl ⟨ht, eq_applyTombstone h⟩
  · rw [Counter.applyTombstone_of_le ht] at h
    obtain ⟨_, _, m, hm⟩ := h
    exact .inr ⟨ht, m, hm, congrArg Cell.counter (Counter.survive_join x y m _).symm⟩

theorem applyTombstone_left (h : Reconciles (x.applyTombstone t) (.counter y) joined) :
    x.writtenAt < t.deletedAt ∧ joined = y.applyTombstone t ∨
      t.deletedAt ≤ x.writtenAt ∧ ∃ m, x.context.merge y.context = .ok m ∧
        joined = .counter ((x.join y m).survive t.deletedAt) := by
  rcases Int64.lt_or_le x.writtenAt t.deletedAt with ht | ht
  · rw [Counter.applyTombstone_of_lt ht] at h
    exact .inl ⟨ht, eq_applyTombstone' h⟩
  · rw [Counter.applyTombstone_of_le ht] at h
    obtain ⟨_, _, m, hm⟩ := h
    exact .inr ⟨ht, m, hm, congrArg Cell.counter (Counter.join_survive x y m _)⟩

section writes

variable {m : Context}

theorem applyTombstone_join_of_lt (hx : x.writtenAt < t.deletedAt) (hy : y.writtenAt < t.deletedAt) :
    (x.join y m).applyTombstone t = .tombstone t := by
  apply Counter.applyTombstone_of_lt
  rcases max_cases x.writtenAt y.writtenAt with ⟨h, -⟩ | ⟨h, -⟩ <;> rwa [Counter.join, h]

theorem applyTombstone_join_of_le
    (h : t.deletedAt ≤ x.writtenAt ∨ t.deletedAt ≤ y.writtenAt) :
    (x.join y m).applyTombstone t = .counter ((x.join y m).survive t.deletedAt) := by
  apply Counter.applyTombstone_of_le
  rcases h with h | h
  · exact Int64.le_trans h (le_max_left x.writtenAt y.writtenAt)
  · exact Int64.le_trans h (le_max_right x.writtenAt y.writtenAt)

theorem assoc_writes_delete (hx : x.context.Canonical) (hy : y.context.Canonical)
    (hm : x.context.merge y.context = .ok m)
    (hright : Reconciles (.counter x) (y.applyTombstone t) right) :
    (x.join y m).applyTombstone t = right ↔ ¬ y.LostBetween t x := by
  rcases applyTombstone_right hright with ⟨ht, rfl⟩ | ⟨ht, m', hm', rfl⟩
  · rcases Int64.lt_or_le x.writtenAt t.deletedAt with ht' | ht'
    · rw [applyTombstone_join_of_lt ht' ht, Counter.applyTombstone_of_lt ht']
      exact iff_of_true rfl (Counter.not_lostBetween_of_lt ht')
    · have hlt := Int64.le_of_lt (Int64.lt_of_lt_of_le ht ht')
      rw [applyTombstone_join_of_le (.inl ht'), Counter.applyTombstone_of_le ht', counter.injEq,
        Counter.join_survive_eq_left_iff hx hy hm hlt, Counter.not_lostBetween_iff ht ht']
  · rw [applyTombstone_join_of_le (.inr ht), Except.ok.inj (hm.symm.trans hm')]
    exact iff_of_true rfl (Counter.not_lostBetween_of_le ht)

theorem assoc_delete_writes (hname : x.name = y.name) (hx : x.context.Canonical)
    (hy : y.context.Canonical) (hm : x.context.merge y.context = .ok m)
    (hleft : Reconciles (x.applyTombstone t) (.counter y) left) :
    left = (x.join y m).applyTombstone t ↔ ¬ x.LostBetween t y := by
  rcases applyTombstone_left hleft with ⟨ht, rfl⟩ | ⟨ht, m', hm', rfl⟩
  · rcases Int64.lt_or_le y.writtenAt t.deletedAt with ht' | ht'
    · rw [applyTombstone_join_of_lt ht ht', Counter.applyTombstone_of_lt ht']
      exact iff_of_true rfl (Counter.not_lostBetween_of_lt ht')
    · have hlt := Int64.le_of_lt (Int64.lt_of_lt_of_le ht ht')
      rw [applyTombstone_join_of_le (.inr ht'), Counter.applyTombstone_of_le ht', counter.injEq,
        eq_comm, Counter.join_survive_eq_right_iff hx hy hname hm hlt,
        Counter.not_lostBetween_iff ht ht']
  · rw [applyTombstone_join_of_le (.inl ht), Except.ok.inj (hm.symm.trans hm')]
    exact iff_of_true rfl (Counter.not_lostBetween_of_le ht)

theorem assoc_delete_between (hname : x.name = y.name) (hx : x.context.Canonical)
    (hy : y.context.Canonical) (hleft : Reconciles (x.applyTombstone t) (.counter y) left)
    (hright : Reconciles (.counter x) (y.applyTombstone t) right) :
    left = right ↔ ¬ (x.LostBetween t y ∨ y.LostBetween t x) := by
  rw [not_or]
  rcases applyTombstone_left hleft with ⟨ht, rfl⟩ | ⟨ht, m, hm, rfl⟩
  · rcases applyTombstone_right hright with ⟨ht', rfl⟩ | ⟨ht', m, hm, rfl⟩
    · rw [Counter.applyTombstone_of_lt ht, Counter.applyTombstone_of_lt ht']
      exact iff_of_true rfl
        ⟨Counter.not_lostBetween_of_lt ht', Counter.not_lostBetween_of_lt ht⟩
    · have hlt := Int64.le_of_lt (Int64.lt_of_lt_of_le ht ht')
      rw [Counter.applyTombstone_of_le ht', counter.injEq, eq_comm,
        Counter.join_survive_eq_right_iff hx hy hname hm hlt, Counter.not_lostBetween_iff ht ht']
      exact (and_iff_left (Counter.not_lostBetween_of_le ht')).symm
  · rcases applyTombstone_right hright with ⟨ht', rfl⟩ | ⟨ht', m', hm', rfl⟩
    · have hlt := Int64.le_of_lt (Int64.lt_of_lt_of_le ht' ht)
      rw [Counter.applyTombstone_of_le ht, counter.injEq,
        Counter.join_survive_eq_left_iff hx hy hm hlt, Counter.not_lostBetween_iff ht' ht]
      exact (and_iff_right (Counter.not_lostBetween_of_le ht)).symm
    · rw [Except.ok.inj (hm.symm.trans hm')]
      exact iff_of_true rfl
        ⟨Counter.not_lostBetween_of_le ht, Counter.not_lostBetween_of_le ht'⟩

end writes

/-- Two bracketings of three cells agree exactly if no write is lost between a delete and a later
write. In particular they agree for writes alone, and for deletes with at most one write. -/
theorem reconcile_assoc_iff (hcanonical : ∀ k, .counter k ∈ [a, b, c] → k.context.Canonical)
    (hab : a.reconcile b = .ok ab) (hleft : ab.reconcile c = .ok left)
    (hbc : b.reconcile c = .ok bc) (hright : a.reconcile bc = .ok right) :
    left = right ↔ ¬ LosesWrite a b c := by
  have hname := name_eq_of_reconcile hab
  have hname' := name_eq_of_reconcile hbc
  replace hab := reconciles_of_reconcile hab
  replace hleft := reconciles_of_reconcile hleft
  replace hbc := reconciles_of_reconcile hbc
  replace hright := reconciles_of_reconcile hright
  cases a with
  | counter x =>
    have hx := hcanonical x (by simp)
    cases b with
    | counter y =>
      have hy := hcanonical y (by simp)
      obtain ⟨_, _, m, hm⟩ := hab
      cases c with
      | counter z =>
        have hz := hcanonical z (by simp)
        obtain ⟨_, _, left, hleft⟩ := hleft
        obtain ⟨_, _, m', hm'⟩ := hbc
        obtain ⟨_, _, right, hright⟩ := hright
        have hcontext : left = right := Context.merge_assoc hx hy hz hm hleft hm' hright
        refine iff_of_true ?_ not_false
        simp only [Counter.join, hcontext, max_assoc]
      | tombstone t =>
        rw [eq_applyTombstone hleft]
        rw [eq_applyTombstone hbc] at hright
        exact assoc_writes_delete hx hy hm hright
    | tombstone s =>
      rw [eq_applyTombstone hab] at hleft
      cases c with
      | counter y =>
        rw [eq_applyTombstone' hbc] at hright
        exact assoc_delete_between (hname.trans hname') hx (hcanonical y (by simp)) hleft hright
      | tombstone t =>
        cases hbc
        rw [eq_applyTombstone_later hleft, eq_applyTombstone hright]
        exact iff_of_true rfl not_false
  | tombstone s =>
    cases b with
    | counter x =>
      have hx := hcanonical x (by simp)
      rw [eq_applyTombstone' hab] at hleft
      cases c with
      | counter y =>
        obtain ⟨_, _, m, hm⟩ := hbc
        rw [eq_applyTombstone' hright]
        exact assoc_delete_writes hname' hx (hcanonical y (by simp)) hm hleft
      | tombstone t =>
        rw [eq_applyTombstone hbc] at hright
        rw [eq_applyTombstone_later hleft, eq_applyTombstone_later' hright]
        exact iff_of_true rfl not_false
    | tombstone t =>
      cases hab
      cases c with
      | counter x =>
        rw [eq_applyTombstone' hbc] at hright
        rw [eq_applyTombstone' hleft, eq_applyTombstone_later' hright]
        exact iff_of_true rfl not_false
      | tombstone u =>
        cases hbc
        cases hleft
        cases hright
        exact iff_of_true (congrArg tombstone (Tombstone.later_assoc hname hname')) not_false

namespace Bracketing

def early : Counter where
  name := ⟨[120]⟩
  context := .ofSorted #[⟨.stable (Bytes.toVector 16 [1]), 1, 5⟩]
  writtenAt := 1
  lastDelete := Counter.neverDeleted

def delete : Tombstone := ⟨⟨[120]⟩, 0, 2⟩

def late : Counter where
  name := ⟨[120]⟩
  context := .ofSorted #[⟨.stable (Bytes.toVector 16 [2]), 1, 2⟩]
  writtenAt := 3
  lastDelete := Counter.neverDeleted

def both : Context :=
  .ofSorted #[⟨.stable (Bytes.toVector 16 [1]), 1, 5⟩, ⟨.stable (Bytes.toVector 16 [2]), 1, 2⟩]

theorem canonical_of_mem {k : Counter}
    (h : .counter k ∈ [Cell.counter early, .tombstone delete, .counter late]) :
    k.context.Canonical := by
  simp only [List.mem_cons, List.not_mem_nil, counter.injEq, reduceCtorEq, or_false,
    false_or] at h
  rcases h with rfl | rfl
  · exact Context.canonical_ofSorted_singleton _
  · exact Context.canonical_ofSorted_singleton _

theorem merge_early_late : early.context.merge late.context = .ok both := by decide +kernel

theorem early_shadowed :
    (counter early).reconcile (.tombstone delete) = .ok (.tombstone delete) := rfl

theorem late_survives :
    (tombstone delete).reconcile (.counter late) = .ok (.counter (late.survive 2)) := rfl

theorem early_kept : (counter early).reconcile (.counter (late.survive 2)) =
    .ok (.counter (early.join (late.survive 2) both)) :=
  reconcile_counters_of_merge rfl merge_early_late

theorem late_survive_ne : counter (late.survive 2) ≠ .counter (early.join (late.survive 2) both) := by
  decide +kernel

end Bracketing

open Bracketing in
theorem reconcile_not_assoc :
    ¬ ∀ a b c ab bc left right : Cell, (∀ k, .counter k ∈ [a, b, c] → k.context.Canonical) →
      a.name = b.name → b.name = c.name →
      a.reconcile b = .ok ab → ab.reconcile c = .ok left →
      b.reconcile c = .ok bc → a.reconcile bc = .ok right → left = right := by
  intro h
  exact late_survive_ne (h (.counter early) (.tombstone delete) (.counter late) _ _ _ _
    (fun _ => canonical_of_mem) rfl rfl early_shadowed late_survives late_survives early_kept)

open Bracketing in
theorem reconcile_assoc_iff_of_delete_between :
    LosesWrite (.counter early) (.tombstone delete) (.counter late) := by
  by_contra h
  exact late_survive_ne ((reconcile_assoc_iff (fun _ => canonical_of_mem) early_shadowed
    late_survives late_survives early_kept).mpr h)

end Cell
end ShardCounter
