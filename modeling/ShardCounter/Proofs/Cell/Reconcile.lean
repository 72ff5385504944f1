import ShardCounter.Cell.Reconcile
import ShardCounter.Proofs.Except
import ShardCounter.Proofs.Timestamp
/-! What reconciling two cells can do, one rule for each pair of variants. -/
namespace ShardCounter

namespace Counter

variable {c l r k : Counter} {t : Tombstone}

def join (l r : Counter) (context : Context) : Counter where
  name := l.name
  context := context
  writtenAt := max l.writtenAt r.writtenAt
  lastDelete := max l.lastDelete r.lastDelete

def survive (c : Counter) (deletedAt : Int64) : Counter :=
  { c with lastDelete := max c.lastDelete deletedAt }

theorem reconcile_of_merge {context : Context} (hname : l.name = r.name)
    (h : l.context.merge r.context = .ok context) : l.reconcile r = .ok (l.join r context) := by
  unfold reconcile
  rw [if_neg (not_not.mpr hname), h]
  rfl

theorem reconcile_of_merge_error {e : ContextError} (hname : l.name = r.name)
    (h : l.context.merge r.context = .error e) : l.reconcile r = .error (.context e) := by
  unfold reconcile
  rw [if_neg (not_not.mpr hname), h]

theorem reconcile_eq_ok (h : l.reconcile r = .ok k) :
    l.name = r.name ∧ ∃ context, l.context.merge r.context = .ok context ∧ k = l.join r context := by
  by_cases hname : l.name = r.name
  · cases hmerge : l.context.merge r.context with
    | ok context =>
      rw [reconcile_of_merge hname hmerge] at h
      exact ⟨hname, context, rfl, (Except.ok.inj h).symm⟩
    | error e =>
      rw [reconcile_of_merge_error hname hmerge] at h
      contradiction
  · unfold reconcile at h
    rw [if_pos hname] at h
    contradiction

theorem applyTombstone_of_lt (h : c.writtenAt < t.deletedAt) : c.applyTombstone t = .tombstone t :=
  if_pos h

theorem applyTombstone_of_le (h : t.deletedAt ≤ c.writtenAt) :
    c.applyTombstone t = .counter (c.survive t.deletedAt) := by
  unfold applyTombstone survive
  rw [if_neg (Int64.not_lt.mpr h)]
  rcases max_cases c.lastDelete t.deletedAt with ⟨hmax, hle⟩ | ⟨hmax, hlt⟩
  · rw [if_pos hle, hmax]
  · rw [if_neg (Int64.not_le.mpr hlt), hmax]

theorem diff?_eq_none_iff : l.diff? r = none ↔ r.writtenAt ≤ l.writtenAt ∧
    r.lastDelete ≤ l.lastDelete ∧ l.context.dominates r.context = true := by
  unfold diff?
  split
  · rename_i hlacks
    refine iff_of_false nofun fun ⟨hwritten, hdelete, hdom⟩ => ?_
    rw [hdom, ← Int64.not_le, ← Int64.not_le] at hlacks
    simp [hwritten, hdelete] at hlacks
  · rename_i hnot
    rw [not_or, not_or, not_not, Int64.not_lt, Int64.not_lt] at hnot
    exact iff_of_true rfl hnot

end Counter

namespace Tombstone

variable {l r s t u : Tombstone}

def NotAfter (s t : Tombstone) : Prop :=
  s.deletedAt < t.deletedAt ∨ s.deletedAt = t.deletedAt ∧ s.localTime ≤ t.localTime

theorem NotAfter.refl (t : Tombstone) : t.NotAfter t :=
  .inr ⟨rfl, Int32.le_refl _⟩

theorem NotAfter.trans (hst : s.NotAfter t) (htu : t.NotAfter u) : s.NotAfter u := by
  rcases hst with hst | ⟨hat, hlocal⟩
  · rcases htu with htu | ⟨hat', -⟩
    · exact .inl (Int64.lt_trans hst htu)
    · exact .inl (hat' ▸ hst)
  · rcases htu with htu | ⟨hat', hlocal'⟩
    · exact .inl (hat ▸ htu)
    · exact .inr ⟨hat.trans hat', Int32.le_trans hlocal hlocal'⟩

theorem NotAfter.deletedAt_le (h : s.NotAfter t) : s.deletedAt ≤ t.deletedAt := by
  rcases h with h | ⟨h, -⟩
  · exact Int64.le_of_lt h
  · exact h ▸ Int64.le_refl _

theorem NotAfter.antisymm (hname : s.name = t.name) (hst : s.NotAfter t) (hts : t.NotAfter s) :
    s = t := by
  have hat : s.deletedAt = t.deletedAt := Int64.le_antisymm hst.deletedAt_le hts.deletedAt_le
  have hlocal : s.localTime = t.localTime := by
    rcases hst with hlt | ⟨-, hle⟩
    · exact absurd (hat ▸ hlt) Int64.lt_irrefl
    · rcases hts with hlt | ⟨-, hle'⟩
      · exact absurd (hat ▸ hlt) Int64.lt_irrefl
      · exact Int32.le_antisymm hle hle'
  obtain ⟨name, localTime, deletedAt⟩ := s
  obtain ⟨name', localTime', deletedAt'⟩ := t
  simp_all

def later (l r : Tombstone) : Tombstone := if l.supersedes r then l else r

theorem later_cases (l r : Tombstone) :
    l.later r = l ∧ r.NotAfter l ∨ l.later r = r ∧ l.NotAfter r := by
  unfold later
  split
  · rename_i h
    refine .inl ⟨rfl, ?_⟩
    simp only [supersedes, Bool.or_eq_true, Bool.and_eq_true, decide_eq_true_eq, beq_iff_eq] at h
    exact h.imp id fun ⟨hat, hlocal⟩ => ⟨hat.symm, Int32.le_of_lt hlocal⟩
  · rename_i h
    refine .inr ⟨rfl, ?_⟩
    simp only [supersedes, Bool.or_eq_true, Bool.and_eq_true, decide_eq_true_eq, beq_iff_eq,
      not_or, not_and, Int64.not_lt, Int32.not_lt] at h
    rcases Int64.lt_or_eq_of_le h.1 with hlt | heq
    · exact .inl hlt
    · exact .inr ⟨heq, h.2 heq⟩

theorem left_notAfter_later (l r : Tombstone) : l.NotAfter (l.later r) := by
  rcases later_cases l r with ⟨h, -⟩ | ⟨h, hle⟩
  · rw [h]
    exact .refl l
  · rwa [h]

theorem right_notAfter_later (l r : Tombstone) : r.NotAfter (l.later r) := by
  rcases later_cases l r with ⟨h, hle⟩ | ⟨h, -⟩
  · rwa [h]
  · rw [h]
    exact .refl r

theorem deletedAt_later (l r : Tombstone) :
    (l.later r).deletedAt = max l.deletedAt r.deletedAt := by
  rcases later_cases l r with ⟨h, hle⟩ | ⟨h, hle⟩
  · rw [h, max_eq_left hle.deletedAt_le]
  · rw [h, max_eq_right hle.deletedAt_le]

theorem name_later (hname : l.name = r.name) : (l.later r).name = l.name := by
  rcases later_cases l r with ⟨h, -⟩ | ⟨h, -⟩
  · rw [h]
  · rw [h, hname]

theorem later_eq_left_iff (hname : l.name = r.name) : l.later r = l ↔ r.NotAfter l := by
  constructor
  · intro h
    exact h ▸ right_notAfter_later l r
  · intro hle
    rcases later_cases l r with ⟨h, -⟩ | ⟨h, hle'⟩
    · exact h
    · rw [h, hle.antisymm hname.symm hle']

theorem later_comm (hname : l.name = r.name) : l.later r = r.later l := by
  rcases later_cases l r with ⟨h, hle⟩ | ⟨h, hle⟩
  · rcases later_cases r l with ⟨h', hle'⟩ | ⟨h', -⟩
    · rw [h, h', hle'.antisymm hname hle]
    · rw [h, h']
  · rcases later_cases r l with ⟨h', -⟩ | ⟨h', hle'⟩
    · rw [h, h']
    · rw [h, h', hle.antisymm hname hle']

end Tombstone

namespace Cell

/-- The outcomes of reconciling two cells of one name. -/
inductive Reconciles : Cell → Cell → Cell → Prop where
  | counters (l r : Counter) (context : Context) (h : l.context.merge r.context = .ok context) :
    Reconciles (.counter l) (.counter r) (.counter (l.join r context))
  | tombstones (l r : Tombstone) : Reconciles (.tombstone l) (.tombstone r) (.tombstone (l.later r))
  | shadowedLeft (c : Counter) (t : Tombstone) (h : c.writtenAt < t.deletedAt) :
    Reconciles (.counter c) (.tombstone t) (.tombstone t)
  | shadowedRight (c : Counter) (t : Tombstone) (h : c.writtenAt < t.deletedAt) :
    Reconciles (.tombstone t) (.counter c) (.tombstone t)
  | survivesLeft (c : Counter) (t : Tombstone) (h : t.deletedAt ≤ c.writtenAt) :
    Reconciles (.counter c) (.tombstone t) (.counter (c.survive t.deletedAt))
  | survivesRight (c : Counter) (t : Tombstone) (h : t.deletedAt ≤ c.writtenAt) :
    Reconciles (.tombstone t) (.counter c) (.counter (c.survive t.deletedAt))

variable {a b joined : Cell}

theorem checkNames_of_eq (h : a.name = b.name) : checkNames a b = .ok () :=
  if_neg (not_not.mpr h)

theorem reconcile_of_name_ne (h : a.name ≠ b.name) :
    a.reconcile b = .error (.nameMismatch a.name b.name) := by
  unfold reconcile checkNames
  rw [if_pos h, Except.error_bind]

theorem name_eq_of_reconcile (h : a.reconcile b = .ok joined) : a.name = b.name := by
  by_contra hname
  rw [reconcile_of_name_ne hname] at h
  contradiction

theorem reconcile_counters {l r : Counter} (h : l.name = r.name) :
    (Cell.counter l).reconcile (.counter r) = Cell.counter <$> l.reconcile r := by
  unfold reconcile
  rw [checkNames_of_eq (a := .counter l) (b := .counter r) h, Except.ok_bind]
  dsimp only
  cases l.reconcile r <;> rfl

theorem reconcile_counters_of_merge {l r : Counter} {context : Context} (hname : l.name = r.name)
    (h : l.context.merge r.context = .ok context) :
    (Cell.counter l).reconcile (.counter r) = .ok (.counter (l.join r context)) := by
  rw [reconcile_counters hname, Counter.reconcile_of_merge hname h, Except.map_ok]

theorem diff?_counters {l r : Counter} (h : l.name = r.name) :
    (Cell.counter l).diff? (.counter r) = .ok ((l.diff? r).map .counter) := by
  unfold diff?
  rw [checkNames_of_eq (a := .counter l) (b := .counter r) h]
  rfl

theorem reconcile_tombstones {l r : Tombstone} (h : l.name = r.name) :
    (Cell.tombstone l).reconcile (.tombstone r) = .ok (.tombstone (l.later r)) := by
  unfold reconcile
  rw [checkNames_of_eq (a := .tombstone l) (b := .tombstone r) h]
  rfl

theorem reconcile_counter_tombstone {c : Counter} {t : Tombstone} (h : c.name = t.name) :
    (Cell.counter c).reconcile (.tombstone t) = .ok (c.applyTombstone t) := by
  unfold reconcile
  rw [checkNames_of_eq (a := .counter c) (b := .tombstone t) h]
  rfl

theorem reconcile_tombstone_counter {c : Counter} {t : Tombstone} (h : t.name = c.name) :
    (Cell.tombstone t).reconcile (.counter c) = .ok (c.applyTombstone t) := by
  unfold reconcile
  rw [checkNames_of_eq (a := .tombstone t) (b := .counter c) h]
  rfl

theorem reconciles_of_reconcile (h : a.reconcile b = .ok joined) : Reconciles a b joined := by
  have hname := name_eq_of_reconcile h
  cases a with
  | counter l =>
    cases b with
    | counter r =>
      rw [reconcile_counters hname] at h
      obtain ⟨k, hk, rfl⟩ := Except.map_eq_ok_iff.mp h
      obtain ⟨-, context, hmerge, rfl⟩ := Counter.reconcile_eq_ok hk
      exact .counters l r context hmerge
    | tombstone t =>
      rw [reconcile_counter_tombstone hname] at h
      cases h
      rcases Int64.lt_or_le l.writtenAt t.deletedAt with hlt | hle
      · rw [Counter.applyTombstone_of_lt hlt]
        exact .shadowedLeft l t hlt
      · rw [Counter.applyTombstone_of_le hle]
        exact .survivesLeft l t hle
  | tombstone t =>
    cases b with
    | counter r =>
      rw [reconcile_tombstone_counter hname] at h
      cases h
      rcases Int64.lt_or_le r.writtenAt t.deletedAt with hlt | hle
      · rw [Counter.applyTombstone_of_lt hlt]
        exact .shadowedRight r t hlt
      · rw [Counter.applyTombstone_of_le hle]
        exact .survivesRight r t hle
    | tombstone r =>
      rw [reconcile_tombstones hname] at h
      cases h
      exact .tombstones t r

theorem name_eq_of_diff? {lacking : Option Cell} (h : a.diff? b = .ok lacking) :
    a.name = b.name := by
  by_contra hname
  unfold diff? checkNames at h
  rw [if_pos hname, Except.error_bind] at h
  contradiction

theorem diff?_mixed (hmixed : a.isLive = false ∨ b.isLive = false) (hname : a.name = b.name) :
    a.diff? b =
      (a.reconcile b >>= fun reconciled => .ok (if reconciled = a then none else some b)) := by
  unfold diff?
  rw [checkNames_of_eq hname, Except.ok_bind]
  cases a with
  | tombstone t => cases b <;> rfl
  | counter l =>
    cases b with
    | tombstone t => rfl
    | counter r => exact absurd hmixed (by simp [isLive])

theorem reconcile_of_diff?_eq_none (hmixed : a.isLive = false ∨ b.isLive = false)
    (h : a.diff? b = .ok none) : a.reconcile b = .ok a := by
  rw [diff?_mixed hmixed (name_eq_of_diff? h)] at h
  obtain ⟨reconciled, hreconciled, h⟩ := Except.bind_eq_ok_iff.mp h
  have hsame : reconciled = a := by simpa using h
  rw [hreconciled, hsame]

theorem diff?_eq_none_of_reconcile (hmixed : a.isLive = false ∨ b.isLive = false)
    (h : a.reconcile b = .ok a) : a.diff? b = .ok none := by
  rw [diff?_mixed hmixed (name_eq_of_reconcile h), h, Except.ok_bind, if_pos rfl]

end Cell
end ShardCounter
