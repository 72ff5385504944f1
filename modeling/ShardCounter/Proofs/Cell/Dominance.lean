import ShardCounter.Proofs.Cell.Canonical
/-! When one version of a cell dominates another, one rule for each pair of variants. Two live
versions are compared by their timestamps and clocks; where a delete takes part, the versions are
reconciled and the result compared. -/
namespace ShardCounter.Cell

/-- The left version carries everything the right one does. -/
inductive Dominates : Cell → Cell → Prop where
  | counters (l r : Counter) (hname : l.name = r.name) (hwritten : r.writtenAt ≤ l.writtenAt)
    (hdelete : r.lastDelete ≤ l.lastDelete) (hcontext : l.context.dominates r.context = true) :
    Dominates (.counter l) (.counter r)
  | remembers (c : Counter) (t : Tombstone) (hname : c.name = t.name)
    (hwritten : t.deletedAt ≤ c.writtenAt) (hdelete : t.deletedAt ≤ c.lastDelete) :
    Dominates (.counter c) (.tombstone t)
  | shadows (t : Tombstone) (c : Counter) (hname : t.name = c.name)
    (h : c.writtenAt < t.deletedAt) : Dominates (.tombstone t) (.counter c)
  | tombstones (l r : Tombstone) (hname : l.name = r.name) (h : r.NotAfter l) :
    Dominates (.tombstone l) (.tombstone r)

variable {a b : Cell} {c : Counter} {t : Tombstone}

theorem name_eq_of_dominates (h : Dominates a b) : a.name = b.name := by
  cases h <;> assumption

theorem dominates_eq_true_iff : a.dominates b = .ok true ↔ a.diff? b = .ok none := by
  unfold dominates
  rw [Except.map_eq_ok_iff]
  constructor
  · rintro ⟨lacking, hlacking, hnone⟩
    rw [hlacking, Option.isNone_iff_eq_none.mp hnone]
  · intro h
    exact ⟨none, h, rfl⟩

theorem diff?_eq_none_iff_reconcile (hmixed : a.isLive = false ∨ b.isLive = false) :
    a.diff? b = .ok none ↔ a.reconcile b = .ok a :=
  ⟨reconcile_of_diff?_eq_none hmixed, diff?_eq_none_of_reconcile hmixed⟩

theorem applyTombstone_eq_counter_iff :
    c.applyTombstone t = .counter c ↔ t.deletedAt ≤ c.writtenAt ∧ t.deletedAt ≤ c.lastDelete := by
  rcases Int64.lt_or_le c.writtenAt t.deletedAt with hlt | hle
  · rw [Counter.applyTombstone_of_lt hlt]
    exact iff_of_false nofun fun ⟨hle, _⟩ => absurd hlt (Int64.not_lt.mpr hle)
  · rw [Counter.applyTombstone_of_le hle, counter.injEq, and_iff_right hle, ← max_eq_left_iff]
    constructor
    · exact congrArg Counter.lastDelete
    · intro h
      unfold Counter.survive
      rw [h]

theorem applyTombstone_eq_tombstone_iff :
    c.applyTombstone t = .tombstone t ↔ c.writtenAt < t.deletedAt := by
  rcases Int64.lt_or_le c.writtenAt t.deletedAt with hlt | hle
  · exact iff_of_true (Counter.applyTombstone_of_lt hlt) hlt
  · rw [Counter.applyTombstone_of_le hle]
    exact iff_of_false nofun (Int64.not_lt.mpr hle)

theorem diff?_eq_none_iff : a.diff? b = .ok none ↔ Dominates a b := by
  by_cases hname : a.name = b.name
  · cases a with
    | counter l =>
      cases b with
      | counter r =>
        rw [diff?_counters hname, Except.ok.injEq, Option.map_eq_none_iff,
          Counter.diff?_eq_none_iff]
        exact ⟨fun ⟨hwritten, hdelete, hcontext⟩ => .counters l r hname hwritten hdelete hcontext,
          fun | .counters _ _ _ hwritten hdelete hcontext => ⟨hwritten, hdelete, hcontext⟩⟩
      | tombstone t =>
        rw [diff?_eq_none_iff_reconcile (.inr rfl), reconcile_counter_tombstone hname,
          Except.ok.injEq, applyTombstone_eq_counter_iff]
        exact ⟨fun ⟨hwritten, hdelete⟩ => .remembers l t hname hwritten hdelete,
          fun | .remembers _ _ _ hwritten hdelete => ⟨hwritten, hdelete⟩⟩
    | tombstone t =>
      cases b with
      | counter r =>
        rw [diff?_eq_none_iff_reconcile (.inl rfl), reconcile_tombstone_counter hname,
          Except.ok.injEq, applyTombstone_eq_tombstone_iff]
        exact ⟨.shadows t r hname, fun | .shadows _ _ _ h => h⟩
      | tombstone r =>
        rw [diff?_eq_none_iff_reconcile (.inl rfl), reconcile_tombstones hname, Except.ok.injEq,
          tombstone.injEq, Tombstone.later_eq_left_iff hname]
        exact ⟨.tombstones t r hname, fun | .tombstones _ _ _ h => h⟩
  · exact iff_of_false (fun h => hname (name_eq_of_diff? h)) fun h => hname (name_eq_of_dominates h)

theorem diff?_cases (hname : a.name = b.name) : a.diff? b = .ok none ∨ a.diff? b = .ok (some b) := by
  have hmixed : a.isLive = false ∨ b.isLive = false → ∀ c, a.reconcile b = .ok c →
      a.diff? b = .ok none ∨ a.diff? b = .ok (some b) := by
    intro hmixed c hc
    rw [diff?_mixed hmixed hname, hc, Except.ok_bind]
    split
    · exact .inl rfl
    · exact .inr rfl
  cases a with
  | counter l =>
    cases b with
    | counter r =>
      rw [diff?_counters hname]
      unfold Counter.diff?
      split
      · exact .inr rfl
      · exact .inl rfl
    | tombstone t => exact hmixed (.inr rfl) _ (reconcile_counter_tombstone hname)
  | tombstone t =>
    cases b with
    | counter r => exact hmixed (.inl rfl) _ (reconcile_tombstone_counter hname)
    | tombstone r => exact hmixed (.inl rfl) _ (reconcile_tombstones hname)

theorem exists_dominates (hname : a.name = b.name) : ∃ verdict, a.dominates b = .ok verdict := by
  unfold dominates
  rcases diff?_cases hname with hdiff | hdiff
  · exact ⟨true, by rw [hdiff, Except.map_ok]; rfl⟩
  · exact ⟨false, by rw [hdiff, Except.map_ok]; rfl⟩

theorem dominates_iff : a.dominates b = .ok true ↔ Dominates a b :=
  dominates_eq_true_iff.trans diff?_eq_none_iff

end ShardCounter.Cell
