import ShardCounter.Cluster.Exchange
import ShardCounter.Proofs.Cell.Canonical
import ShardCounter.Proofs.Cell.History
/-! Whether a counter knows that it was deleted once. It keeps the latest delete as a timestamp, and the
least timestamp stands for none: a delete of just that timestamp is folded in without a mark. The mark
of any other outlasts whatever comes after it. -/
namespace ShardCounter

def Slot.absorbAll (slot : Slot) (cells : List Cell) : Except CellError Slot :=
  cells.foldlM (fun slot cell => some <$> slot.absorb cell) slot

theorem max_ne_minValue_iff {a b : Int64} :
    max a b ≠ Int64.minValue ↔ a ≠ Int64.minValue ∨ b ≠ Int64.minValue :=
  max_eq_bot.not.trans not_and_or

namespace Cell

/-- Bears the mark of a delete, its own or one that it survived. -/
def IsMarked (cell : Cell) : Prop := cell.deleteMark ≠ Counter.neverDeleted

variable {a b joined cell result : Cell} {c : Counter} {slot : Slot} {cells : List Cell}

theorem isMarked_counter_iff : (counter c).IsMarked ↔ c.hasSeenDelete = true := by
  unfold IsMarked Counter.hasSeenDelete
  exact decide_eq_true_iff.symm

theorem isMarked_of_reconciles (h : Reconciles a b joined) :
    joined.IsMarked ↔ a.IsMarked ∨ b.IsMarked := by
  -- A delete that shadows a write is later than it, so it is not at the least timestamp.
  have hshadow {c : Counter} {t : Tombstone} (hlt : c.writtenAt < t.deletedAt) :
      (tombstone t).IsMarked :=
    ne_bot_of_gt hlt
  cases h with
  | counters => exact max_ne_minValue_iff
  | tombstones l r =>
    have hmark : (tombstone (l.later r)).deleteMark = max l.deletedAt r.deletedAt :=
      Tombstone.deletedAt_later l r
    unfold IsMarked
    rw [hmark]
    exact max_ne_minValue_iff
  | shadowedLeft c t hlt => exact iff_of_true (hshadow hlt) (.inr (hshadow hlt))
  | shadowedRight c t hlt => exact iff_of_true (hshadow hlt) (.inl (hshadow hlt))
  | survivesLeft => exact max_ne_minValue_iff
  | survivesRight => exact max_ne_minValue_iff.trans or_comm

theorem isMarked_of_absorb (h : slot.absorb cell = .ok result) :
    result.IsMarked ↔ (∃ current ∈ slot, current.IsMarked) ∨ cell.IsMarked := by
  cases slot with
  | none =>
    cases h
    simp
  | some current =>
    rw [isMarked_of_reconciles (reconciles_of_reconcile h)]
    simp

theorem isMarked_of_absorbAll (h : slot.absorbAll cells = .ok (some result)) :
    result.IsMarked ↔ (∃ current ∈ slot, current.IsMarked) ∨ ∃ cell ∈ cells, cell.IsMarked := by
  induction cells generalizing slot with
  | nil =>
    cases h
    simp
  | cons cell cells ih =>
    rw [Slot.absorbAll, List.foldlM_cons] at h
    obtain ⟨next, hnext, h⟩ := Except.bind_eq_ok_iff.mp h
    obtain ⟨absorbed, habsorb, rfl⟩ := Except.map_eq_ok_iff.mp hnext
    rw [ih h, List.exists_mem_cons_iff, ← or_assoc, ← isMarked_of_absorb habsorb]
    simp

def TellOfDelete (cells : List Cell) : Prop :=
  (∃ t, .tombstone t ∈ cells) ∨ ∃ k, .counter k ∈ cells ∧ k.hasSeenDelete = true

structure HideDelete (cells : List Cell) : Prop where
  deleted : ∃ t, .tombstone t ∈ cells
  unmarked : ∀ cell ∈ cells, ¬ cell.IsMarked

theorem exists_isMarked_iff : (∃ cell ∈ cells, cell.IsMarked) ↔
    (∃ t, .tombstone t ∈ cells ∧ t.deletedAt ≠ Counter.neverDeleted) ∨
      ∃ k, .counter k ∈ cells ∧ k.hasSeenDelete = true := by
  constructor
  · rintro ⟨cell, hcell, hmarked⟩
    cases cell with
    | counter k => exact .inr ⟨k, hcell, isMarked_counter_iff.mp hmarked⟩
    | tombstone t => exact .inl ⟨t, hcell, hmarked⟩
  · rintro (⟨t, ht, hmarked⟩ | ⟨k, hk, hmarked⟩)
    · exact ⟨.tombstone t, ht, hmarked⟩
    · exact ⟨.counter k, hk, isMarked_counter_iff.mpr hmarked⟩

theorem TellOfDelete.of_isMarked (h : ∃ cell ∈ cells, cell.IsMarked) : TellOfDelete cells :=
  (exists_isMarked_iff.mp h).imp_left fun ⟨t, ht, _⟩ => ⟨t, ht⟩

theorem hideDelete_iff :
    HideDelete cells ↔ TellOfDelete cells ∧ ¬ ∃ cell ∈ cells, cell.IsMarked := by
  constructor
  · rintro ⟨hdeleted, hunmarked⟩
    exact ⟨.inl hdeleted, fun ⟨cell, hcell, hmarked⟩ => hunmarked cell hcell hmarked⟩
  · rintro ⟨htell, hunmarked⟩
    refine ⟨htell.resolve_right fun hknown => ?_, fun cell hcell hmarked => ?_⟩
    · exact hunmarked (exists_isMarked_iff.mpr (.inr hknown))
    · exact hunmarked ⟨cell, hcell, hmarked⟩

/-- A counter has seen a delete just if one of its inputs bore a mark. It tells truly whether there was
a delete among them or in their past, unless there was one and the least timestamp hides it. -/
theorem hasSeenDelete_iff (h : Slot.absorbAll none cells = .ok (some (.counter c))) :
    (c.hasSeenDelete = true ↔
      (∃ t, .tombstone t ∈ cells ∧ t.deletedAt ≠ Counter.neverDeleted) ∨
        ∃ k, .counter k ∈ cells ∧ k.hasSeenDelete = true) ∧
    ((c.hasSeenDelete = true ↔ TellOfDelete cells) ↔ ¬ HideDelete cells) := by
  have hmarked : c.hasSeenDelete = true ↔ ∃ cell ∈ cells, cell.IsMarked := by
    rw [← isMarked_counter_iff, isMarked_of_absorbAll h]
    simp
  refine ⟨hmarked.trans exists_isMarked_iff, ?_⟩
  rw [hmarked, hideDelete_iff]
  constructor
  · rintro htrue ⟨htell, hunmarked⟩
    exact hunmarked (htrue.mpr htell)
  · intro htrue
    exact ⟨TellOfDelete.of_isMarked, fun htell => not_not.mp fun hunmarked => htrue ⟨htell, hunmarked⟩⟩

namespace SeenDelete

def write (writtenAt lastDelete : Int64) : Counter where
  name := ⟨[120]⟩
  context := .ofSorted #[⟨.stable (Bytes.toVector 16 [1]), 1, 5⟩]
  writtenAt := writtenAt
  lastDelete := lastDelete

def delete (deletedAt : Int64) : Cell := .tombstone ⟨⟨[120]⟩, 0, deletedAt⟩

def least : List Cell := [.counter (write 1 Counter.neverDeleted), delete Int64.minValue]

def outlived : List Cell :=
  [.counter (write 1 Counter.neverDeleted), delete 3, delete Int64.minValue,
    .counter (write 4 Counter.neverDeleted)]

theorem absorbAll_least :
    Slot.absorbAll none least = .ok (some (.counter (write 1 Counter.neverDeleted))) := by
  decide +kernel

theorem tellOfDelete_least : TellOfDelete least :=
  .inl ⟨_, List.mem_cons_of_mem _ (List.mem_singleton_self _)⟩

end SeenDelete

open SeenDelete in
theorem delete_not_seen :
    ¬ ∀ (cells : List Cell) (c : Counter), (∀ cell ∈ cells, cell.Canonical) →
      Slot.absorbAll none cells = .ok (some (.counter c)) →
      (c.hasSeenDelete = true ↔ TellOfDelete cells) := by
  intro h
  have hcanonical : ∀ cell ∈ least, cell.Canonical := by decide +kernel
  have hseen := (h least _ hcanonical absorbAll_least).mpr tellOfDelete_least
  exact absurd hseen (by decide)

open SeenDelete in
theorem hasSeenDelete_iff_of_outlived :
    Slot.absorbAll none outlived = .ok (some (.counter (write 4 3))) ∧
    (write 4 3).hasSeenDelete = true ∧ ¬ HideDelete outlived ∧ HideDelete least := by
  have houtlived : Slot.absorbAll none outlived = .ok (some (.counter (write 4 3))) := by
    decide +kernel
  obtain ⟨hmarked, htruly⟩ := hasSeenDelete_iff houtlived
  obtain ⟨-, htruly'⟩ := hasSeenDelete_iff absorbAll_least
  have hdelete : delete 3 ∈ outlived := List.mem_cons_of_mem _ List.mem_cons_self
  have hseen := hmarked.mpr (.inl ⟨_, hdelete, by decide⟩)
  refine ⟨houtlived, hseen, htruly.mp (iff_of_true hseen (.inl ⟨_, hdelete⟩)), ?_⟩
  by_contra htrue
  exact absurd ((htruly'.mpr htrue).mpr tellOfDelete_least) (by decide)

end Cell
end ShardCounter
