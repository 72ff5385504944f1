import ShardCounter.Proofs.Cell.Reconcile
import ShardCounter.Proofs.Context.Join
/-! Cells whose contexts are canonical: those that this library builds, reads and reconciles. -/
namespace ShardCounter.Cell

/-- The context of a counter is canonical. A tombstone has none. -/
def Canonical (cell : Cell) : Prop := ∀ c, cell = .counter c → c.context.Canonical

@[simp] theorem canonical_counter_iff {c : Counter} :
    (counter c).Canonical ↔ c.context.Canonical :=
  ⟨fun h => h c rfl, fun h _ hc => counter.inj hc ▸ h⟩

@[simp] theorem canonical_tombstone (t : Tombstone) : (tombstone t).Canonical :=
  fun _ h => nomatch h

instance (cell : Cell) : Decidable cell.Canonical :=
  match cell with
  | .counter _ => decidable_of_iff' _ canonical_counter_iff
  | .tombstone t => .isTrue (canonical_tombstone t)

theorem Reconciles.canonical {a b joined : Cell} (h : Reconciles a b joined) (ha : a.Canonical)
    (hb : b.Canonical) : joined.Canonical := by
  cases h with
  | counters l r context hmerge =>
    exact canonical_counter_iff.mpr (Context.canonical_merge (ha l rfl) (hb r rfl) hmerge)
  | tombstones | shadowedLeft | shadowedRight => exact canonical_tombstone _
  | survivesLeft c => exact canonical_counter_iff.mpr (ha c rfl)
  | survivesRight c => exact canonical_counter_iff.mpr (hb c rfl)

end ShardCounter.Cell
