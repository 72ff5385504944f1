import Mathlib.Control.Basic
import ShardCounter.Proofs.Cell.Decoding
/-! What the origin of bytes makes of them. Whoever wrote them, they are accepted or refused for the
same reasons; read as those of another process they spell the same cell with its pending marks
cleared. -/
namespace ShardCounter

namespace Reader

variable {α β : Type}

theorem run_map (f : α → β) (read : Read α) (input : Bytes) :
    run (f <$> read) input = f <$> run read input := by
  unfold run
  rw [map_eq]
  cases read ⟨0, input⟩ with
  | error e => rfl
  | ok result =>
    simp only [Except.map_ok, Except.ok_bind]
    split <;> rfl

theorem context_remote : context .remote = Context.clearPending <$> context .ownProcess := by
  unfold context
  rw [map_bind]
  congr
  funext size
  rw [map_bind]
  congr
  funext bytes
  cases Context.decode bytes <;> rfl

theorem counter_remote : counter .remote = Counter.clearPending <$> counter .ownProcess := by
  unfold counter
  rw [context_remote]
  simp only [map_bind, bind_map_left]
  rfl

theorem cell_remote : cell .remote = Cell.clearPending <$> cell .ownProcess := by
  unfold cell
  rw [counter_remote, map_bind]
  congr
  funext mask
  dsimp only
  split
  · simp only [map_bind, bind_map_left]
    rfl
  · split
    · simp only [map_bind]
      rfl
    · rfl

end Reader

theorem Counter.decode_remote (bytes : Bytes) :
    Counter.decode .remote bytes = Counter.clearPending <$> Counter.decode .ownProcess bytes := by
  unfold decode
  rw [Reader.counter_remote, Reader.run_map]

theorem Cell.decode_remote (bytes : Bytes) :
    Cell.decode .remote bytes = Cell.clearPending <$> Cell.decode .ownProcess bytes := by
  unfold decode
  rw [Reader.cell_remote, Reader.run_map]

end ShardCounter
