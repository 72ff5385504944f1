import ShardCounter.Cell.Codec
import ShardCounter.Cell.Reconcile
/-! Moving a cell between two nodes. Each node keeps one slot, empty until its first cell. -/
namespace ShardCounter

abbrev Slot := Option Cell

namespace Slot

def absorb (slot : Slot) (incoming : Cell) : Except CellError Cell :=
  match slot with
  | none => .ok incoming
  | some current => current.reconcile incoming

def total (slot : Slot) : Int64 := ((slot.bind Cell.counter?).map Counter.total).getD 0

def clearPending (slot : Slot) : Slot := slot.map Cell.clearPending

end Slot

inductive Exchange where
  /-- The sender has nothing to give. -/
  | nothing
  /-- The receiver already has everything the sender has. -/
  | skipped
  /-- The cell was sent, and this is what the receiver holds now. -/
  | sent (received : Cell)
deriving DecidableEq

namespace Exchange

def transfer (origin : Origin) (outgoing : Cell) (receiver : Slot) : Except CellError Cell := do
  let incoming ← Cell.decode origin (← outgoing.encode)
  receiver.absorb incoming

/-- Skips the transfer if the receiver lacks nothing of the sender's cell, unless `force` is set. -/
def run (origin : Origin) (force : Bool) (sender receiver : Slot) : Except CellError Exchange :=
  match sender with
  | none => .ok .nothing
  | some outgoing => do
    let lacking ← match receiver with
      | none => pure true
      | some current => if force then pure true else Option.isSome <$> current.diff? outgoing
    if lacking then return .sent (← transfer origin outgoing receiver) else return .skipped

end Exchange
end ShardCounter
