import ShardCounter.Cell.Name
import ShardCounter.Context.Basic
/-! The two things that can occupy a counter's cell: a live counter, and the mark of a delete. -/
namespace ShardCounter

/-- A counter with the timestamp of its latest write and that of the latest delete it survived. -/
structure Counter where
  name : CellName
  context : Context
  writtenAt : Int64
  lastDelete : Int64
deriving DecidableEq

/-- A delete: the client's timestamp, and the server's own time in seconds. -/
structure Tombstone where
  name : CellName
  localTime : Int32
  deletedAt : Int64
deriving DecidableEq

inductive Cell where
  | counter (counter : Counter)
  | tombstone (tombstone : Tombstone)
deriving DecidableEq

namespace Counter

def neverDeleted : Int64 := Int64.minValue

def increment (m : Minter) (name : CellName) (delta writtenAt lastDelete : Int64) :
    Counter × Minter :=
  let (context, next) := Context.increment m delta
  ({ name, context, writtenAt, lastDelete }, next)

def total (c : Counter) : Int64 := c.context.total

def hasSeenDelete (c : Counter) : Bool := c.lastDelete ≠ neverDeleted

def clearPending (c : Counter) : Counter := { c with context := c.context.clearPending }

end Counter

namespace Cell

def name : Cell → CellName
  | .counter c => c.name
  | .tombstone t => t.name

def isLive : Cell → Bool
  | .counter _ => true
  | .tombstone _ => false

/-- When the version was written: the latest write of a counter, or the delete. -/
def timestamp : Cell → Int64
  | .counter c => c.writtenAt
  | .tombstone t => t.deletedAt

def counter? : Cell → Option Counter
  | .counter c => some c
  | .tombstone _ => none

def clearPending : Cell → Cell
  | .counter c => .counter c.clearPending
  | .tombstone t => .tombstone t

end Cell
end ShardCounter
