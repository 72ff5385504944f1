import ShardCounter.Cell.Basic
import ShardCounter.Cell.Error
import ShardCounter.Reconcile
/-! Reconciling two versions of one cell. Of two deletes the later one stays. A delete later than
every write shadows a counter; any other is folded into it as its last delete. Two counters merge
their contexts and keep the later of each timestamp. -/
namespace ShardCounter

namespace Counter

def reconcile (left right : Counter) : Except CellError Counter :=
  if left.name ≠ right.name then .error (.nameMismatch left.name right.name)
  else match left.context.merge right.context with
    | .error e => .error (.context e)
    | .ok context => .ok
        { name := left.name
          context
          writtenAt := max left.writtenAt right.writtenAt
          lastDelete := max left.lastDelete right.lastDelete }

/-- The right version, if the left one lacks anything of it. The names are not compared. -/
def diff? (left right : Counter) : Option Counter :=
  if left.writtenAt < right.writtenAt ∨ left.lastDelete < right.lastDelete ∨
      ¬ left.context.dominates right.context then some right
  else none

def applyTombstone (c : Counter) (t : Tombstone) : Cell :=
  if c.writtenAt < t.deletedAt then .tombstone t
  else if t.deletedAt ≤ c.lastDelete then .counter c
  else .counter { c with lastDelete := t.deletedAt }

end Counter

/-- Later by the client's timestamp, and between equal ones by the server's. -/
def Tombstone.supersedes (left right : Tombstone) : Bool :=
  right.deletedAt < left.deletedAt ||
    (left.deletedAt == right.deletedAt && right.localTime < left.localTime)

namespace Cell

def checkNames (left right : Cell) : Except CellError Unit :=
  if left.name ≠ right.name then .error (.nameMismatch left.name right.name) else .ok ()

def reconcile (left right : Cell) : Except CellError Cell := do
  checkNames left right
  match left, right with
  | .tombstone l, .tombstone r => return .tombstone (if l.supersedes r then l else r)
  | .tombstone t, .counter c => return c.applyTombstone t
  | .counter c, .tombstone t => return c.applyTombstone t
  | .counter l, .counter r => return .counter (← l.reconcile r)

def diff? (left right : Cell) : Except CellError (Option Cell) := do
  checkNames left right
  match left, right with
  | .counter l, .counter r => return (l.diff? r).map .counter
  | _, _ =>
    let reconciled ← left.reconcile right
    return if reconciled = left then none else some right

def dominates (left right : Cell) : Except CellError Bool :=
  Option.isNone <$> left.diff? right

end Cell

instance : Reconcile Cell CellError where
  reconcile := Cell.reconcile
  dominates := Cell.dominates

end ShardCounter
