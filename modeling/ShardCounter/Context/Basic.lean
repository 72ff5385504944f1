import ShardCounter.Context.Error
import ShardCounter.Replica.Minter
import ShardCounter.Shard
/-! Counter contexts: one shard per contributing replica, in ascending order of ids. `Canonical`
says what every context built by this library satisfies; lookup relies on it. -/
namespace ShardCounter

structure Context where
  shards : Array Shard
  pendingCount : Nat
deriving DecidableEq

namespace Context

/-- Strictly ascending ids, a true count of the pending shards, and pending positions and count
that fit the wire header. -/
structure Canonical (c : Context) : Prop where
  ascending : c.shards.toList.Pairwise fun a b => a.id.order b.id = .lt
  pendingCount_eq : c.pendingCount = c.shards.countP Shard.isPending
  index_le : ∀ (i : Nat) (h : i < c.shards.size), c.shards[i].isPending → i ≤ maxPendingIndex
  pendingCount_le : c.pendingCount ≤ maxPendingIndex

def ofSorted (shards : Array Shard) : Context := ⟨shards, shards.countP Shard.isPending⟩

def empty : Context := ⟨#[], 0⟩

def increment (m : Minter) (delta : Int64) : Context × Minter :=
  let (id, next) := m.mint
  (ofSorted #[{ id, clock := 1, count := delta }], next)

/-- One shard of a known replica, stable whatever the spelling of its id. -/
def single (s : Shard) : Context := ofSorted #[s.toStable]

def size (c : Context) : Nat := c.shards.size

def isEmpty (c : Context) : Bool := c.shards.isEmpty

def hasPending (c : Context) : Bool := 0 < c.pendingCount

def total (c : Context) : Int64 := c.shards.foldl (fun sum s => sum + s.count) 0

def search (shards : Array Shard) (id : ReplicaId) (low high : Nat) : Option Shard :=
  if low < high then
    let middle := (low + high) / 2
    match shards[middle]? with
    | none => none
    | some s =>
      match id.order s.id with
      | .eq => some s
      | .lt => search shards id low middle
      | .gt => search shards id (middle + 1) high
  else none
termination_by high - low

/-- The shard of a replica, under either spelling of its id. -/
def get? (c : Context) (id : ReplicaId) : Option Shard := search c.shards id 0 c.size

def clock? (c : Context) (id : ReplicaId) : Option UInt64 := (c.get? id).map Shard.clock

def clearPending (c : Context) : Context :=
  if c.hasPending then ofSorted (c.shards.map Shard.toStable) else c

/-- Refuses pending shards that the wire header could not point to: first the foremost one past
the last position, then too many of them. -/
def checkPending (shards : Array Shard) : Except ContextError Unit :=
  match shards.toList.zipIdx.find? fun (s, i) => s.isPending && maxPendingIndex < i with
  | some (_, i) => .error (.malformed (.pendingIndexTooLarge i))
  | none =>
    let count := shards.countP Shard.isPending
    if maxPendingIndex < count then .error (.malformed (.tooManyPending count)) else .ok ()

def ofSorted? (shards : Array Shard) : Except ContextError Context := do
  checkPending shards
  return ofSorted shards

def describe (c : Context) : String :=
  "CounterContext \x7b total: " ++ toString c.total ++ ", shards: [" ++
    ", ".intercalate (c.shards.toList.map Shard.describe) ++ "] \x7d"

end Context
end ShardCounter
