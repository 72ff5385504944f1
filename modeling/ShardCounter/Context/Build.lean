import ShardCounter.Context.Basic
/-! Building a context from shards in any order. The shards are sorted by id; two of one replica
are refused, whatever their flags. -/
namespace ShardCounter.Context

def sortShards (shards : List Shard) : List Shard :=
  shards.mergeSort fun a b => (a.id.order b.id).isLE

def firstRepeated? : List Shard → Option Shard
  | a :: b :: rest => if a.id.sameShard b.id then some a else firstRepeated? (b :: rest)
  | _ => none

def ofShards (shards : List Shard) : Except ContextError Context :=
  let sorted := sortShards shards
  match firstRepeated? sorted with
  | some s => .error (.duplicateReplica s.id.toStable)
  | none => ofSorted? sorted.toArray

structure Builder where
  staged : Array Shard := #[]

namespace Builder

def push (b : Builder) (s : Shard) : Builder := { b with staged := b.staged.push s }

def pushPending (b : Builder) (s : Shard) : Builder := b.push { s with id := s.id.toPending }

def pushStable (b : Builder) (s : Shard) : Builder := b.push s.toStable

def size (b : Builder) : Nat := b.staged.size

def isEmpty (b : Builder) : Bool := b.staged.isEmpty

def build (b : Builder) : Except ContextError Context := ofShards b.staged.toList

end Builder
end ShardCounter.Context
