import ShardCounter.Context.Basic
/-! Merging two contexts: one shard per replica present on either side, and of two records of one
replica the one with the higher clock. Counts are never summed across versions of one shard. -/
namespace ShardCounter

/-- The surviving record of one replica. At equal clocks the counts must agree, and the result is
pending only if both records are. -/
def Shard.resolve (a b : Shard) : Except ContextError Shard :=
  if b.clock < a.clock then .ok a
  else if a.clock < b.clock then .ok b
  else if a.count ≠ b.count then
    .error (.clockCountMismatch a.id.toStable a.clock a.count b.count)
  else if a.isPending && b.isPending then .ok a
  else .ok a.toStable

namespace Context

def mergeInto (merged : Array Shard) : List Shard → List Shard → Except ContextError (Array Shard)
  | [], right => .ok (merged.appendList right)
  | left, [] => .ok (merged.appendList left)
  | a :: left, b :: right =>
    match a.id.order b.id with
    | .lt => mergeInto (merged.push a) left (b :: right)
    | .gt => mergeInto (merged.push b) (a :: left) right
    | .eq =>
      match a.resolve b with
      | .ok s => mergeInto (merged.push s) left right
      | .error e => .error e
termination_by left right => left.length + right.length

def merge (left right : Context) : Except ContextError Context :=
  if right.isEmpty then .ok left
  else if left.isEmpty then .ok right
  else do
    let merged ← mergeInto (Array.emptyWithCapacity (left.size + right.size))
      left.shards.toList right.shards.toList
    ofSorted? merged

end Context
end ShardCounter
