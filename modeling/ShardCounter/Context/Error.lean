import ShardCounter.Replica.Id
/-! Why a context cannot be read, built or merged, and the wording of each reason. -/
namespace ShardCounter

/-- Positions and number of pending shards are written as signed 16-bit words. -/
def maxPendingIndex : Nat := 32767

inductive Malformation where
  | shorterThanHeader (size : Nat)
  | negativePendingCount (count : Int16)
  | truncatedHeader (needed size : Nat)
  | unevenBody (size : Nat)
  | morePendingThanShards (pending shards : Nat)
  | pendingIndexOutOfRange (index : Int16)
  | pendingIndicesNotAscending
  | shortShard
  | idsNotAscending (index : Nat)
  | pendingIndexTooLarge (index : Nat)
  | tooManyPending (count : Nat)
deriving DecidableEq

def Malformation.message : Malformation → String
  | .shorterThanHeader size => s!"{size} bytes is shorter than the header"
  | .negativePendingCount count => s!"negative header count {count}"
  | .truncatedHeader needed size => s!"header needs {needed} bytes, buffer has {size}"
  | .unevenBody size => s!"body length {size} is not a multiple of 32"
  | .morePendingThanShards pending shards =>
    s!"{pending} local shards declared for {shards} shards"
  | .pendingIndexOutOfRange index => s!"local shard index {index} out of range"
  | .pendingIndicesNotAscending => "local shard indices not ascending"
  | .shortShard => "short shard"
  | .idsNotAscending index => s!"shard ids not strictly ascending at index {index}"
  | .pendingIndexTooLarge index =>
    s!"local shard at index {index} exceeds header limit {maxPendingIndex}"
  | .tooManyPending count => s!"{count} local shards exceeds header limit {maxPendingIndex}"

inductive ContextError where
  | malformed (reason : Malformation)
  /-- Two records of one replica agree on the clock and not on the count. -/
  | clockCountMismatch (replica : ReplicaId) (clock : UInt64) (left right : Int64)
  | duplicateReplica (replica : ReplicaId)
deriving DecidableEq

def ContextError.message : ContextError → String
  | .malformed reason => "Malformed counter context: " ++ reason.message
  | .clockCountMismatch replica clock left right =>
    "Clock/count mismatch for replica " ++ replica.text ++
      s!" at clock {clock}: {left} vs {right}"
  | .duplicateReplica replica => "Duplicate replica id in context: " ++ replica.text

end ShardCounter
