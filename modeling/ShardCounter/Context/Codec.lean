import ShardCounter.Context.Basic
/-! The wire form of a context: a header with the number of pending shards and their positions, all
signed 16-bit words, and then the shards, 32 bytes each. Reading accepts only what writing
produces for a canonical context. -/
namespace ShardCounter.Context

def encodedSize (c : Context) : Nat := 2 + 2 * c.pendingCount + Shard.wireSize * c.size

def pendingIndices (shards : Array Shard) : List Nat :=
  shards.toList.zipIdx.filterMap fun (s, i) => if s.isPending then some i else none

def encode (c : Context) : Bytes :=
  Bytes.bigEndian 2 c.pendingCount ++ (pendingIndices c.shards).flatMap (Bytes.bigEndian 2) ++
    c.shards.toList.flatMap Shard.encode

/-- Reads `count` positions, each below `size` and above the one before. -/
def readIndices (size : Nat) (read : Array Nat) : Nat → Bytes → Except ContextError (Array Nat)
  | 0, _ => .ok read
  | count + 1, bytes =>
    let index := Bytes.toInt16 (bytes.take 2)
    if index < 0 ∨ size ≤ index.toInt.toNat then
      .error (.malformed (.pendingIndexOutOfRange index))
    else if read.back?.any (index.toInt.toNat ≤ ·) then
      .error (.malformed .pendingIndicesNotAscending)
    else readIndices size (read.push index.toInt.toNat) count (bytes.drop 2)

/-- Reads `count` shards in ascending order of ids; `pending` holds the positions of the pending ones
among them. -/
def readShards (read : Array Shard) (pending : List Nat) :
    Nat → Bytes → Except ContextError (Array Shard)
  | 0, _ => .ok read
  | count + 1, bytes =>
    let isPending := pending.head? == some read.size
    let chunk := bytes.take Shard.wireSize
    let s := Shard.decode isPending chunk
    if chunk.length ≠ Shard.wireSize then .error (.malformed .shortShard)
    else if read.back?.any (·.id.order s.id ≠ .lt) then
      .error (.malformed (.idsNotAscending read.size))
    else readShards (read.push s) (if isPending then pending.tail else pending) count
      (bytes.drop Shard.wireSize)

def decode (bytes : Bytes) : Except ContextError Context := do
  let size := bytes.length
  if size < 2 then throw (.malformed (.shorterThanHeader size))
  let declared := Bytes.toInt16 (bytes.take 2)
  if declared < 0 then throw (.malformed (.negativePendingCount declared))
  let pendingCount := declared.toInt.toNat
  let headerSize := 2 + 2 * pendingCount
  if size < headerSize then throw (.malformed (.truncatedHeader headerSize size))
  let bodySize := size - headerSize
  if bodySize % Shard.wireSize ≠ 0 then throw (.malformed (.unevenBody bodySize))
  let count := bodySize / Shard.wireSize
  if count < pendingCount then throw (.malformed (.morePendingThanShards pendingCount count))
  let pending ← readIndices count #[] pendingCount (bytes.drop 2)
  let shards ← readShards #[] pending.toList count (bytes.drop headerSize)
  ofSorted? shards

end ShardCounter.Context
