import ShardCounter.Cell.Codec
import ShardCounter.Hash.Digest
/-! Digests of cells, by which replicas check that they agree. Pending marks are cleared first, so a
replica that minted a shard and one that received it hash the same bytes. -/
namespace ShardCounter

def Counter.digestInput (c : Counter) : Bytes :=
  c.context.clearPending.encode ++ Bytes.ofInt64 c.writtenAt ++ Bytes.ofInt64 c.lastDelete ++
    c.name.bytes

def Tombstone.digestInput (t : Tombstone) : Bytes :=
  tombstoneMask :: Bytes.ofInt64 t.deletedAt ++ Bytes.ofInt32 t.localTime ++ t.name.bytes

def Cell.digestInput : Cell → Bytes
  | .counter c => c.digestInput
  | .tombstone t => t.digestInput

def Cell.digest (c : Cell) : Digest := .ofInput c.digestInput

end ShardCounter
