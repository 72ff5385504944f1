import ShardCounter.Replica.Id
/-! A shard is what one replica contributed to a counter: its cumulative count as of a logical
clock. A record with a higher clock supersedes an older one of the same replica; it never adds. -/
namespace ShardCounter

structure Shard where
  id : ReplicaId
  clock : UInt64
  count : Int64
deriving DecidableEq

namespace Shard

def wireSize : Nat := 32

def isPending (s : Shard) : Bool := s.id.isPending

def toStable (s : Shard) : Shard := { s with id := s.id.toStable }

/-- Identity, clock and count; the pending flag travels apart from the shard. -/
def encode (s : Shard) : Bytes :=
  s.id.bytes.toList ++ Bytes.ofUInt64 s.clock ++ Bytes.ofInt64 s.count

def decode (isPending : Bool) (bytes : Bytes) : Shard where
  id := ⟨Bytes.toVector 16 bytes, isPending⟩
  clock := Bytes.toUInt64 ((bytes.drop 16).take 8)
  count := Bytes.toInt64 ((bytes.drop 24).take 8)

@[simp] theorem length_encode (s : Shard) : s.encode.length = wireSize := by
  simp [encode, wireSize]

def describe (s : Shard) : String :=
  "ShardRecord \x7b id: " ++ s.id.describe ++ ", clock: " ++ toString s.clock ++ ", count: " ++
    toString s.count ++ " \x7d"

end Shard
end ShardCounter
