import ShardCounter.Replica.Id
/-! Minting pending ids. An id is the node's identity followed by a sequence number, so ids of
different nodes never meet, and those of one node ascend until the sequence wraps. -/
namespace ShardCounter

structure MinterConfig where
  nodeId : Option UInt64 := none
deriving DecidableEq

structure Minter where
  nodeId : UInt64
  sequence : UInt64
deriving DecidableEq

namespace Minter

/-- Each microsecond of wall-clock time owns 1024 sequence numbers, so that a restarted process
starts past every id it minted before. -/
def startingAt (nodeId micros : UInt64) : Minter := ⟨nodeId, micros <<< 10⟩

def idBytes (nodeId sequence : UInt64) : Bytes :=
  Bytes.ofUInt64 nodeId ++ Bytes.ofUInt64 sequence

def mint (m : Minter) : ReplicaId × Minter :=
  (.pending (Bytes.toVector 16 (idBytes m.nodeId m.sequence)),
    { m with sequence := m.sequence + 1 })

def mintMany (m : Minter) : Nat → List ReplicaId × Minter
  | 0 => ([], m)
  | count + 1 =>
    let (id, next) := m.mint
    let (ids, last) := next.mintMany count
    (id :: ids, last)

/-- A process has one minter: the first one installed stays. The flag tells whether this call
installed the candidate. -/
def install (current : Option Minter) (candidate : Minter) : Minter × Bool :=
  match current with
  | some installed => (installed, false)
  | none => (candidate, true)

end Minter
end ShardCounter
