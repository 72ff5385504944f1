import ShardCounter.Bytes
import ShardCounter.Text.Base32
/-! Replica identifiers: sixteen opaque bytes, and a flag for an id that its own process minted and
has not shared yet. The flag is no part of the identity: `order` and `sameShard` ignore it, and
`compare` uses it only between two spellings of one id. -/
namespace ShardCounter

structure ReplicaId where
  bytes : Vector UInt8 16
  isPending : Bool
deriving DecidableEq

namespace ReplicaId

def stable (bytes : Vector UInt8 16) : ReplicaId := ⟨bytes, false⟩

def pending (bytes : Vector UInt8 16) : ReplicaId := ⟨bytes, true⟩

/-- The stable id that spells a number, taken modulo 2 ^ 128. -/
def ofNat (n : Nat) : ReplicaId := stable (Bytes.toVector 16 (Bytes.bigEndian 16 n))

def toNat (id : ReplicaId) : Nat := Bytes.value id.bytes.toList

def ofUInt64 (n : UInt64) : ReplicaId := ofNat n.toNat

def ofBytes? (bytes : Bytes) : Option ReplicaId :=
  if bytes.length < 16 then none else some (stable (Bytes.toVector 16 bytes))

def toStable (id : ReplicaId) : ReplicaId := stable id.bytes

def toPending (id : ReplicaId) : ReplicaId := pending id.bytes

/-- Byte order, blind to the flag. -/
def order (a b : ReplicaId) : Ordering := compare a.bytes b.bytes

def sameShard (a b : ReplicaId) : Bool := a.bytes == b.bytes

instance : Ord ReplicaId where
  compare a b := (a.order b).then (compare a.isPending.toNat b.isPending.toNat)

def text (id : ReplicaId) : String := Base32.text128 id.toNat

def describe (id : ReplicaId) : String :=
  "ReplicaId(" ++ id.text ++ (if id.isPending then ", local)" else ")")

end ReplicaId
end ShardCounter
