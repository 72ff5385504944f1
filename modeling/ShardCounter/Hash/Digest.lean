import ShardCounter.Hash.Sha256
import ShardCounter.Text.Hex
/-! Digests of byte strings, ordered byte by byte. -/
namespace ShardCounter

structure Digest where
  bytes : Vector UInt8 32
deriving DecidableEq

namespace Digest

instance : Ord Digest where
  compare a b := compare a.bytes b.bytes

def ofInput (input : Bytes) : Digest := ⟨Bytes.toVector 32 (Sha256.hash input)⟩

def hex (d : Digest) : String := Hex.encode d.bytes.toList

def short (d : Digest) : String := Hex.encode (d.bytes.toList.take 4)

def describe (d : Digest) : String := "Digest(" ++ d.short ++ "...)"

end Digest
end ShardCounter
