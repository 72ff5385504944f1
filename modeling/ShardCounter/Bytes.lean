/-! Byte strings and fixed-width big-endian words. Signed words are in two's complement. -/
namespace ShardCounter

abbrev Bytes := List UInt8

namespace Bytes

def bigEndian : Nat → Nat → Bytes
  | 0, _ => []
  | width + 1, n => bigEndian width (n / 256) ++ [UInt8.ofNat n]

def value (bytes : Bytes) : Nat :=
  bytes.foldl (fun n b => n * 256 + b.toNat) 0

@[simp] theorem length_bigEndian (width n : Nat) : (bigEndian width n).length = width := by
  induction width generalizing n with
  | zero => rfl
  | succ width ih => simp [bigEndian, ih]

theorem value_append_singleton (bytes : Bytes) (b : UInt8) :
    value (bytes ++ [b]) = value bytes * 256 + b.toNat := by
  simp [value]

def ofUInt64 (word : UInt64) : Bytes := bigEndian 8 word.toNat

def toUInt64 (bytes : Bytes) : UInt64 := UInt64.ofNat (value bytes)

def ofInt64 (word : Int64) : Bytes := ofUInt64 word.toUInt64

def toInt64 (bytes : Bytes) : Int64 := (toUInt64 bytes).toInt64

def ofInt32 (word : Int32) : Bytes := bigEndian 4 word.toUInt32.toNat

def toInt32 (bytes : Bytes) : Int32 := (UInt32.ofNat (value bytes)).toInt32

def toInt16 (bytes : Bytes) : Int16 := (UInt16.ofNat (value bytes)).toInt16

/-- The first `n` bytes; where the input ends early the rest is zero. -/
def toVector (n : Nat) (bytes : Bytes) : Vector UInt8 n :=
  Vector.ofFn fun i => bytes.getD i 0

@[simp] theorem length_ofUInt64 (word : UInt64) : (ofUInt64 word).length = 8 :=
  length_bigEndian 8 _

@[simp] theorem length_ofInt64 (word : Int64) : (ofInt64 word).length = 8 :=
  length_bigEndian 8 _

@[simp] theorem length_ofInt32 (word : Int32) : (ofInt32 word).length = 4 :=
  length_bigEndian 4 _

end Bytes
end ShardCounter
