import ShardCounter.Bytes
/-! Lowercase hexadecimal text of byte strings. -/
namespace ShardCounter.Hex

def digit (n : Nat) : Char :=
  if n < 10 then Char.ofNat (48 + n) else Char.ofNat (87 + n)

def byteDigits (b : UInt8) : List Char := [digit (b.toNat / 16), digit (b.toNat % 16)]

def encode (bytes : Bytes) : String := String.ofList (bytes.flatMap byteDigits)

def digitValue? (c : Char) : Option Nat :=
  if '0' ≤ c ∧ c ≤ '9' then some (c.toNat - 48)
  else if 'a' ≤ c ∧ c ≤ 'f' then some (c.toNat - 87)
  else if 'A' ≤ c ∧ c ≤ 'F' then some (c.toNat - 55)
  else none

/-- Two digits make a byte; an odd digit left over or a foreign character refuses the text. -/
def decodeInto? (read : Array UInt8) : List Char → Option (Array UInt8)
  | [] => some read
  | [_] => none
  | high :: low :: rest => do
    let h ← digitValue? high
    let l ← digitValue? low
    decodeInto? (read.push (UInt8.ofNat (16 * h + l))) rest

def decode? (text : String) : Option Bytes :=
  (decodeInto? #[] text.toList).map Array.toList

def natDigits (n : Nat) : String := String.ofList (Nat.toDigits 16 n)

end ShardCounter.Hex
