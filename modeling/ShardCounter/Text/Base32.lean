/-! Crockford's base 32, the text form of a 128-bit sortable identifier. Digits sort as their
values do, so the order of texts is the order of identifiers. -/
namespace ShardCounter.Base32

/-- The letters I, L, O and U are left out. -/
def alphabet : Vector Char 32 :=
  #v['0', '1', '2', '3', '4', '5', '6', '7', '8', '9', 'A', 'B', 'C', 'D', 'E', 'F', 'G', 'H',
    'J', 'K', 'M', 'N', 'P', 'Q', 'R', 'S', 'T', 'V', 'W', 'X', 'Y', 'Z']

def digit (n : Nat) : Char := alphabet[n % 32]

def digits : Nat → Nat → List Char
  | 0, _ => []
  | width + 1, n => digits width (n / 32) ++ [digit n]

/-- A 128-bit number fills 26 digits, the first of them below eight. -/
def text128 (n : Nat) : String := String.ofList (digits 26 n)

end ShardCounter.Base32
