import ShardCounter.Bytes
/-! Reading UTF-8 without failing: each maximal ill-formed part of the input becomes one
replacement character, so the text of well-formed input is exact. -/
namespace ShardCounter.Utf8

/-- What a leading byte promises: its payload bits, how many bytes follow, and the range allowed
for the first of them, which rules out overlong forms, surrogates and values past U+10FFFF. -/
structure Lead where
  payload : Nat
  following : Nat
  low : UInt8 := 0x80
  high : UInt8 := 0xBF

def lead? (b : UInt8) : Option Lead :=
  let n := b.toNat
  if n < 0x80 then some { payload := n, following := 0 }
  else if n < 0xC2 then none
  else if n < 0xE0 then some { payload := n - 0xC0, following := 1 }
  else if n = 0xE0 then some { payload := 0, following := 2, low := 0xA0 }
  else if n = 0xED then some { payload := 0xD, following := 2, high := 0x9F }
  else if n < 0xF0 then some { payload := n - 0xE0, following := 2 }
  else if n = 0xF0 then some { payload := 0, following := 3, low := 0x90 }
  else if n < 0xF4 then some { payload := n - 0xF0, following := 3 }
  else if n = 0xF4 then some { payload := 4, following := 3, high := 0x8F }
  else none

def replacement : Char := Char.ofNat 0xFFFD

def finish : Nat → UInt8 → UInt8 → Nat → Bytes → Char × Bytes
  | 0, _, _, payload, rest => (Char.ofNat payload, rest)
  | _ + 1, _, _, _, [] => (replacement, [])
  | following + 1, low, high, payload, b :: rest =>
    if low ≤ b ∧ b ≤ high then
      finish following 0x80 0xBF (payload * 64 + b.toNat % 64) rest
    else (replacement, b :: rest)

theorem length_finish_le (following : Nat) (low high : UInt8) (payload : Nat) (bytes : Bytes) :
    (finish following low high payload bytes).2.length ≤ bytes.length := by
  fun_induction finish following low high payload bytes with
  | case1 => simp
  | case2 => simp
  | case3 _ _ _ _ _ _ _ ih => exact Nat.le_succ_of_le ih
  | case4 => simp

def next (b : UInt8) (rest : Bytes) : Char × Bytes :=
  match lead? b with
  | some lead => finish lead.following lead.low lead.high lead.payload rest
  | none => (replacement, rest)

theorem length_next_le (b : UInt8) (rest : Bytes) : (next b rest).2.length ≤ rest.length := by
  unfold next
  split
  · exact length_finish_le ..
  · simp

def decodeInto (read : String) : Bytes → String
  | [] => read
  | b :: rest => decodeInto (read.push (next b rest).1) (next b rest).2
termination_by bytes => bytes.length
decreasing_by exact Nat.lt_succ_of_le (length_next_le b rest)

def decode (bytes : Bytes) : String := decodeInto "" bytes

def encode (text : String) : Bytes := text.toUTF8.toList

end ShardCounter.Utf8
