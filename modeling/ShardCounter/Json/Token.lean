import ShardCounter.Json.Number
import ShardCounter.Text.Hex
/-! The words of JSON text: marks, constants, numbers and strings. Blanks between them are dropped;
each string is read to its closing quote, with its escapes resolved. -/
namespace ShardCounter.Json

inductive Token where
  | openArray
  | closeArray
  | openObject
  | closeObject
  | comma
  | colon
  | null
  | boolean (value : Bool)
  | number (value : Number)
  | text (value : String)
deriving DecidableEq

namespace Token

def isBlank (c : Char) : Bool := c = ' ' || c = '\t' || c = '\n' || c = '\r'

def unit? : List Char → Option (Nat × List Char)
  | a :: b :: c :: d :: rest => do
    let n := 16 * (16 * (16 * (← Hex.digitValue? a) + (← Hex.digitValue? b)) +
      (← Hex.digitValue? c)) + (← Hex.digitValue? d)
    return (n, rest)
  | _ => none

def escaped? : Char → Option Char
  | '"' => some '"'
  | '\\' => some '\\'
  | '/' => some '/'
  | 'b' => some '\x08'
  | 'f' => some '\x0C'
  | 'n' => some '\n'
  | 'r' => some '\r'
  | 't' => some '\t'
  | _ => none

def surrogates? (high low : Nat) : Option Char :=
  if 0xD800 ≤ high ∧ high < 0xDC00 ∧ 0xDC00 ≤ low ∧ low < 0xE000 then
    some (Char.ofNat (0x10000 + 0x400 * (high - 0xD800) + (low - 0xDC00)))
  else none

def escape? : List Char → Option (Char × List Char)
  | 'u' :: rest => do
    let (unit, rest) ← unit? rest
    if 0xD800 ≤ unit ∧ unit < 0xE000 then
      match rest with
      | '\\' :: 'u' :: rest =>
        let (low, rest) ← unit? rest
        return (← surrogates? unit low, rest)
      | _ => none
    else return (Char.ofNat unit, rest)
  | c :: rest => (escaped? c).map (·, rest)
  | [] => none

theorem length_unit? {text rest : List Char} {n : Nat} (h : unit? text = some (n, rest)) :
    rest.length < text.length := by
  unfold unit? at h
  split at h
  · simp only [Option.bind_eq_bind, Option.bind_eq_some_iff] at h
    obtain ⟨_, _, _, _, _, _, _, _, h⟩ := h
    cases h
    simp only [List.length_cons]
    omega
  · cases h

theorem length_escape? {text rest : List Char} {c : Char} (h : escape? text = some (c, rest)) :
    rest.length < text.length := by
  unfold escape? at h
  split at h
  · simp only [Option.bind_eq_bind, Option.bind_eq_some_iff] at h
    obtain ⟨⟨unit, first⟩, hfirst, h⟩ := h
    have := length_unit? hfirst
    dsimp only at h
    split at h
    · split at h
      · simp only [Option.bind_eq_some_iff] at h
        obtain ⟨⟨low, second⟩, hsecond, _, _, h⟩ := h
        have := length_unit? hsecond
        cases h
        simp only [List.length_cons] at *
        omega
      · cases h
    · cases h
      simp only [List.length_cons]
      omega
  · obtain ⟨_, _, h⟩ := Option.map_eq_some_iff.1 h
    cases h
    simp
  · cases h

/-- A string up to its closing quote, and what follows it. Control characters must be escaped. -/
def string? (read : String) : List Char → Option (String × List Char)
  | [] => none
  | '"' :: rest => some (read, rest)
  | '\\' :: rest =>
    match h : escape? rest with
    | some (c, after) =>
      have := length_escape? h
      string? (read.push c) after
    | none => none
  | c :: rest => if c.toNat < 0x20 then none else string? (read.push c) rest
termination_by text => text.length
decreasing_by
  · simp only [List.length_cons]; omega
  · simp

theorem length_string? {read value : String} {text rest : List Char}
    (h : string? read text = some (value, rest)) : rest.length < text.length := by
  fun_induction string? read text with
  | case1 => cases h
  | case2 => cases h; simp
  | case3 read rest c after hescape shorter ih =>
    have := ih h
    simp only [List.length_cons]
    omega
  | case4 => cases h
  | case5 => cases h
  | case6 read c rest _ _ _ ih =>
    have := ih h
    simp only [List.length_cons]
    omega

def next? (c : Char) (rest : List Char) : Option (Token × List Char) :=
  match c, rest with
  | '[', rest => some (openArray, rest)
  | ']', rest => some (closeArray, rest)
  | '{', rest => some (openObject, rest)
  | '}', rest => some (closeObject, rest)
  | ',', rest => some (comma, rest)
  | ':', rest => some (colon, rest)
  | 'n', 'u' :: 'l' :: 'l' :: rest => some (null, rest)
  | 't', 'r' :: 'u' :: 'e' :: rest => some (boolean true, rest)
  | 'f', 'a' :: 'l' :: 's' :: 'e' :: rest => some (boolean false, rest)
  | '"', rest => (string? "" rest).map fun (value, rest) => (text value, rest)
  | c, rest =>
    if Number.isPart c then
      (Number.ofChars? (c :: rest.takeWhile Number.isPart)).map fun value =>
        (number value, rest.dropWhile Number.isPart)
    else none

theorem length_next? {c : Char} {rest after : List Char} {t : Token}
    (h : next? c rest = some (t, after)) : after.length ≤ rest.length := by
  unfold next? at h
  split at h
  case h_10 =>
    obtain ⟨⟨_, _⟩, hstring, h⟩ := Option.map_eq_some_iff.1 h
    cases h
    exact Nat.le_of_lt (length_string? hstring)
  case h_11 =>
    split at h
    · obtain ⟨_, _, h⟩ := Option.map_eq_some_iff.1 h
      cases h
      exact (List.dropWhile_sublist _).length_le
    · cases h
  all_goals
    cases h
    grind

def scanInto (read : Array Token) : List Char → Option (Array Token)
  | [] => some read
  | c :: rest =>
    if isBlank c then scanInto read rest
    else match h : next? c rest with
      | some (t, after) =>
        have := length_next? h
        scanInto (read.push t) after
      | none => none
termination_by text => text.length
decreasing_by
  · simp
  · simp only [List.length_cons]; omega

def scan (input : String) : Option (Array Token) := scanInto #[] input.toList

end Token
end ShardCounter.Json
