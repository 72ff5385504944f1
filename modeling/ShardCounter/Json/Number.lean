import ShardCounter.Decimal.Digits
/-! Numbers in JSON text. An integer of 64 bits, signed or unsigned, has its value; any other number
keeps its spelling, and is refused where a double could not hold it. -/
namespace ShardCounter.Json
open Decimal

inductive Number where
  | integer (value : Int)
  | real (spelling : String)
deriving DecidableEq

namespace Number

def isPart (c : Char) : Bool :=
  isDigit c || c = '+' || c = '-' || c = '.' || c = 'e' || c = 'E'

structure Parts where
  isNegative : Bool
  whole : List Char
  fraction : List Char := []
  exponent : Int := 0
  isInteger : Bool := true

def tail? (isNegative : Bool) (whole : List Char) : List Char → Option Parts
  | [] => some { isNegative, whole }
  | '.' :: rest =>
    let fraction := rest.takeWhile isDigit
    if fraction.isEmpty then none
    else match rest.dropWhile isDigit with
      | [] => some { isNegative, whole, fraction, isInteger := false }
      | mark :: power => exponent? fraction mark power
  | mark :: power => exponent? [] mark power
where
  exponent? (fraction : List Char) (mark : Char) (power : List Char) : Option Parts :=
    if mark = 'e' ∨ mark = 'E' then
      (int? power).map fun exponent =>
        { isNegative, whole, fraction, exponent, isInteger := false }
    else none

/-- The whole part has a digit, and starts with a zero only if that is all of it. -/
def unsigned? (isNegative : Bool) (text : List Char) : Option Parts :=
  match text.takeWhile isDigit, text.dropWhile isDigit with
  | [], _ => none
  | '0' :: _ :: _, _ => none
  | whole, rest => tail? isNegative whole rest

def parts? : List Char → Option Parts
  | '-' :: rest => unsigned? true rest
  | text => unsigned? false text

def appendDigits (significand count : Nat) : List Char → Nat × Nat
  | [] => (significand, count)
  | c :: rest =>
    let next := 10 * significand + digitValue c
    if next < UInt64.size then appendDigits next (count + 1) rest else (significand, count)

def power (exponent : Nat) : Float := Float.ofScientific 1 false exponent

/-- Whether a double can hold the significand times a power of ten. Both factors are rounded before
the product is. -/
def isFinite (significand : Nat) (exponent : Int) : Bool :=
  significand = 0 || exponent < 0 ||
    (exponent ≤ 308 && (Float.ofNat significand * power exponent.toNat).isFinite)

/-- A whole digit past 64 bits still counts for the magnitude, a fractional one does not. -/
def Parts.isFinite (p : Parts) : Bool :=
  let (whole, wholeCount) := appendDigits 0 0 p.whole
  let (significand, fractionCount) := appendDigits whole 0 p.fraction
  Number.isFinite significand (p.exponent + (p.whole.length - wholeCount) - fractionCount)

/-- A negative zero is no integer, since no integer keeps its sign. -/
def integer? (p : Parts) : Option Int :=
  let magnitude := natValue p.whole
  if !p.isInteger then none
  else if p.isNegative then
    if 0 < magnitude ∧ magnitude ≤ 9223372036854775808 then some (-magnitude) else none
  else if magnitude < UInt64.size then some magnitude else none

def ofChars? (text : List Char) : Option Number := do
  let p ← parts? text
  match integer? p with
  | some value => return .integer value
  | none => if p.isFinite then return .real (String.ofList text) else none

end Number
end ShardCounter.Json
