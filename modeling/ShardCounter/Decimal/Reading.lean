import ShardCounter.Decimal.Digits
/-! Reading decimal text as a double: an optional sign, and then digits with at most one point among
them and an optional exponent, or the name of an infinity or of what is no number. -/
namespace ShardCounter.Decimal

def exponent? : List Char → Option Int
  | [] => some 0
  | mark :: rest => if mark = 'e' ∨ mark = 'E' then int? rest else none

/-- The double nearest to the digits times a power of ten. Far outside the range of a double it is
known without computing the power. -/
def scale (digits : List Char) (exponent : Int) : Float :=
  let significant := digits.dropWhile (· = '0')
  let magnitude : Int := significant.length + exponent
  if significant.isEmpty || magnitude < -330 then 0
  else if 310 < magnitude then 1.0 / 0.0
  else Float.ofScientific (natValue significant) (exponent < 0) exponent.natAbs

def magnitude? (text : List Char) : Option Float := do
  let lower := text.map Char.toLower
  if lower = "inf".toList ∨ lower = "infinity".toList then return 1.0 / 0.0
  if lower = "nan".toList then return 0.0 / 0.0
  let whole := text.takeWhile isDigit
  let rest := text.dropWhile isDigit
  let (fraction, rest) := match rest with
    | '.' :: rest => (rest.takeWhile isDigit, rest.dropWhile isDigit)
    | rest => ([], rest)
  if whole.isEmpty && fraction.isEmpty then none
  let exponent ← exponent? rest
  return scale (whole ++ fraction) (exponent - fraction.length)

def float? (text : String) : Option Float :=
  match text.toList with
  | '-' :: rest => (magnitude? rest).map fun x => -x
  | '+' :: rest => magnitude? rest
  | rest => magnitude? rest

end ShardCounter.Decimal
