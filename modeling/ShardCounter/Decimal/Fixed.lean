/-! Decimal text with a fixed number of places. A finite double is an integer times a power of two,
so it is scaled exactly and rounded once, a half to the even neighbour. -/
namespace ShardCounter.Decimal

/-- The integer nearest to a quotient; of two equally near ones the even one. -/
def roundDiv (num den : Nat) : Nat :=
  let quotient := num / den
  let twice := 2 * (num % den)
  if twice < den ∨ (twice = den ∧ quotient % 2 = 0) then quotient else quotient + 1

/-- The value `mantissa * 2 ^ exponent` in units of the last of `places` decimal places. -/
def scaled (places mantissa : Nat) (exponent : Int) : Nat :=
  roundDiv ((mantissa * Nat.pow 10 places) <<< exponent.toNat) (1 <<< (-exponent).toNat)

def padLeft (width : Nat) (fill : Char) (text : String) : String :=
  String.ofList (List.replicate (width - text.length) fill) ++ text

def place (places units : Nat) : String :=
  let unit := Nat.pow 10 places
  let whole := toString (units / unit)
  if places = 0 then whole
  else whole ++ "." ++ padLeft places '0' (toString (units % unit))

def magnitudeText (places exponent fraction : Nat) : String :=
  if exponent = 0x7FF then "inf"
  else if exponent = 0 then place places (scaled places fraction (-1074))
  else place places (scaled places (0x10000000000000 + fraction) (exponent - 1075))

/-- The sign stays where the digits round to zero; what is no number has none. -/
def fixed (places : Nat) (x : Float) : String :=
  let exponent := (x.toBits >>> 52) &&& 0x7FF
  let fraction := x.toBits &&& 0xFFFFFFFFFFFFF
  if exponent = 0x7FF ∧ fraction ≠ 0 then "NaN"
  else
    let text := magnitudeText places exponent.toNat fraction.toNat
    if x.toBits >>> 63 = 0 then text else "-" ++ text

end ShardCounter.Decimal
