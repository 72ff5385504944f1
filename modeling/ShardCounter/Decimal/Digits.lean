/-! Numbers spelled in base ten, with ASCII digits only. -/
namespace ShardCounter.Decimal

def isDigit (c : Char) : Bool := '0' ≤ c && c ≤ '9'

def digitValue (c : Char) : Nat := c.toNat - 48

def natValue (digits : List Char) : Nat :=
  digits.foldl (fun n c => 10 * n + digitValue c) 0

/-- The number spelled by one digit or more, leading zeros included, with nothing after them. -/
def digits? (text : List Char) : Option Nat :=
  if text.isEmpty || !text.all isDigit then none else some (natValue text)

def nat? : List Char → Option Nat
  | '+' :: rest => digits? rest
  | text => digits? text

def int? : List Char → Option Int
  | '-' :: rest => (digits? rest).map fun n => -(n : Int)
  | text => (nat? text).map fun n => (n : Int)

end ShardCounter.Decimal
