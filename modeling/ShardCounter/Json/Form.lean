import ShardCounter.Context.Error
import ShardCounter.Json.Printer
/-! Types with a JSON form. Writing gives a record's fields in declared order. Reading takes them
from an object, in any order and with others among them, or from an array of exactly the fields in
declared order. Integers must be spelled as such and fit their type. -/
namespace ShardCounter

inductive JsonError where
  | malformed
  /-- The document has another form than the values of the type. -/
  | mismatch
  | context (error : ContextError)
deriving DecidableEq

class JsonForm (α : Type) where
  toJson : α → Json
  ofJson : Json → Except JsonError α

export JsonForm (toJson)

namespace JsonForm

variable {α : Type} [JsonForm α]

def write (value : α) : String := (toJson value).render

def read (text : String) : Except JsonError α :=
  match Json.parse? text with
  | some document => ofJson document
  | none => .error .malformed

def field (fields : List (String × Json)) (key : String) : Except JsonError α :=
  match fields.lookup key with
  | some value => ofJson value
  | none => .error .mismatch

def next : List Json → Except JsonError (α × List Json)
  | [] => .error .mismatch
  | item :: rest => return (← ofJson item, rest)

def noMore : List Json → Except JsonError Unit
  | [] => .ok ()
  | _ :: _ => .error .mismatch

def integer (low high : Int) : Json → Except JsonError Int
  | .integer value => if low ≤ value ∧ value ≤ high then .ok value else .error .mismatch
  | _ => .error .mismatch

end JsonForm

open JsonForm

instance : JsonForm Bool where
  toJson value := .boolean value
  ofJson
    | .boolean value => .ok value
    | _ => .error .mismatch

instance : JsonForm UInt8 where
  toJson n := .integer n.toNat
  ofJson j := (fun n => UInt8.ofNat n.toNat) <$> integer 0 255 j

instance : JsonForm UInt64 where
  toJson n := .integer n.toNat
  ofJson j := (fun n => UInt64.ofNat n.toNat) <$> integer 0 18446744073709551615 j

instance : JsonForm Int32 where
  toJson n := .integer n.toInt
  ofJson j := Int32.ofInt <$> integer (-2147483648) 2147483647 j

instance : JsonForm Int64 where
  toJson n := .integer n.toInt
  ofJson j := Int64.ofInt <$> integer (-9223372036854775808) 9223372036854775807 j

instance {α : Type} [JsonForm α] : JsonForm (List α) where
  toJson items := .array (items.map toJson)
  ofJson
    | .array items => items.mapM ofJson
    | _ => .error .mismatch

instance {α : Type} [JsonForm α] {n : Nat} : JsonForm (Vector α n) where
  toJson items := .array (items.toList.map toJson)
  ofJson j := do
    let items : List α ← ofJson j
    if h : items.toArray.size = n then return ⟨items.toArray, h⟩ else throw .mismatch

instance {α : Type} [JsonForm α] : JsonForm (Option α) where
  toJson
    | none => .null
    | some value => toJson value
  ofJson
    | .null => .ok none
    | j => some <$> ofJson j

end ShardCounter
