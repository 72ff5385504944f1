import ShardCounter.Json.Token
/-! JSON documents. The reader takes one token after another and keeps the arrays and objects it is
inside of on a stack, so that nesting costs no recursion; it stops at `maxDepth`. -/
namespace ShardCounter

inductive Json where
  | null
  | boolean (value : Bool)
  | integer (value : Int)
  /-- A number that is no integer of 64 bits, as it was spelled. -/
  | real (spelling : String)
  | string (value : String)
  | array (items : List Json)
  /-- Fields in the order of writing. The reader gives each key once, in ascending order. -/
  | object (fields : List (String × Json))

namespace Json

def maxDepth : Nat := 127

/-- Sets a field; of two with the same key the later one stays. -/
def setField (key : String) (value : Json) : List (String × Json) → List (String × Json)
  | [] => [(key, value)]
  | (k, v) :: rest =>
    if key < k then (key, value) :: (k, v) :: rest
    else if key = k then (key, value) :: rest
    else (k, v) :: setField key value rest

/-- An array or object not yet closed; an object knows the key it read last. -/
inductive Frame where
  | array (items : Array Json)
  | object (fields : List (String × Json)) (key : String)

inductive Due where
  | value
  | itemOrEnd
  | keyOrEnd
  | key
  | colon
  | separator
  | nothing (document : Json)

structure Machine where
  stack : List Frame
  due : Due

namespace Machine

def start : Machine := ⟨[], .value⟩

def openFrame? (stack : List Frame) (frame : Frame) (due : Due) : Option Machine :=
  if stack.length < maxDepth then some ⟨frame :: stack, due⟩ else none

def give (value : Json) : List Frame → Machine
  | [] => ⟨[], .nothing value⟩
  | .array items :: stack => ⟨.array (items.push value) :: stack, .separator⟩
  | .object fields key :: stack => ⟨.object (setField key value fields) key :: stack, .separator⟩

/-- A value starts here: a whole one, or an array or object that is only opened. -/
def begin? (stack : List Frame) : Token → Option Machine
  | .null => some (give .null stack)
  | .boolean value => some (give (.boolean value) stack)
  | .number (.integer value) => some (give (.integer value) stack)
  | .number (.real spelling) => some (give (.real spelling) stack)
  | .text value => some (give (.string value) stack)
  | .openArray => openFrame? stack (.array #[]) .itemOrEnd
  | .openObject => openFrame? stack (.object [] "") .keyOrEnd
  | .closeArray | .closeObject | .comma | .colon => none

def step? (m : Machine) (token : Token) : Option Machine :=
  match m.due, token, m.stack with
  | .itemOrEnd, .closeArray, .array items :: stack => some (give (.array items.toList) stack)
  | .separator, .closeArray, .array items :: stack => some (give (.array items.toList) stack)
  | .separator, .comma, .array items :: stack => some ⟨.array items :: stack, .value⟩
  | .keyOrEnd, .closeObject, .object fields _ :: stack => some (give (.object fields) stack)
  | .separator, .closeObject, .object fields _ :: stack => some (give (.object fields) stack)
  | .separator, .comma, .object fields key :: stack => some ⟨.object fields key :: stack, .key⟩
  | .keyOrEnd, .text key, .object fields _ :: stack => some ⟨.object fields key :: stack, .colon⟩
  | .key, .text key, .object fields _ :: stack => some ⟨.object fields key :: stack, .colon⟩
  | .colon, .colon, stack => some ⟨stack, .value⟩
  | .value, token, stack => begin? stack token
  | .itemOrEnd, token, stack => begin? stack token
  | _, _, _ => none

end Machine

def parse? (text : String) : Option Json := do
  let tokens ← Token.scan text
  match (← tokens.foldlM Machine.step? Machine.start).due with
  | .nothing document => return document
  | _ => none

end Json
end ShardCounter
