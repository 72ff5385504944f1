import ShardCounter.Json.Value
/-! JSON text without blanks. Of characters only quotes, backslashes and controls are escaped. -/
namespace ShardCounter.Json

def unitDigits (n : Nat) : List Char :=
  Hex.byteDigits (UInt8.ofNat (n / 256)) ++ Hex.byteDigits (UInt8.ofNat n)

def escapeChar (c : Char) : List Char :=
  match c with
  | '"' => ['\\', '"']
  | '\\' => ['\\', '\\']
  | '\x08' => ['\\', 'b']
  | '\x0C' => ['\\', 'f']
  | '\n' => ['\\', 'n']
  | '\r' => ['\\', 'r']
  | '\t' => ['\\', 't']
  | _ => if c.toNat < 0x20 then '\\' :: 'u' :: unitDigits c.toNat else [c]

def quote (text : String) : String := String.ofList ('"' :: text.toList.flatMap escapeChar ++ ['"'])

mutual

def renderAfter (out : String) : Json → String
  | .null => out ++ "null"
  | .boolean value => out ++ if value then "true" else "false"
  | .integer value => out ++ toString value
  | .real spelling => out ++ spelling
  | .string value => out ++ quote value
  | .array items => renderItems (out.push '[') items |>.push ']'
  | .object fields => renderFields (out.push '\x7b') fields |>.push '\x7d'

def renderItems (out : String) : List Json → String
  | [] => out
  | [item] => renderAfter out item
  | item :: next :: rest => renderItems ((renderAfter out item).push ',') (next :: rest)

def renderFields (out : String) : List (String × Json) → String
  | [] => out
  | [(key, value)] => renderAfter (out ++ quote key ++ ":") value
  | (key, value) :: next :: rest =>
    renderFields ((renderAfter (out ++ quote key ++ ":") value).push ',') (next :: rest)

end

def render (document : Json) : String := renderAfter "" document

end ShardCounter.Json
