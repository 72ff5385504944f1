import ShardCounter.Text.Quoted
import ShardCounter.Text.Utf8
/-! The key of a cell within its row: any bytes, shown as text as far as they are text. -/
namespace ShardCounter

structure CellName where
  bytes : Bytes
deriving DecidableEq

namespace CellName

instance : Ord CellName where
  compare a b := compare a.bytes b.bytes

def ofString (text : String) : CellName := ⟨Utf8.encode text⟩

def size (name : CellName) : Nat := name.bytes.length

def isEmpty (name : CellName) : Bool := name.bytes.isEmpty

def text (name : CellName) : String := Utf8.decode name.bytes

def describe (name : CellName) : String := "CellName(" ++ Quoted.encode name.text ++ ")"

end CellName
end ShardCounter
