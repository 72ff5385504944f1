import ShardCounter.Cell.Name
import ShardCounter.Context.Error
/-! Why a cell cannot be read, written or reconciled, and the wording of each reason. -/
namespace ShardCounter

/-- Names and contexts carry 16-bit and 32-bit length fields. -/
def maxNameSize : Nat := 65535

def maxContextSize : Nat := 4294967295

inductive CellMalformation where
  | truncated (needed offset left : Nat)
  | trailingBytes (count : Nat)
  | unknownMask (mask : UInt8)
  | nameTooLong (size : Nat)
  | contextTooLarge
deriving DecidableEq

def CellMalformation.message : CellMalformation → String
  | .truncated needed offset left => s!"needed {needed} bytes at offset {offset}, only {left} left"
  | .trailingBytes count => s!"{count} trailing bytes"
  | .unknownMask mask => "unknown cell mask 0x" ++ Hex.encode [mask]
  | .nameTooLong size => s!"name of {size} bytes exceeds {maxNameSize}"
  | .contextTooLarge => "context too large"

inductive CellError where
  | nameMismatch (left right : CellName)
  | malformed (reason : CellMalformation)
  | context (error : ContextError)
deriving DecidableEq

def CellError.message : CellError → String
  | .nameMismatch left right =>
    "Cannot reconcile cell " ++ left.describe ++ " with cell " ++ right.describe
  | .malformed reason => "Malformed cell: " ++ reason.message
  | .context error => error.message

end ShardCounter
