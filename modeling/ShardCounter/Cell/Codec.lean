import ShardCounter.Cell.Basic
import ShardCounter.Cell.Error
import ShardCounter.Context.Codec
/-! The wire form of cells. A mask byte tells a counter from a tombstone; names and contexts follow
their length, and words are big-endian. Reading consumes its input to the last byte. -/
namespace ShardCounter

/-- Where bytes were written. Pending marks of another process mean nothing here, so they are
cleared as soon as its context is read. -/
inductive Origin where
  | ownProcess
  | remote
deriving DecidableEq

def Origin.name : Origin → String
  | .ownProcess => "Local"
  | .remote => "FromRemote"

def counterMask : UInt8 := 0x04

def tombstoneMask : UInt8 := 0x01

/-- The input that is left, and how far it lies from the start. -/
structure Reader where
  offset : Nat
  rest : Bytes

namespace Reader

abbrev Read (α : Type) := StateT Reader (Except CellError) α

def take (size : Nat) : Read Bytes := fun r =>
  let left := r.rest.length
  if size ≤ left then .ok (r.rest.take size, ⟨r.offset + size, r.rest.drop size⟩)
  else .error (.malformed (.truncated size r.offset left))

def run {α : Type} (read : Read α) (input : Bytes) : Except CellError α := do
  let (result, r) ← read ⟨0, input⟩
  if r.rest.isEmpty then return result
  else throw (.malformed (.trailingBytes r.rest.length))

def nat (size : Nat) : Read Nat := Bytes.value <$> take size

def int64 : Read Int64 := Bytes.toInt64 <$> take 8

def int32 : Read Int32 := Bytes.toInt32 <$> take 4

def name : Read CellName := do
  let size ← nat 2
  return ⟨← take size⟩

def context (origin : Origin) : Read Context := do
  let size ← nat 4
  match Context.decode (← take size) with
  | .error e => throw (.context e)
  | .ok context =>
    return match origin with
      | .ownProcess => context
      | .remote => context.clearPending

def counter (origin : Origin) : Read Counter := do
  let name ← name
  let context ← context origin
  let writtenAt ← int64
  let lastDelete ← int64
  return { name, context, writtenAt, lastDelete }

def tombstone : Read Tombstone := do
  let name ← name
  let deletedAt ← int64
  let localTime ← int32
  return { name, localTime, deletedAt }

def cell (origin : Origin) : Read Cell := do
  let mask := UInt8.ofNat (← nat 1)
  if mask = counterMask then return .counter (← counter origin)
  else if mask = tombstoneMask then return .tombstone (← tombstone)
  else throw (.malformed (.unknownMask mask))

end Reader

def CellName.encode (name : CellName) : Except CellError Bytes :=
  if maxNameSize < name.size then .error (.malformed (.nameTooLong name.size))
  else .ok (Bytes.bigEndian 2 name.size ++ name.bytes)

namespace Counter

def encodedSize (c : Counter) : Nat := 2 + c.name.size + 4 + c.context.encodedSize + 16

def encode (c : Counter) : Except CellError Bytes := do
  let name ← c.name.encode
  let size := c.context.encodedSize
  if maxContextSize < size then throw (.malformed .contextTooLarge)
  return name ++ Bytes.bigEndian 4 size ++ c.context.encode ++ Bytes.ofInt64 c.writtenAt ++
    Bytes.ofInt64 c.lastDelete

def decode (origin : Origin) (bytes : Bytes) : Except CellError Counter :=
  Reader.run (Reader.counter origin) bytes

end Counter

namespace Cell

def encode : Cell → Except CellError Bytes
  | .counter c => return counterMask :: (← c.encode)
  | .tombstone t => do
    let name ← t.name.encode
    return tombstoneMask :: name ++ Bytes.ofInt64 t.deletedAt ++ Bytes.ofInt32 t.localTime

def decode (origin : Origin) (bytes : Bytes) : Except CellError Cell :=
  Reader.run (Reader.cell origin) bytes

end Cell
end ShardCounter
