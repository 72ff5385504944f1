import ShardCounter.Cell.Codec
import ShardCounter.Proofs.Context.Codec
/-! Reading back what a cell is written as. Of its own process a cell comes back as it was, and of
another one with its pending marks cleared. Only a name or a context beyond its length field cannot
be written. -/
namespace ShardCounter

namespace Reader

section primitives

variable {α β : Type} {read : Read α} {r r' : Reader} {a : α} {size : Nat} {bytes : Bytes}

theorem bind_of_ok (next : α → Read β) (h : read r = .ok (a, r')) :
    (read >>= next) r = next a r' := by
  show (read r >>= fun result => next result.1 result.2) = _
  rw [h, Except.ok_bind]

theorem bind_of_error (next : α → Read β) {e : CellError} (h : read r = .error e) :
    (read >>= next) r = .error e := by
  show (read r >>= fun result => next result.1 result.2) = _
  rw [h, Except.error_bind]

theorem map_eq (f : α → β) (read : Read α) (r : Reader) :
    (f <$> read) r = (fun result => (f result.1, result.2)) <$> read r := by
  show (read r >>= fun result => Except.ok (f result.1, result.2)) = _
  cases read r <;> rfl

theorem take_of_le (h : size ≤ r.rest.length) :
    take size r = .ok (r.rest.take size, ⟨r.offset + size, r.rest.drop size⟩) :=
  if_pos h

theorem take_of_lt (h : r.rest.length < size) :
    take size r = .error (.malformed (.truncated size r.offset r.rest.length)) :=
  if_neg (not_le.mpr h)

theorem take_eq_ok (h : take size r = .ok (bytes, r')) :
    size ≤ r.rest.length ∧ bytes = r.rest.take size ∧ r' = ⟨r.offset + size, r.rest.drop size⟩ := by
  rcases Nat.lt_or_ge r.rest.length size with hlt | hle
  · rw [take_of_lt hlt] at h
    contradiction
  · rw [take_of_le hle] at h
    cases h
    exact ⟨hle, rfl, rfl⟩

theorem read_of_run (h : run read bytes = .ok a) :
    ∃ offset, read ⟨0, bytes⟩ = .ok (a, ⟨offset, []⟩) := by
  obtain ⟨⟨a', offset, rest⟩, hread, h⟩ := Except.bind_eq_ok_iff.mp h
  dsimp only at h
  split at h
  · rename_i hempty
    cases h
    rw [List.isEmpty_iff.mp hempty] at hread
    exact ⟨offset, hread⟩
  · contradiction

end primitives

/-- The reader takes just these bytes off the front of any input, for this result. -/
def Takes {α : Type} (read : Read α) (bytes : Bytes) (result : α) : Prop :=
  ∀ offset rest, read ⟨offset, bytes ++ rest⟩ = .ok (result, ⟨offset + bytes.length, rest⟩)

namespace Takes

variable {α β : Type} {read : Read α} {next : α → Read β} {bytes more : Bytes} {a : α} {b : β}

theorem pure (a : α) : Takes (pure a) [] a := fun _ _ => rfl

theorem bind (hread : Takes read bytes a) (hnext : Takes (next a) more b) :
    Takes (read >>= next) (bytes ++ more) b := by
  intro offset rest
  have hread := hread offset (more ++ rest)
  rw [List.append_assoc, List.length_append, ← Nat.add_assoc, bind_of_ok next hread, hnext]

theorem map (f : α → β) (hread : Takes read bytes a) : Takes (f <$> read) bytes (f a) := by
  intro offset rest
  rw [map_eq, hread, Except.map_ok]

theorem take (bytes : Bytes) : Takes (take bytes.length) bytes bytes := by
  intro offset rest
  rw [take_of_le (by simp), List.take_left, List.drop_left]

theorem take_of_length {size : Nat} (h : bytes.length = size) : Takes (Reader.take size) bytes bytes :=
  h ▸ take bytes

theorem nat {size n : Nat} (h : n < 256 ^ size) : Takes (nat size) (Bytes.bigEndian size n) n := by
  have hmap := (take_of_length (Bytes.length_bigEndian size n)).map Bytes.value
  rwa [Bytes.value_bigEndian_of_lt h] at hmap

theorem int64 (word : Int64) : Takes int64 (Bytes.ofInt64 word) word := by
  have hmap := (take_of_length (Bytes.length_ofInt64 word)).map Bytes.toInt64
  rwa [Bytes.toInt64_ofInt64] at hmap

theorem int32 (word : Int32) : Takes int32 (Bytes.ofInt32 word) word := by
  have hmap := (take_of_length (Bytes.length_ofInt32 word)).map Bytes.toInt32
  rwa [Bytes.toInt32_ofInt32] at hmap

theorem run (h : Takes read bytes a) : Reader.run read bytes = .ok a := by
  have hread := h 0 []
  rw [List.append_nil] at hread
  unfold Reader.run
  rw [hread]
  rfl

end Takes
end Reader

def Origin.receive (origin : Origin) (cell : Cell) : Cell :=
  match origin with
  | .ownProcess => cell
  | .remote => cell.clearPending

theorem CellName.encode_of_le {name : CellName} (h : name.size ≤ maxNameSize) :
    name.encode = .ok (Bytes.bigEndian 2 name.size ++ name.bytes) :=
  if_neg (not_lt.mpr h)

theorem CellName.encode_of_lt {name : CellName} (h : maxNameSize < name.size) :
    name.encode = .error (.malformed (.nameTooLong name.size)) :=
  if_pos h

namespace Counter

def encodeFields (c : Counter) : Bytes :=
  Bytes.bigEndian 4 c.context.encodedSize ++ (c.context.encode ++
    (Bytes.ofInt64 c.writtenAt ++ Bytes.ofInt64 c.lastDelete))

variable {c : Counter} {bytes : Bytes}

theorem encode_of_le (hname : c.name.size ≤ maxNameSize)
    (hsize : c.context.encodedSize ≤ maxContextSize) :
    c.encode = .ok (Bytes.bigEndian 2 c.name.size ++ c.name.bytes ++ c.encodeFields) := by
  unfold encode encodeFields
  rw [CellName.encode_of_le hname, Except.ok_bind]
  simp only [not_lt.mpr hsize, ↓reduceIte, List.append_assoc]
  rfl

theorem encode_of_lt (hsize : maxContextSize < c.context.encodedSize) :
    ∃ reason, c.encode = .error (.malformed reason) := by
  unfold encode
  rcases Nat.lt_or_ge maxNameSize c.name.size with h | h
  · rw [CellName.encode_of_lt h]
    exact ⟨_, rfl⟩
  · rw [CellName.encode_of_le h, Except.ok_bind]
    simp only [hsize, ↓reduceIte]
    exact ⟨_, rfl⟩

theorem le_of_encode (h : c.encode = .ok bytes) :
    c.name.size ≤ maxNameSize ∧ c.context.encodedSize ≤ maxContextSize := by
  constructor
  · by_contra hlong
    rw [encode, CellName.encode_of_lt (not_le.mp hlong)] at h
    contradiction
  · by_contra hlarge
    obtain ⟨reason, herror⟩ := encode_of_lt (not_le.mp hlarge)
    rw [herror] at h
    contradiction

end Counter

namespace Reader.Takes

theorem name {name : CellName} (h : name.size ≤ maxNameSize) :
    Takes Reader.name (Bytes.bigEndian 2 name.size ++ name.bytes) name := by
  have hsize : name.size < 256 ^ 2 := Nat.lt_succ_of_le h
  exact (nat hsize).bind ((take name.bytes).map CellName.mk)

theorem context {c : Context} (origin : Origin) (hcanonical : c.Canonical)
    (hsize : c.encodedSize ≤ maxContextSize) :
    Takes (Reader.context origin) (Bytes.bigEndian 4 c.encodedSize ++ c.encode)
      (match origin with | .ownProcess => c | .remote => c.clearPending) := by
  have hlt : c.encodedSize < 256 ^ 4 := Nat.lt_succ_of_le hsize
  apply (nat hlt).bind
  rw [← List.append_nil c.encode]
  apply (take_of_length hcanonical.length_encode).bind
  rw [Context.decode_encode hcanonical]
  exact pure _

theorem counter {c : Counter} (origin : Origin) (hcanonical : c.context.Canonical)
    (hname : c.name.size ≤ maxNameSize) (hsize : c.context.encodedSize ≤ maxContextSize) :
    Takes (Reader.counter origin)
      (Bytes.bigEndian 2 c.name.size ++ c.name.bytes ++ c.encodeFields)
      (match origin with | .ownProcess => c | .remote => c.clearPending) := by
  apply (name hname).bind
  unfold Counter.encodeFields
  rw [← List.append_assoc (Bytes.bigEndian 4 _)]
  refine (context origin hcanonical hsize).bind ((int64 c.writtenAt).bind ?_)
  rw [← List.append_nil (Bytes.ofInt64 c.lastDelete)]
  apply (int64 c.lastDelete).bind
  cases origin
  · exact pure c
  · exact pure c.clearPending

theorem tombstone {t : Tombstone} (hname : t.name.size ≤ maxNameSize) :
    Takes Reader.tombstone (Bytes.bigEndian 2 t.name.size ++ t.name.bytes ++
      (Bytes.ofInt64 t.deletedAt ++ Bytes.ofInt32 t.localTime)) t := by
  refine (name hname).bind ((int64 t.deletedAt).bind ?_)
  rw [← List.append_nil (Bytes.ofInt32 t.localTime)]
  exact (int32 t.localTime).bind (pure t)

theorem mask (mask : UInt8) : Takes (Reader.nat 1) [mask] mask.toNat := by
  have hlt : mask.toNat < 256 ^ 1 := mask.toNat_lt
  have hnat := nat hlt
  rwa [Bytes.bigEndian, Bytes.bigEndian, List.nil_append, UInt8.ofNat_toNat] at hnat

theorem cell_of_counter {c : Counter} {body : Bytes} {origin : Origin}
    (h : Takes (Reader.counter origin) body
      (match origin with | .ownProcess => c | .remote => c.clearPending)) :
    Takes (Reader.cell origin) (counterMask :: body) (origin.receive (.counter c)) := by
  apply (mask counterMask).bind
  rw [UInt8.ofNat_toNat, if_pos rfl]
  have hmap := h.map Cell.counter
  cases origin <;> exact hmap

theorem cell_of_tombstone {t : Tombstone} {body : Bytes} (origin : Origin)
    (h : Takes Reader.tombstone body t) :
    Takes (Reader.cell origin) (tombstoneMask :: body) (origin.receive (.tombstone t)) := by
  apply (mask tombstoneMask).bind
  rw [UInt8.ofNat_toNat, if_neg (by decide), if_pos rfl]
  have hmap := h.map Cell.tombstone
  cases origin <;> exact hmap

end Reader.Takes

namespace Cell

structure Encodable (cell : Cell) : Prop where
  name_le : cell.name.size ≤ maxNameSize
  canonical : ∀ c, cell = .counter c → c.context.Canonical
  context_le : ∀ c, cell = .counter c → c.context.encodedSize ≤ maxContextSize

theorem encodable_of_encode {cell : Cell} {bytes : Bytes}
    (hcanonical : ∀ c, cell = .counter c → c.context.Canonical) (h : cell.encode = .ok bytes) :
    cell.Encodable := by
  cases cell with
  | counter c =>
    obtain ⟨body, hbody, -⟩ := Except.bind_eq_ok_iff.mp h
    obtain ⟨hname, hsize⟩ := Counter.le_of_encode hbody
    exact ⟨hname, hcanonical, fun _ hc => counter.inj hc ▸ hsize⟩
  | tombstone t =>
    refine ⟨?_, hcanonical, fun _ ht => nomatch ht⟩
    by_contra hlong
    rw [encode, show t.name.encode = _ from CellName.encode_of_lt (not_le.mp hlong)] at h
    contradiction

theorem decode_encode {cell : Cell} (h : cell.Encodable) :
    ∃ bytes, cell.encode = .ok bytes ∧
      ∀ origin, decode origin bytes = .ok (origin.receive cell) := by
  cases cell with
  | counter c =>
    have hname : c.name.size ≤ maxNameSize := h.name_le
    have hsize := h.context_le c rfl
    have hencode : (Cell.counter c).encode = .ok (counterMask ::
        (Bytes.bigEndian 2 c.name.size ++ c.name.bytes ++ c.encodeFields)) := by
      rw [encode, Counter.encode_of_le hname hsize]
      rfl
    refine ⟨_, hencode, fun origin => Reader.Takes.run ?_⟩
    exact .cell_of_counter (.counter origin (h.canonical c rfl) hname hsize)
  | tombstone t =>
    have hname : t.name.size ≤ maxNameSize := h.name_le
    have hencode : (Cell.tombstone t).encode = .ok (tombstoneMask ::
        (Bytes.bigEndian 2 t.name.size ++ t.name.bytes ++
          (Bytes.ofInt64 t.deletedAt ++ Bytes.ofInt32 t.localTime))) := by
      rw [encode, CellName.encode_of_le hname, Except.ok_bind]
      simp only [List.cons_append, List.append_assoc]
      rfl
    refine ⟨_, hencode, fun origin => Reader.Takes.run ?_⟩
    exact .cell_of_tombstone origin (.tombstone hname)

end Cell
end ShardCounter
