import ShardCounter.Proofs.Cell.Canonical
import ShardCounter.Proofs.Cell.Codec
import ShardCounter.Proofs.Context.Decoding
/-! What reading a cell accepts. Whatever a reader takes off its input spells what it makes of it, so
accepted bytes are what some cell is written as: writing is a bijection from the cells that fit their
length fields onto the accepted byte strings. -/
namespace ShardCounter

namespace Reader

/-- The bytes that the reader takes off its input spell its result. -/
def Accepts {α : Type} (read : Read α) (spells : Bytes → α → Prop) : Prop :=
  ∀ r a r', read r = .ok (a, r') → ∃ bytes, r.rest = bytes ++ r'.rest ∧ spells bytes a

namespace Accepts

variable {α β : Type} {read : Read α} {next : α → Read β} {first : Bytes → α → Prop}
  {spells : Bytes → β → Prop} {bytes : Bytes} {a : α} {b : β}

theorem pure (h : spells [] b) : Accepts (pure b) spells := by
  intro r _ _ hread
  cases hread
  exact ⟨[], rfl, h⟩

theorem throw (e : CellError) : Accepts (throw e) spells := fun _ _ _ h => nomatch h

theorem bind (hread : Accepts read first)
    (hnext : ∀ bytes a, first bytes a → Accepts (next a) fun more => spells (bytes ++ more)) :
    Accepts (read >>= next) spells := by
  intro r b r'' h
  obtain ⟨⟨a, r'⟩, hfirst, h⟩ := Except.bind_eq_ok_iff.mp h
  obtain ⟨bytes, hrest, hbytes⟩ := hread r a r' hfirst
  obtain ⟨more, hrest', hmore⟩ := hnext bytes a hbytes r' b r'' h
  refine ⟨bytes ++ more, ?_, hmore⟩
  rw [hrest, hrest', List.append_assoc]

theorem map {f : α → β} (hread : Accepts read fun bytes a => spells bytes (f a)) :
    Accepts (f <$> read) spells := by
  intro r _ _ h
  obtain ⟨⟨a, left⟩, hok, h⟩ := Except.bind_eq_ok_iff.mp h
  cases h
  exact hread r a _ hok

theorem mono {stronger : Bytes → β → Prop} {read : Read β} (hread : Accepts read stronger)
    (h : ∀ bytes b, stronger bytes b → spells bytes b) : Accepts read spells := by
  intro r b r' hok
  obtain ⟨bytes, hrest, hbytes⟩ := hread r b r' hok
  exact ⟨bytes, hrest, h bytes b hbytes⟩

theorem take (size : Nat) :
    Accepts (take size) fun bytes taken => taken = bytes ∧ bytes.length = size := by
  intro r taken r' h
  obtain ⟨hle, rfl, rfl⟩ := take_eq_ok h
  exact ⟨r.rest.take size, (List.take_append_drop size r.rest).symm, rfl,
    List.length_take_of_le hle⟩

theorem nat (size : Nat) :
    Accepts (nat size) fun bytes n => n < 256 ^ size ∧ bytes = Bytes.bigEndian size n := by
  refine .map ((take size).mono ?_)
  rintro _ taken ⟨rfl, rfl⟩
  exact ⟨Bytes.value_lt taken, (Bytes.bigEndian_value taken).symm⟩

theorem int64 : Accepts int64 fun bytes word => bytes = Bytes.ofInt64 word := by
  refine .map ((take 8).mono ?_)
  rintro _ taken ⟨rfl, hlength⟩
  exact (Bytes.ofInt64_toInt64 hlength).symm

theorem int32 : Accepts int32 fun bytes word => bytes = Bytes.ofInt32 word := by
  refine .map ((take 4).mono ?_)
  rintro _ taken ⟨rfl, hlength⟩
  exact (Bytes.ofInt32_toInt32 hlength).symm

theorem name : Accepts Reader.name fun bytes name => name.encode = .ok bytes := by
  refine (nat 2).bind ?_
  rintro _ size ⟨hsize, rfl⟩
  refine (take size).bind ?_
  rintro _ bytes ⟨rfl, rfl⟩
  refine pure ?_
  rw [List.append_nil]
  exact CellName.encode_of_le (Nat.le_of_lt_succ hsize)

theorem context (origin : Origin) :
    Accepts (Reader.context origin) fun bytes received =>
      ∃ c : Context, c.Canonical ∧ c.encodedSize ≤ maxContextSize ∧
        bytes = Bytes.bigEndian 4 c.encodedSize ++ c.encode ∧
        received = match origin with | .ownProcess => c | .remote => c.clearPending := by
  refine (nat 4).bind ?_
  rintro _ size ⟨hsize, rfl⟩
  refine (take size).bind ?_
  rintro _ bytes ⟨rfl, rfl⟩
  split
  · exact throw _
  · rename_i c hdecode
    have hcanonical := Context.canonical_of_decode hdecode
    have hencode := Context.encode_of_decode hdecode
    have hlength := hcanonical.length_encode
    rw [hencode] at hlength
    rw [hlength] at hsize ⊢
    refine pure ⟨c, hcanonical, Nat.le_of_lt_succ hsize, ?_, rfl⟩
    rw [List.append_nil, hencode]

theorem counter (origin : Origin) :
    Accepts (Reader.counter origin) fun bytes received =>
      ∃ c : Counter, c.context.Canonical ∧ c.encode = .ok bytes ∧
        .counter received = origin.receive (.counter c) := by
  refine name.bind fun nameBytes name hname => ?_
  refine (context origin).bind ?_
  rintro _ _ ⟨c, hcanonical, hsize, rfl, rfl⟩
  refine int64.bind ?_
  rintro _ writtenAt rfl
  refine int64.bind ?_
  rintro _ lastDelete rfl
  refine pure ⟨⟨name, c, writtenAt, lastDelete⟩, hcanonical, ?_, ?_⟩
  · unfold Counter.encode
    rw [hname, Except.ok_bind]
    simp only [not_lt.mpr hsize, ↓reduceIte, List.append_assoc, List.append_nil]
    rfl
  · cases origin <;> rfl

theorem tombstone :
    Accepts Reader.tombstone fun bytes t =>
      (Cell.tombstone t).encode = .ok (tombstoneMask :: bytes) := by
  refine name.bind fun nameBytes name hname => ?_
  refine int64.bind ?_
  rintro _ deletedAt rfl
  refine int32.bind ?_
  rintro _ localTime rfl
  refine pure ?_
  rw [Cell.encode, hname, Except.ok_bind]
  simp only [List.cons_append, List.append_assoc, List.append_nil]
  rfl

theorem cell (origin : Origin) :
    Accepts (Reader.cell origin) fun bytes received =>
      ∃ sent : Cell, sent.Canonical ∧ sent.encode = .ok bytes ∧ received = origin.receive sent := by
  refine (nat 1).bind ?_
  rintro _ mask ⟨hmask, rfl⟩
  have hspell : Bytes.bigEndian 1 mask = [UInt8.ofNat mask] := rfl
  rw [hspell]
  dsimp only
  split
  · rename_i hcounter
    rw [hcounter]
    refine (counter origin).bind ?_
    rintro bytes _ ⟨c, hcanonical, hencode, hreceive⟩
    refine pure ⟨.counter c, Cell.canonical_counter_iff.mpr hcanonical, ?_, hreceive⟩
    rw [Cell.encode, hencode, List.append_nil]
    rfl
  · split
    · rename_i htombstone
      rw [htombstone]
      refine tombstone.bind fun bytes t hencode => ?_
      refine pure ⟨.tombstone t, Cell.canonical_tombstone t, ?_, ?_⟩
      · rw [List.append_nil]
        exact hencode
      · cases origin <;> rfl
    · exact throw _

theorem of_run (hread : Accepts read first) (h : run read bytes = .ok a) : first bytes a := by
  obtain ⟨offset, hok⟩ := read_of_run h
  obtain ⟨taken, hrest, htaken⟩ := hread _ _ _ hok
  have hrest : bytes = taken ++ [] := hrest
  rwa [hrest, List.append_nil]

end Accepts
end Reader

namespace Counter

variable {c : Counter} {bytes : Bytes}

theorem encode_of_decode (h : decode .ownProcess bytes = .ok c) :
    c.context.Canonical ∧ c.encode = .ok bytes := by
  obtain ⟨c', hcanonical, hencode, hreceive⟩ := (Reader.Accepts.counter .ownProcess).of_run h
  cases hreceive
  exact ⟨hcanonical, hencode⟩

theorem decode_of_encode (hcanonical : c.context.Canonical) (h : c.encode = .ok bytes) :
    decode .ownProcess bytes = .ok c := by
  obtain ⟨hname, hsize⟩ := le_of_encode h
  rw [encode_of_le hname hsize] at h
  cases h
  exact (Reader.Takes.counter .ownProcess hcanonical hname hsize).run

theorem length_of_encode (hcanonical : c.context.Canonical) (h : c.encode = .ok bytes) :
    bytes.length = c.encodedSize := by
  obtain ⟨hname, hsize⟩ := le_of_encode h
  rw [encode_of_le hname hsize] at h
  cases h
  simp only [encodeFields, encodedSize, List.length_append, Bytes.length_bigEndian,
    Bytes.length_ofInt64, hcanonical.length_encode, CellName.size]
  omega

end Counter

namespace Cell

variable {cell : Cell} {bytes : Bytes} {origin : Origin}

/-- Accepted bytes are what some cell is written as, and are taken for what the origin makes of it. -/
theorem exists_of_decode (h : decode origin bytes = .ok cell) :
    ∃ sent : Cell, sent.Canonical ∧ sent.encode = .ok bytes ∧ cell = origin.receive sent :=
  (Reader.Accepts.cell origin).of_run h

theorem decode_of_encode (hcanonical : cell.Canonical) (h : cell.encode = .ok bytes)
    (origin : Origin) : decode origin bytes = .ok (origin.receive cell) := by
  obtain ⟨bytes', hencode, hdecode⟩ := decode_encode (encodable_of_encode hcanonical h)
  cases h.symm.trans hencode
  exact hdecode origin

theorem encode_of_decode (h : decode .ownProcess bytes = .ok cell) :
    cell.Canonical ∧ cell.encode = .ok bytes := by
  obtain ⟨sent, hcanonical, hencode, rfl⟩ := exists_of_decode h
  exact ⟨hcanonical, hencode⟩

theorem exists_encode_iff (hcanonical : cell.Canonical) :
    (∃ bytes, cell.encode = .ok bytes) ↔ cell.Encodable := by
  constructor
  · rintro ⟨bytes, h⟩
    exact encodable_of_encode hcanonical h
  · intro h
    obtain ⟨bytes, hencode, -⟩ := decode_encode h
    exact ⟨bytes, hencode⟩

theorem not_encodable_iff (hcanonical : cell.Canonical) :
    ¬ cell.Encodable ↔ maxNameSize < cell.name.size ∨
      ∃ c, cell = .counter c ∧ maxContextSize < c.context.encodedSize := by
  constructor
  · intro h
    by_contra hfits
    simp only [not_or, not_exists, not_and, not_lt] at hfits
    exact h ⟨hfits.1, hcanonical, hfits.2⟩
  · rintro (hlong | ⟨c, rfl, hlarge⟩) h
    · exact absurd h.name_le (not_le.mpr hlong)
    · exact absurd (h.context_le c rfl) (not_le.mpr hlarge)

/-- Writing a cell and reading bytes of the own process undo each other, and nothing is read that is
not canonical. Only a name or a context beyond its length field cannot be written. -/
theorem encode_iff_decode :
    (∀ cell : Cell, cell.Canonical →
      (∀ bytes, cell.encode = .ok bytes ↔ decode .ownProcess bytes = .ok cell) ∧
      ((∃ e, cell.encode = .error e) ↔ 65535 < cell.name.size ∨
        ∃ c, cell = .counter c ∧ 2 ^ 32 - 1 < c.context.encodedSize)) ∧
    (∀ c : Counter, c.context.Canonical →
      (∀ bytes, (Cell.counter c).encode = .ok bytes → bytes.length = 1 + c.encodedSize) ∧
      (∀ bytes, c.encode = .ok bytes ↔ Counter.decode .ownProcess bytes = .ok c) ∧
      (∀ bytes, c.encode = .ok bytes → bytes.length = c.encodedSize)) ∧
    (∀ bytes cell, decode .ownProcess bytes = .ok cell → cell.Canonical) ∧
    (∀ bytes c, Counter.decode .ownProcess bytes = .ok c → c.context.Canonical) := by
  refine ⟨fun cell hcanonical => ⟨fun bytes => ?_, ?_⟩, fun c hcanonical => ⟨?_, fun bytes => ?_, ?_⟩,
    fun _ _ h => (encode_of_decode h).1, fun _ _ h => (Counter.encode_of_decode h).1⟩
  · exact ⟨fun h => decode_of_encode hcanonical h .ownProcess, fun h => (encode_of_decode h).2⟩
  · rw [Except.exists_error_iff, exists_encode_iff hcanonical]
    exact not_encodable_iff hcanonical
  · intro bytes h
    obtain ⟨body, hbody, h⟩ := Except.bind_eq_ok_iff.mp h
    cases h
    rw [List.length_cons, Counter.length_of_encode hcanonical hbody, Nat.add_comm]
  · exact ⟨Counter.decode_of_encode hcanonical, fun h => (Counter.encode_of_decode h).2⟩
  · exact fun bytes => Counter.length_of_encode hcanonical

def sent : Counter := ⟨⟨[120]⟩, .mixed, 5, Counter.neverDeleted⟩

def sentBytes : Bytes :=
  [0, 1, 120, 0, 0, 0, 68] ++ Context.mixedBytes ++ [0, 0, 0, 0, 0, 0, 0, 5] ++
    [128, 0, 0, 0, 0, 0, 0, 0]

theorem encode_iff_decode_sent :
    sent.context.Canonical ∧
    decode .ownProcess (counterMask :: sentBytes) = .ok (.counter sent) ∧
    Counter.decode .ownProcess sentBytes = .ok sent ∧ sentBytes.length = sent.encodedSize ∧
    ∃ e, (Cell.counter { sent with name := ⟨.replicate 65536 0⟩ }).encode = .error e := by
  have hcanonical : sent.context.Canonical := by decide +kernel
  have hbody : sent.encode = .ok sentBytes := by decide +kernel
  have hcell : (Cell.counter sent).encode = .ok (counterMask :: sentBytes) := by decide +kernel
  have hlong : 65535 < (Cell.counter { sent with name := ⟨.replicate 65536 0⟩ }).name.size := by
    rw [name, CellName.size, List.length_replicate]
    decide
  have hcells := (encode_iff_decode.1 (.counter sent) (canonical_counter_iff.mpr hcanonical)).1
  have hrefused := (encode_iff_decode.1 (.counter { sent with name := ⟨.replicate 65536 0⟩ })
    (canonical_counter_iff.mpr hcanonical)).2
  obtain ⟨-, hbodies, hlength⟩ := encode_iff_decode.2.1 sent hcanonical
  exact ⟨hcanonical, (hcells _).mp hcell, (hbodies _).mp hbody, hlength _ hbody,
    hrefused.mpr (.inl hlong)⟩

end Cell
end ShardCounter
