import ShardCounter.Proofs.Context.Codec
/-! What reading a context accepts. The positions in the header and the flags in the shards are two
spellings of one thing, so bytes that pass the checks are what the context read from them is written
as: writing is a bijection from canonical contexts onto the accepted byte strings. -/
namespace ShardCounter

theorem Shard.encode_decode (isPending : Bool) {bytes : Bytes} (h : bytes.length = wireSize) :
    (decode isPending bytes).encode = bytes := by
  have hlength : bytes.length = 32 := h
  have hid : (Bytes.toVector 16 bytes).toList = bytes.take 16 :=
    Bytes.toList_toVector_of_le (by omega)
  have hclock : ((bytes.drop 16).take 8).length = 8 := by
    rw [List.length_take, List.length_drop]
    omega
  have hcount : (bytes.drop 24).length = 8 := by
    rw [List.length_drop]
    omega
  unfold encode decode
  dsimp only
  rw [hid, Bytes.ofUInt64_toUInt64 hclock, List.take_of_length_le hcount.le,
    Bytes.ofInt64_toInt64 hcount, List.append_assoc]
  calc bytes.take 16 ++ ((bytes.drop 16).take 8 ++ bytes.drop 24)
      = bytes.take 16 ++ ((bytes.drop 16).take 8 ++ (bytes.drop 16).drop 8) := by rw [List.drop_drop]
    _ = bytes := by rw [List.take_append_drop, List.take_append_drop]

/-- What can be wrong with the bytes of a context. The limits on the pending positions are no part of
this: bytes cannot spell what would exceed them. -/
def Malformation.OfBytes : Malformation → Prop
  | .shortShard | .pendingIndexTooLarge _ | .tooManyPending _ => False
  | _ => True

namespace Context

theorem pairwise_push {α : Type} {r : α → α → Prop} [IsTrans α r] {read : Array α} {x : α}
    (hread : read.toList.Pairwise r) (hback : ∀ last, read.back? = some last → r last x) :
    (read.push x).toList.Pairwise r := by
  obtain ⟨read⟩ := read
  rw [← Array.getLast?_toList] at hback
  rw [Array.toList_push]
  refine List.pairwise_append.mpr ⟨hread, List.pairwise_singleton r x, fun a ha b hb => ?_⟩
  rw [List.mem_singleton.mp hb]
  induction read using List.reverseRecOn with
  | nil => contradiction
  | append_singleton front last _ =>
    have hlast : r last x := hback last List.getLast?_concat
    rcases List.mem_append.mp ha with ha | ha
    · have hfront := (List.pairwise_append.mp hread).2.2 a ha last List.mem_cons_self
      exact trans_of r hfront hlast
    · rwa [List.mem_singleton.mp ha]

instance : IsTrans Shard fun a b => a.id.order b.id = .lt where
  trans _ _ _ := ReplicaId.order_lt_trans

/-- Accepted positions are spelled by the bytes that they were read from. -/
theorem readIndices_cases (size : Nat) (read : Array Nat) {count : Nat} {bytes : Bytes}
    (hlength : 2 * count ≤ bytes.length) (hread : read.toList.Pairwise (· < ·)) :
    (∃ indices : List Nat,
      readIndices size read count bytes = .ok (read ++ indices.toArray) ∧
      indices.flatMap (Bytes.bigEndian 2) = bytes.take (2 * count) ∧
      (∀ i ∈ indices, i < size ∧ i ≤ maxPendingIndex) ∧
      (read.toList ++ indices).Pairwise (· < ·)) ∨
    ∃ reason, readIndices size read count bytes = .error (.malformed reason) ∧ reason.OfBytes := by
  induction count generalizing read bytes with
  | zero => exact .inl ⟨[], by simp [readIndices], rfl, by simp, by simpa using hread⟩
  | succ count ih =>
    have htwo : (bytes.take 2).length = 2 := by
      rw [List.length_take]
      omega
    rw [readIndices]
    split
    · exact .inr ⟨_, rfl, trivial⟩
    rename_i hrange
    rw [not_or, not_le] at hrange
    obtain ⟨hlimit, hspell⟩ := Bytes.toInt16_of_nonneg htwo hrange.1
    generalize (Bytes.toInt16 (bytes.take 2)).toInt.toNat = i at hrange hlimit hspell ⊢
    split
    · exact .inr ⟨_, rfl, trivial⟩
    rename_i hback
    have hpush : (read.push i).toList.Pairwise (· < ·) := by
      refine pairwise_push hread fun last hlast => ?_
      simpa [hlast] using hback
    have hrest : 2 * count ≤ (bytes.drop 2).length := by
      rw [List.length_drop]
      omega
    rcases ih (read.push i) hrest hpush with ⟨indices, hok, hbytes, hle, hsorted⟩ | herror
    · refine .inl ⟨i :: indices, by simp [hok], ?_, ?_, by simpa using hsorted⟩
      · rw [List.flatMap_cons, hspell, hbytes, Nat.mul_succ, Nat.add_comm, List.take_add]
      · exact List.forall_mem_cons.mpr ⟨⟨hrange.2, hlimit⟩, hle⟩
    · exact .inr herror

/-- `rest` is what is left of the pending positions behind the shard at `start`. -/
structure PositionsAfter (start : Nat) (pending rest : List Nat) : Prop where
  sorted : rest.Pairwise (· < ·)
  le : ∀ i ∈ rest, start + 1 ≤ i
  mem : ∀ i ∈ rest, i ∈ pending
  eq : pending = if pending.head? == some start then start :: rest else rest

theorem positionsAfter {start : Nat} {pending : List Nat} (hsorted : pending.Pairwise (· < ·))
    (hle : ∀ i ∈ pending, start ≤ i) :
    PositionsAfter start pending
      (if pending.head? == some start then pending.tail else pending) := by
  cases pending with
  | nil => exact ⟨.nil, by simp, by simp, by simp⟩
  | cons i rest =>
    obtain ⟨hlt, hrest⟩ := List.pairwise_cons.mp hsorted
    rcases Nat.eq_or_lt_of_le (hle i List.mem_cons_self) with rfl | hi
    · simp only [List.head?_cons, beq_self_eq_true, if_true, List.tail_cons]
      exact ⟨hrest, hlt, fun _ => List.mem_cons_of_mem start, by simp⟩
    · have hhead : (some i == some start) = false := by simpa using hi.ne'
      simp only [List.head?_cons, hhead]
      refine ⟨hsorted, List.forall_mem_cons.mpr ⟨hi, fun j hj => ?_⟩, fun _ h => h, by simp [hi.ne']⟩
      exact hi.trans (hlt j hj)

theorem readShards_cases (read : Array Shard) {pending : List Nat} {count : Nat} {bytes : Bytes}
    (hlength : bytes.length = Shard.wireSize * count) (hread : Ascending read.toList)
    (hsorted : pending.Pairwise (· < ·))
    (hrange : ∀ i ∈ pending, read.size ≤ i ∧ i < read.size + count) :
    (∃ shards : List Shard,
      readShards read pending count bytes = .ok (read ++ shards.toArray) ∧
      shards.flatMap Shard.encode = bytes ∧ positionsFrom read.size shards = pending ∧
      Ascending (read.toList ++ shards)) ∨
    ∃ index, readShards read pending count bytes =
      .error (.malformed (.idsNotAscending index)) := by
  induction count generalizing read pending bytes with
  | zero =>
    have hnone : pending = [] := List.eq_nil_iff_forall_not_mem.mpr fun i hi => by
      have := hrange i hi
      omega
    have hempty : bytes = [] := List.length_eq_zero_iff.mp hlength
    exact .inl ⟨[], by simp [readShards], hempty.symm, hnone.symm, by simpa using hread⟩
  | succ count ih =>
    rw [Nat.mul_succ] at hlength
    have hchunk : (bytes.take Shard.wireSize).length = Shard.wireSize := by
      rw [List.length_take]
      omega
    have hrest : (bytes.drop Shard.wireSize).length = Shard.wireSize * count := by
      rw [List.length_drop]
      omega
    rw [readShards, if_neg (not_not.mpr hchunk)]
    have hencode := Shard.encode_decode (pending.head? == some read.size) hchunk
    have hflag : (Shard.decode (pending.head? == some read.size)
        (bytes.take Shard.wireSize)).isPending = (pending.head? == some read.size) := rfl
    generalize Shard.decode (pending.head? == some read.size) (bytes.take Shard.wireSize) = s
      at hencode hflag ⊢
    split
    · exact .inr ⟨_, rfl⟩
    rename_i hback
    have hpush : Ascending (read.push s).toList := by
      refine pairwise_push hread fun last hlast => ?_
      simpa [hlast] using hback
    have hafter := positionsAfter hsorted fun i hi => (hrange i hi).1
    generalize (if pending.head? == some read.size then pending.tail else pending) = ahead
      at hafter ⊢
    have hrange' : ∀ i ∈ ahead, (read.push s).size ≤ i ∧ i < (read.push s).size + count := by
      intro i hi
      have hlt := (hrange i (hafter.mem i hi)).2
      have hle := hafter.le i hi
      rw [Array.size_push]
      omega
    rcases ih (read.push s) hrest hpush hafter.sorted hrange' with
      ⟨shards, hok, hbytes, hpending, hasc⟩ | herror
    · refine .inl ⟨s :: shards, by simp [hok], ?_, ?_, by simpa using hasc⟩
      · rw [List.flatMap_cons, hencode, hbytes, List.take_append_drop]
      · rw [Array.size_push] at hpending
        rw [positionsFrom_cons, hflag, hpending, ← hafter.eq]
    · exact .inr herror

theorem mem_pendingIndices_of_isPending {shards : Array Shard} {i : Nat} (hi : i < shards.size)
    (h : shards[i].isPending) : i ∈ pendingIndices shards := by
  refine List.mem_filterMap.mpr ⟨(shards[i], i), ?_, if_pos h⟩
  rw [List.mk_mem_zipIdx_iff_getElem?, Array.getElem?_toList, Array.getElem?_eq_getElem hi]

theorem ofSorted?_of_positions {shards : List Shard} {indices : List Nat} (hasc : Ascending shards)
    (hpositions : positionsFrom 0 shards = indices) (hle : ∀ i ∈ indices, i ≤ maxPendingIndex)
    (hlength : indices.length ≤ maxPendingIndex) :
    ∃ c, ofSorted? shards.toArray = .ok c ∧ c.Canonical ∧
      c.encode = Bytes.bigEndian 2 indices.length ++ indices.flatMap (Bytes.bigEndian 2) ++
        shards.flatMap Shard.encode := by
  have hindices : pendingIndices shards.toArray = indices := hpositions
  have hcount : shards.toArray.countP Shard.isPending = indices.length := by
    rw [← hpositions, length_positionsFrom, List.countP_toArray]
  have hfit : PositionsFit shards.toArray := by
    refine ⟨fun i hi hpending => hle i ?_, hcount ▸ hlength⟩
    rw [← hindices]
    exact mem_pendingIndices_of_isPending hi hpending
  refine ⟨_, ofSorted?_of_fit hfit, canonical_ofSorted hasc hfit, ?_⟩
  rw [encode, ofSorted, hindices, hcount]

theorem readBody_cases {bytes : Bytes} {pendingCount count : Nat}
    (hlimit : pendingCount ≤ maxPendingIndex)
    (hspell : Bytes.bigEndian 2 pendingCount = bytes.take 2)
    (hheader : 2 * pendingCount ≤ (bytes.drop 2).length)
    (hbody : (bytes.drop (2 + 2 * pendingCount)).length = Shard.wireSize * count) :
    let read := readIndices count #[] pendingCount (bytes.drop 2) >>= fun pending =>
      readShards #[] pending.toList count (bytes.drop (2 + 2 * pendingCount)) >>= ofSorted?
    (∃ c, read = .ok c ∧ c.Canonical ∧ c.encode = bytes) ∨
      ∃ reason, read = .error (.malformed reason) ∧ reason.OfBytes := by
  dsimp only
  rcases readIndices_cases count #[] hheader .nil with
    ⟨indices, hindices, hindexBytes, hle, hsorted⟩ | ⟨reason, herror, hbytes⟩
  · have hsorted : indices.Pairwise (· < ·) := hsorted
    have hrange : ∀ i ∈ indices, 0 ≤ i ∧ i < 0 + count := fun i hi => by
      have := (hle i hi).1
      omega
    rw [hindices, Except.ok_bind, Array.empty_append, List.toList_toArray]
    rcases readShards_cases #[] hbody .nil hsorted hrange with
      ⟨shards, hshards, hshardBytes, hpositions, hasc⟩ | ⟨index, herror⟩
    · have hasc : Ascending shards := hasc
      have hlength : indices.length = pendingCount := by
        have h := congrArg List.length hindexBytes
        rw [length_flatMap_bigEndian, List.length_take_of_le hheader] at h
        omega
      obtain ⟨c, hok, hc, hencode⟩ := ofSorted?_of_positions hasc hpositions
        (fun i hi => (hle i hi).2) (hlength ▸ hlimit)
      rw [hshards, Except.ok_bind, Array.empty_append]
      refine .inl ⟨c, hok, hc, ?_⟩
      rw [hencode, hlength, hspell, hindexBytes, hshardBytes, ← List.take_add,
        List.take_append_drop]
    · exact .inr ⟨.idsNotAscending index, by rw [herror]; rfl, trivial⟩
  · exact .inr ⟨reason, by rw [herror]; rfl, hbytes⟩

theorem decode_eq (bytes : Bytes) :
    decode bytes =
      let declared := Bytes.toInt16 (bytes.take 2)
      let pendingCount := declared.toInt.toNat
      let headerSize := 2 + 2 * pendingCount
      let bodySize := bytes.length - headerSize
      let count := bodySize / Shard.wireSize
      if bytes.length < 2 then .error (.malformed (.shorterThanHeader bytes.length))
      else if declared < 0 then .error (.malformed (.negativePendingCount declared))
      else if bytes.length < headerSize then
        .error (.malformed (.truncatedHeader headerSize bytes.length))
      else if bodySize % Shard.wireSize ≠ 0 then .error (.malformed (.unevenBody bodySize))
      else if count < pendingCount then
        .error (.malformed (.morePendingThanShards pendingCount count))
      else readIndices count #[] pendingCount (bytes.drop 2) >>= fun pending =>
        readShards #[] pending.toList count (bytes.drop headerSize) >>= ofSorted? :=
  rfl

/-- Whatever the bytes are, they spell a canonical context, or are refused for a fault of theirs. -/
theorem decode_cases (bytes : Bytes) :
    (∃ c, decode bytes = .ok c ∧ c.Canonical ∧ c.encode = bytes) ∨
    ∃ reason, decode bytes = .error (.malformed reason) ∧ reason.OfBytes := by
  rw [decode_eq]
  dsimp only
  split
  · exact .inr ⟨_, rfl, trivial⟩
  rename_i hsize
  split
  · exact .inr ⟨_, rfl, trivial⟩
  rename_i hsign
  have htwo : (bytes.take 2).length = 2 := by
    rw [List.length_take]
    omega
  obtain ⟨hlimit, hspell⟩ := Bytes.toInt16_of_nonneg htwo hsign
  generalize (Bytes.toInt16 (bytes.take 2)).toInt.toNat = pendingCount at hlimit hspell ⊢
  split
  · exact .inr ⟨_, rfl, trivial⟩
  rename_i hheader
  split
  · exact .inr ⟨_, rfl, trivial⟩
  rename_i heven
  split
  · exact .inr ⟨_, rfl, trivial⟩
  generalize hcount : (bytes.length - (2 + 2 * pendingCount)) / Shard.wireSize = count
  have hheader' : 2 * pendingCount ≤ (bytes.drop 2).length := by
    rw [List.length_drop]
    omega
  have hbody : (bytes.drop (2 + 2 * pendingCount)).length = Shard.wireSize * count := by
    rw [List.length_drop, ← hcount, Nat.mul_div_cancel' (Nat.dvd_of_mod_eq_zero (not_not.mp heven))]
  exact readBody_cases hlimit hspell hheader' hbody

section decode

variable {bytes : Bytes} {c : Context} {reason : Malformation}

theorem canonical_of_decode (h : decode bytes = .ok c) : c.Canonical := by
  rcases decode_cases bytes with ⟨c', hc', hcanonical, -⟩ | ⟨reason, herror, -⟩ <;> simp_all

theorem encode_of_decode (h : decode bytes = .ok c) : c.encode = bytes := by
  rcases decode_cases bytes with ⟨c', hc', -, hencode⟩ | ⟨reason, herror, -⟩ <;> simp_all

theorem ofBytes_of_decode (h : decode bytes = .error (.malformed reason)) : reason.OfBytes := by
  rcases decode_cases bytes with ⟨c, hc, -⟩ | ⟨reason', herror, hbytes⟩ <;> simp_all

end decode

/-- Reading accepts just what writing makes of canonical contexts: each of them has one spelling, and
no other bytes are accepted. What the checks on the bytes let through is never refused for the limits
on pending positions or for a short shard. -/
theorem decode_eq_ok_iff (bytes : Bytes) :
    (∀ c : Context, c.Canonical →
      (decode bytes = .ok c ↔ c.encode = bytes) ∧ c.encode.length = c.encodedSize) ∧
    (∀ c, decode bytes = .ok c → c.Canonical) ∧
    (∀ index, decode bytes ≠ .error (.malformed (.pendingIndexTooLarge index))) ∧
    (∀ count, decode bytes ≠ .error (.malformed (.tooManyPending count))) ∧
    decode bytes ≠ .error (.malformed .shortShard) := by
  refine ⟨fun c hc => ⟨⟨encode_of_decode, ?_⟩, hc.length_encode⟩, fun c => canonical_of_decode,
    fun _ h => ofBytes_of_decode h, fun _ h => ofBytes_of_decode h, fun h => ofBytes_of_decode h⟩
  rintro rfl
  exact decode_encode hc

def mixed : Context :=
  .ofSorted #[⟨.stable (.replicate 16 1), 3, -1⟩, ⟨.pending (.replicate 16 2), 1, 7⟩]

def mixedBytes : Bytes :=
  [0, 1, 0, 1] ++ .replicate 16 1 ++ [0, 0, 0, 0, 0, 0, 0, 3] ++ .replicate 8 255 ++
    .replicate 16 2 ++ [0, 0, 0, 0, 0, 0, 0, 1, 0, 0, 0, 0, 0, 0, 0, 7]

theorem decode_mixedBytes : mixed.Canonical ∧ decode mixedBytes = .ok mixed ∧
    mixed.encode.length = 68 := by
  have hcanonical : mixed.Canonical := by decide +kernel
  have hencode : mixed.encode = mixedBytes := by decide
  obtain ⟨hdecode, hlength⟩ := (decode_eq_ok_iff mixedBytes).1 mixed hcanonical
  exact ⟨hcanonical, hdecode.mpr hencode, hlength⟩

end Context
end ShardCounter
