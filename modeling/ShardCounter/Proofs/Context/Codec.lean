import ShardCounter.Context.Codec
import ShardCounter.Proofs.Bytes
import ShardCounter.Proofs.Context.Canonical
import ShardCounter.Proofs.Except
/-! Reading back what a canonical context is written as. The header points to the pending shards by
their positions, so the walk over the body carries the positions that are still ahead of it. -/
namespace ShardCounter

theorem Shard.decode_encode (s : Shard) : decode s.isPending s.encode = s := by
  obtain ⟨⟨bytes, isPending⟩, clock, count⟩ := s
  have hid : bytes.toList.length = 16 := Vector.length_toList
  have hclock : ((encode ⟨⟨bytes, isPending⟩, clock, count⟩).drop 16).take 8 =
      Bytes.ofUInt64 clock := by
    rw [encode, List.append_assoc, List.drop_left' hid,
      List.take_left' (Bytes.length_ofUInt64 clock)]
  have hcount : ((encode ⟨⟨bytes, isPending⟩, clock, count⟩).drop 24).take 8 =
      Bytes.ofInt64 count := by
    have hfront : (bytes.toList ++ Bytes.ofUInt64 clock).length = 24 := by
      rw [List.length_append, hid, Bytes.length_ofUInt64]
    rw [encode, List.drop_left' hfront, List.take_of_length_le]
    exact (Bytes.length_ofInt64 count).le
  unfold decode
  rw [hclock, hcount, Bytes.toUInt64_ofUInt64, Bytes.toInt64_ofInt64, encode, List.append_assoc,
    Bytes.toVector_append]
  rfl

namespace Context

def positionsFrom (start : Nat) (shards : List Shard) : List Nat :=
  (shards.zipIdx start).filterMap fun (s, i) => if s.isPending then some i else none

theorem positionsFrom_cons (start : Nat) (s : Shard) (shards : List Shard) :
    positionsFrom start (s :: shards) =
      if s.isPending then start :: positionsFrom (start + 1) shards
      else positionsFrom (start + 1) shards := by
  cases h : s.isPending <;> simp [positionsFrom, h]

theorem pendingIndices_eq (shards : Array Shard) :
    pendingIndices shards = positionsFrom 0 shards.toList := rfl

theorem mem_pendingIndices {shards : Array Shard} {i : Nat} (h : i ∈ pendingIndices shards) :
    ∃ hi : i < shards.size, shards[i].isPending := by
  obtain ⟨⟨s, j⟩, hmem, hs⟩ := List.mem_filterMap.mp h
  rw [List.mk_mem_zipIdx_iff_getElem?, Array.getElem?_toList] at hmem
  dsimp only at hs
  split at hs
  · rename_i hpending
    cases hs
    obtain ⟨hi, rfl⟩ := Array.getElem?_eq_some_iff.mp hmem
    exact ⟨hi, hpending⟩
  · contradiction

theorem le_of_mem_positionsFrom {start i : Nat} {shards : List Shard}
    (h : i ∈ positionsFrom start shards) : start ≤ i := by
  induction shards generalizing start with
  | nil => contradiction
  | cons s shards ih =>
    rw [positionsFrom_cons] at h
    split at h
    · rcases List.mem_cons.mp h with rfl | h
      · exact le_refl i
      · exact Nat.le_of_succ_le (ih h)
    · exact Nat.le_of_succ_le (ih h)

theorem pairwise_positionsFrom (start : Nat) (shards : List Shard) :
    (positionsFrom start shards).Pairwise (· < ·) := by
  induction shards generalizing start with
  | nil => exact .nil
  | cons s shards ih =>
    rw [positionsFrom_cons]
    split
    · exact .cons (fun i hi => le_of_mem_positionsFrom hi) (ih (start + 1))
    · exact ih (start + 1)

theorem length_positionsFrom (start : Nat) (shards : List Shard) :
    (positionsFrom start shards).length = shards.countP Shard.isPending := by
  induction shards generalizing start with
  | nil => rfl
  | cons s shards ih =>
    rw [positionsFrom_cons, List.countP_cons]
    split
    · rw [List.length_cons, ih]
    · exact ih (start + 1)

theorem head?_positionsFrom (start : Nat) (s : Shard) (shards : List Shard) :
    ((positionsFrom start (s :: shards)).head? == some start) = s.isPending := by
  rw [positionsFrom_cons]
  split
  · rename_i h
    rw [List.head?_cons, beq_self_eq_true, h]
  · rename_i h
    rw [Bool.not_eq_true] at h
    rw [h, beq_eq_false_iff_ne]
    intro hhead
    exact absurd (le_of_mem_positionsFrom (List.mem_of_head? hhead)) (Nat.not_succ_le_self start)

theorem tail_positionsFrom (start : Nat) (s : Shard) (shards : List Shard) :
    (if s.isPending then (positionsFrom start (s :: shards)).tail
      else positionsFrom start (s :: shards)) = positionsFrom (start + 1) shards := by
  rw [positionsFrom_cons]
  split <;> rfl

theorem readIndices_flatMap {size : Nat} (read : Array Nat) {indices : List Nat} (rest : Bytes)
    (hsize : ∀ i ∈ indices, i < size) (hlimit : ∀ i ∈ indices, i ≤ maxPendingIndex)
    (hasc : (read.toList ++ indices).Pairwise (· < ·)) :
    readIndices size read indices.length (indices.flatMap (Bytes.bigEndian 2) ++ rest) =
      .ok (read ++ indices.toArray) := by
  induction indices generalizing read with
  | nil => simp [readIndices]
  | cons i indices ih =>
    have hindex : (Bytes.toInt16 (Bytes.bigEndian 2 i)).toInt = i :=
      Bytes.toInt_toInt16_bigEndian (hlimit i List.mem_cons_self)
    have htake : ((i :: indices).flatMap (Bytes.bigEndian 2) ++ rest).take 2 =
        Bytes.bigEndian 2 i := by
      rw [List.flatMap_cons, List.append_assoc]
      exact List.take_left' (Bytes.length_bigEndian 2 i)
    have hdrop : ((i :: indices).flatMap (Bytes.bigEndian 2) ++ rest).drop 2 =
        indices.flatMap (Bytes.bigEndian 2) ++ rest := by
      rw [List.flatMap_cons, List.append_assoc]
      exact List.drop_left' (Bytes.length_bigEndian 2 i)
    have hrange : ¬ (Bytes.toInt16 (Bytes.bigEndian 2 i) < 0 ∨
        size ≤ (Bytes.toInt16 (Bytes.bigEndian 2 i)).toInt.toNat) := by
      have hi := hsize i List.mem_cons_self
      rw [Int16.lt_iff_toInt_lt, hindex, Int.toNat_natCast, Int16.toInt_zero]
      omega
    have hback : ¬ read.back?.any (i ≤ ·) = true := by
      intro hany
      obtain ⟨last, hlast, hle⟩ := (Option.any_eq_true _ _).mp hany
      have hmem : last ∈ read.toList := Array.mem_toList_iff.mpr (Array.mem_of_back? hlast)
      have hlt := (List.pairwise_append.mp hasc).2.2 last hmem i List.mem_cons_self
      exact absurd hlt (Nat.not_lt.mpr (of_decide_eq_true hle))
    rw [List.length_cons, readIndices, htake, hdrop, if_neg hrange, hindex, Int.toNat_natCast,
      if_neg hback]
    rw [ih (read.push i) (fun j hj => hsize j (List.mem_cons_of_mem i hj))
      (fun j hj => hlimit j (List.mem_cons_of_mem i hj)) (by simpa using hasc)]
    simp

theorem readShards_flatMap (read : Array Shard) {shards : List Shard}
    (hasc : Ascending (read.toList ++ shards)) :
    readShards read (positionsFrom read.size shards) shards.length
      (shards.flatMap Shard.encode) = .ok (read ++ shards.toArray) := by
  induction shards generalizing read with
  | nil => simp [readShards]
  | cons s shards ih =>
    have htake : ((s :: shards).flatMap Shard.encode).take Shard.wireSize = s.encode :=
      List.take_left' s.length_encode
    have hdrop : ((s :: shards).flatMap Shard.encode).drop Shard.wireSize =
        shards.flatMap Shard.encode := List.drop_left' s.length_encode
    have hback : ¬ read.back?.any (·.id.order s.id ≠ .lt) = true := by
      intro hany
      obtain ⟨last, hlast, hnlt⟩ := (Option.any_eq_true _ _).mp hany
      have hmem : last ∈ read.toList := Array.mem_toList_iff.mpr (Array.mem_of_back? hlast)
      have hlt := (List.pairwise_append.mp hasc).2.2 last hmem s List.mem_cons_self
      exact of_decide_eq_true hnlt hlt
    rw [List.length_cons, readShards, htake, hdrop, head?_positionsFrom, tail_positionsFrom,
      Shard.decode_encode, if_neg (not_not.mpr s.length_encode), if_neg hback]
    have hread := ih (read.push s) (by simpa using hasc)
    rw [Array.size_push] at hread
    rw [hread]
    simp

theorem length_flatMap_encode (shards : List Shard) :
    (shards.flatMap Shard.encode).length = Shard.wireSize * shards.length := by
  induction shards with
  | nil => rfl
  | cons s shards ih =>
    rw [List.flatMap_cons, List.length_append, Shard.length_encode, ih, List.length_cons,
      Nat.mul_succ, Nat.add_comm]

theorem length_flatMap_bigEndian (width : Nat) (indices : List Nat) :
    (indices.flatMap (Bytes.bigEndian width)).length = width * indices.length := by
  induction indices with
  | nil => rfl
  | cons i indices ih =>
    rw [List.flatMap_cons, List.length_append, Bytes.length_bigEndian, ih, List.length_cons,
      Nat.mul_succ, Nat.add_comm]

variable {c : Context}

theorem take_two_encode (c : Context) :
    c.encode.take 2 = Bytes.bigEndian 2 c.pendingCount := by
  rw [encode, List.append_assoc, List.take_left' (Bytes.length_bigEndian 2 _)]

theorem drop_two_encode (c : Context) :
    c.encode.drop 2 = (pendingIndices c.shards).flatMap (Bytes.bigEndian 2) ++
      c.shards.toList.flatMap Shard.encode := by
  rw [encode, List.append_assoc, List.drop_left' (Bytes.length_bigEndian 2 _)]

namespace Canonical

theorem length_pendingIndices (h : c.Canonical) :
    (pendingIndices c.shards).length = c.pendingCount := by
  rw [h.pendingCount_eq, pendingIndices_eq, length_positionsFrom, Array.countP_toList]

theorem pendingCount_le_size (h : c.Canonical) : c.pendingCount ≤ c.size :=
  h.pendingCount_eq ▸ Array.countP_le_size

theorem length_encode (h : c.Canonical) : c.encode.length = c.encodedSize := by
  unfold encode encodedSize
  rw [List.length_append, List.length_append, Bytes.length_bigEndian, length_flatMap_bigEndian,
    h.length_pendingIndices, length_flatMap_encode, Array.length_toList]
  rfl

theorem drop_header_encode (h : c.Canonical) :
    c.encode.drop (2 + 2 * c.pendingCount) = c.shards.toList.flatMap Shard.encode := by
  apply List.drop_left'
  rw [List.length_append, Bytes.length_bigEndian, length_flatMap_bigEndian,
    h.length_pendingIndices]

theorem readIndices_encode (h : c.Canonical) :
    readIndices c.size #[] c.pendingCount (c.encode.drop 2) =
      .ok (pendingIndices c.shards).toArray := by
  have hread := readIndices_flatMap #[] (c.shards.toList.flatMap Shard.encode)
    (fun i hi => (mem_pendingIndices hi).1)
    (fun i hi => (mem_pendingIndices hi).elim (h.index_le i))
    (pairwise_positionsFrom 0 c.shards.toList)
  rw [h.length_pendingIndices, ← drop_two_encode] at hread
  simpa [size] using hread

theorem readShards_encode (h : c.Canonical) :
    readShards #[] (pendingIndices c.shards) c.size (c.encode.drop (2 + 2 * c.pendingCount)) =
      .ok c.shards := by
  have hread := readShards_flatMap #[] h.ascending
  rw [h.drop_header_encode]
  simpa [size, pendingIndices_eq] using hread

end Canonical

theorem decode_encode (h : c.Canonical) : decode c.encode = .ok c := by
  have hcount : (Bytes.toInt16 (Bytes.bigEndian 2 c.pendingCount)).toInt = c.pendingCount :=
    Bytes.toInt_toInt16_bigEndian h.pendingCount_le
  have hnonneg : ¬ Bytes.toInt16 (Bytes.bigEndian 2 c.pendingCount) < 0 := by
    rw [Int16.lt_iff_toInt_lt, hcount]
    exact not_lt.mpr (Int.natCast_nonneg _)
  have hsize : ¬ c.encodedSize < 2 := by
    unfold encodedSize
    omega
  have hheader : ¬ c.encodedSize < 2 + 2 * c.pendingCount := by
    unfold encodedSize
    omega
  have hbody : c.encodedSize - (2 + 2 * c.pendingCount) = Shard.wireSize * c.size :=
    Nat.add_sub_cancel_left _ _
  have heven : ¬ Shard.wireSize * c.size % Shard.wireSize ≠ 0 := by simp
  have hdiv : Shard.wireSize * c.size / Shard.wireSize = c.size :=
    Nat.mul_div_cancel_left _ (by decide)
  have hpending : ¬ c.size < c.pendingCount := not_lt.mpr h.pendingCount_le_size
  unfold decode
  simp only [↓reduceIte, h.length_encode, take_two_encode, hcount, Int.toNat_natCast, hsize,
    hnonneg, hheader, hbody, heven, hdiv, hpending, h.readIndices_encode, h.readShards_encode,
    Except.ok_bind]
  exact h.ofSorted?_shards

end Context
end ShardCounter
