import Mathlib.Data.List.Induction
import ShardCounter.Bytes.Lemmas
/-! Fixed-width words and vectors read back from the bytes that spell them, and spelled again as the
bytes they were read from. -/
namespace ShardCounter.Bytes

theorem value_bigEndian_of_lt {width n : Nat} (h : n < 256 ^ width) :
    value (bigEndian width n) = n := by
  rw [value_bigEndian, Nat.mod_eq_of_lt h]

theorem value_lt (bytes : Bytes) : value bytes < 256 ^ bytes.length := by
  induction bytes using List.reverseRecOn with
  | nil => decide
  | append_singleton bytes b ih =>
    have hb := b.toNat_lt
    rw [value_append_singleton, List.length_append, List.length_singleton, Nat.pow_succ]
    omega

theorem bigEndian_value (bytes : Bytes) : bigEndian bytes.length (value bytes) = bytes := by
  induction bytes using List.reverseRecOn with
  | nil => rfl
  | append_singleton bytes b ih =>
    have hb := b.toNat_lt
    have hfront : (value bytes * 256 + b.toNat) / 256 = value bytes := by omega
    have hlast : UInt8.ofNat (value bytes * 256 + b.toNat) = b := by
      apply UInt8.toNat_inj.mp
      rw [UInt8.toNat_ofNat']
      omega
    rw [value_append_singleton, List.length_append, List.length_singleton, bigEndian, hfront, hlast,
      ih]

@[simp] theorem toUInt64_ofUInt64 (word : UInt64) : toUInt64 (ofUInt64 word) = word := by
  unfold toUInt64 ofUInt64
  rw [value_bigEndian_of_lt word.toNat_lt, UInt64.ofNat_toNat]

@[simp] theorem toInt64_ofInt64 (word : Int64) : toInt64 (ofInt64 word) = word := by
  unfold toInt64 ofInt64
  rw [toUInt64_ofUInt64, Int64.toInt64_toUInt64]

theorem ofUInt64_toUInt64 {bytes : Bytes} (h : bytes.length = 8) :
    ofUInt64 (toUInt64 bytes) = bytes := by
  have hlt := value_lt bytes
  have hspell := bigEndian_value bytes
  rw [h] at hlt hspell
  rw [ofUInt64, toUInt64, UInt64.toNat_ofNat_of_lt' hlt, hspell]

theorem ofInt64_toInt64 {bytes : Bytes} (h : bytes.length = 8) :
    ofInt64 (toInt64 bytes) = bytes := by
  rw [ofInt64, toInt64, UInt64.toUInt64_toInt64, ofUInt64_toUInt64 h]

@[simp] theorem toInt32_ofInt32 (word : Int32) : toInt32 (ofInt32 word) = word := by
  unfold toInt32 ofInt32
  rw [value_bigEndian_of_lt word.toUInt32.toNat_lt, UInt32.ofNat_toNat, Int32.toInt32_toUInt32]

theorem ofInt32_toInt32 {bytes : Bytes} (h : bytes.length = 4) :
    ofInt32 (toInt32 bytes) = bytes := by
  have hlt := value_lt bytes
  have hspell := bigEndian_value bytes
  rw [h] at hlt hspell
  rw [ofInt32, toInt32, UInt32.toUInt32_toInt32, UInt32.toNat_ofNat_of_lt' hlt, hspell]

theorem toInt_toInt16_bigEndian {n : Nat} (h : n ≤ 32767) :
    (toInt16 (bigEndian 2 n)).toInt = n := by
  unfold toInt16
  rw [value_bigEndian_of_lt (by omega), UInt16.toInt16_ofNat', Int16.toInt_ofNat']
  exact Int.bmod_eq_of_le (by simp only [Int16.size]; omega) (by simp only [Int16.size]; omega)

theorem toInt16_of_nonneg {bytes : Bytes} (hlength : bytes.length = 2)
    (hsign : ¬ toInt16 bytes < 0) :
    (toInt16 bytes).toInt.toNat ≤ 32767 ∧
      bigEndian 2 (toInt16 bytes).toInt.toNat = bytes := by
  have hlt := value_lt bytes
  have hspell := bigEndian_value bytes
  rw [hlength] at hlt hspell
  have hword : (toInt16 bytes).toInt = (value bytes : Int).bmod 65536 := by
    rw [toInt16, UInt16.toInt16_ofNat', Int16.toInt_ofNat']
  rw [Int16.lt_iff_toInt_lt, hword, Int16.toInt_zero] at hsign
  have hvalue : (value bytes : Int).bmod 65536 = value bytes := by
    rw [Int.bmod_def] at hsign ⊢
    omega
  rw [hword, hvalue, Int.toNat_natCast]
  refine ⟨?_, hspell⟩
  rw [Int.bmod_def] at hvalue
  omega

theorem toVector_append {n : Nat} (v : Vector UInt8 n) (rest : Bytes) :
    toVector n (v.toList ++ rest) = v := by
  apply Vector.ext
  intro i hi
  simp [toVector, List.getElem?_append]

theorem toList_toVector_of_le {n : Nat} {bytes : Bytes} (h : n ≤ bytes.length) :
    (toVector n bytes).toList = bytes.take n := by
  apply List.ext_getElem
  · simp [h]
  · intro i hi hi'
    have hlength : i < bytes.length := Nat.lt_of_lt_of_le hi' (List.length_take_le' n bytes)
    simp [toVector, hlength]

theorem toList_toVector {n : Nat} {bytes : Bytes} (h : bytes.length = n) :
    (toVector n bytes).toList = bytes := by
  rw [toList_toVector_of_le (Nat.le_of_eq h.symm), List.take_of_length_le (Nat.le_of_eq h)]

end ShardCounter.Bytes
