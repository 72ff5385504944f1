import ShardCounter.Proofs.Bytes
import ShardCounter.Replica.Id
/-! The byte order of ids is the order of the numbers that they spell. -/
namespace ShardCounter

namespace Bytes

theorem value_cons (b : UInt8) (bytes : Bytes) :
    value (b :: bytes) = b.toNat * 256 ^ bytes.length + value bytes := by
  induction bytes using List.reverseRecOn with
  | nil => simp [value]
  | append_singleton bytes last ih =>
    rw [← List.cons_append, value_append_singleton, value_append_singleton, ih,
      List.length_append, List.length_singleton, Nat.pow_succ, ← Nat.mul_assoc, Nat.add_mul,
      Nat.add_assoc]

theorem digit_lt_iff {width x y v w : Nat} (hv : v < width) (hw : w < width) :
    x * width + v < y * width + w ↔ x < y ∨ x = y ∧ v < w := by
  rcases Nat.lt_trichotomy x y with hlt | rfl | hgt
  · have hmul : (x + 1) * width ≤ y * width := Nat.mul_le_mul_right width hlt
    rw [Nat.succ_mul] at hmul
    exact iff_of_true (by omega) (.inl hlt)
  · omega
  · have hmul : (y + 1) * width ≤ x * width := Nat.mul_le_mul_right width hgt
    rw [Nat.succ_mul] at hmul
    exact iff_of_false (by omega) (by omega)

theorem compare_eq_lt_iff {left right : Bytes} (h : left.length = right.length) :
    compare left right = .lt ↔ value left < value right := by
  induction left generalizing right with
  | nil =>
    have hright : right = [] := List.length_eq_zero_iff.mp h.symm
    rw [hright]
    exact iff_of_false (by decide) (Nat.lt_irrefl _)
  | cons b left ih =>
    cases right with
    | nil => contradiction
    | cons b' right =>
      have hlength : left.length = right.length := Nat.succ.inj h
      have hleft := value_lt left
      rw [List.compare_cons_cons, Ordering.then_eq_lt, Std.compare_eq_lt,
        Std.LawfulEqOrd.compare_eq_iff_eq, ih hlength, value_cons, value_cons, ← hlength,
        digit_lt_iff hleft (hlength ▸ value_lt right), UInt8.lt_iff_toNat_lt, UInt8.toNat_inj]

end Bytes

namespace ReplicaId

theorem order_eq_lt_iff {a b : ReplicaId} : a.order b = .lt ↔ a.toNat < b.toNat := by
  rw [order, Vector.compare_eq_compare_toList]
  exact Bytes.compare_eq_lt_iff (by simp)

theorem toNat_ofNat {n : Nat} (h : n < 256 ^ 16) : (ofNat n).toNat = n := by
  rw [toNat, ofNat, stable, Bytes.toList_toVector (Bytes.length_bigEndian 16 n),
    Bytes.value_bigEndian_of_lt h]

end ReplicaId
end ShardCounter
