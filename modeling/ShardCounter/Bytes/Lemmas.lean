import Mathlib.Algebra.Ring.Nat
import ShardCounter.Bytes
/-! Big-endian words read back: `value` undoes `bigEndian` for every number that fits the width. -/
namespace ShardCounter.Bytes

theorem value_bigEndian (width n : Nat) : value (bigEndian width n) = n % 256 ^ width := by
  induction width generalizing n with
  | zero => simp [bigEndian, value, Nat.mod_one]
  | succ width ih =>
    rw [bigEndian, value_append_singleton, ih, UInt8.toNat_ofNat', Nat.pow_succ 256,
      Nat.mul_comm (256 ^ width), Nat.mod_mul]
    omega

end ShardCounter.Bytes
