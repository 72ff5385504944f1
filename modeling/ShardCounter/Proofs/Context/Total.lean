import Mathlib.Algebra.BigOperators.Group.List.Basic
import Mathlib.Algebra.Ring.Int.Defs
import ShardCounter.Context.Basic
/-! The total of a context is the sum of its counts, reduced to 64 bits once at the end. -/
namespace ShardCounter

theorem foldl_add_ofInt {α : Type} (f : α → Int64) (xs : List α) (start : Int) :
    xs.foldl (fun sum x => sum + f x) (Int64.ofInt start) =
      Int64.ofInt (start + (xs.map fun x => (f x).toInt).sum) := by
  induction xs generalizing start with
  | nil => simp
  | cons x xs ih =>
    have hstep : Int64.ofInt start + f x = Int64.ofInt (start + (f x).toInt) := by
      rw [Int64.ofInt_add, Int64.ofInt_toInt]
    rw [List.foldl_cons, hstep, ih, List.map_cons, List.sum_cons, Int.add_assoc]

theorem Context.total_eq (c : Context) :
    c.total = Int64.ofInt (c.shards.toList.map (·.count.toInt)).sum := by
  have hfold := foldl_add_ofInt Shard.count c.shards.toList 0
  rw [Int.zero_add] at hfold
  rw [← hfold, total, ← Array.foldl_toList]
  rfl

end ShardCounter
