import Mathlib.Order.BoundedOrder.Lattice
import Mathlib.Order.MinMax
/-! The latest of the timestamps in a collection. Timestamps are signed 64-bit words. -/
namespace ShardCounter

instance instLinearOrderInt64 : LinearOrder Int64 where
  le_refl := Int64.le_refl
  le_trans _ _ _ := Int64.le_trans
  le_antisymm _ _ := Int64.le_antisymm
  le_total := Int64.le_total
  lt_iff_le_not_ge := Std.LawfulOrderLT.lt_iff
  toDecidableLE := inferInstance

instance instOrderBotInt64 : OrderBot Int64 where
  bot := Int64.minValue
  bot_le := Int64.minValue_le

/-- `m` is the latest of the timestamps that `f` reads off the members of `xs`. -/
structure IsLatest {α : Type} (f : α → Int64) (xs : List α) (m : Int64) : Prop where
  le : ∀ x ∈ xs, f x ≤ m
  mem : ∃ x ∈ xs, f x = m

namespace IsLatest

variable {α : Type} {f : α → Int64} {xs ys : List α} {m n : Int64}

theorem singleton (f : α → Int64) (x : α) : IsLatest f [x] (f x) where
  le y hy := by rw [List.mem_singleton.mp hy]
  mem := ⟨x, List.mem_singleton_self x, rfl⟩

theorem append (hm : IsLatest f xs m) (hn : IsLatest f ys n) :
    IsLatest f (xs ++ ys) (max m n) where
  le x hx := by
    rcases List.mem_append.mp hx with hx | hx
    · exact le_max_of_le_left (hm.le x hx)
    · exact le_max_of_le_right (hn.le x hx)
  mem := by
    obtain ⟨x, hx, hxm⟩ := hm.mem
    obtain ⟨y, hy, hyn⟩ := hn.mem
    rcases max_choice m n with h | h
    · exact ⟨x, List.mem_append_left ys hx, hxm.trans h.symm⟩
    · exact ⟨y, List.mem_append_right xs hy, hyn.trans h.symm⟩

theorem unique (hxy : ∀ x, x ∈ xs ↔ x ∈ ys) (hm : IsLatest f xs m) (hn : IsLatest f ys n) :
    m = n := by
  obtain ⟨x, hx, rfl⟩ := hm.mem
  obtain ⟨y, hy, rfl⟩ := hn.mem
  exact le_antisymm (hn.le x ((hxy x).mp hx)) (hm.le y ((hxy y).mpr hy))

end IsLatest
end ShardCounter
