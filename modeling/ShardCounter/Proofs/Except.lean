import Mathlib.Control.Monad.Basic
/-! Taking apart computations that may fail. -/
namespace Except

variable {ε α β : Type} {x : Except ε α} {f : α → Except ε β} {g : α → β}

@[simp] theorem ok_bind (a : α) : (ok a : Except ε α) >>= f = f a := rfl

@[simp] theorem error_bind (e : ε) : (error e : Except ε α) >>= f = error e := rfl

theorem bind_eq_ok_iff {b : β} : x >>= f = ok b ↔ ∃ a, x = ok a ∧ f a = ok b := by
  cases x <;> simp

theorem map_eq_ok_iff {b : β} : g <$> x = ok b ↔ ∃ a, x = ok a ∧ g a = b := by
  cases x <;> simp

theorem map_eq_error_iff {e : ε} : g <$> x = error e ↔ x = error e := by
  cases x <;> simp

theorem exists_error_iff : (∃ e, x = error e) ↔ ¬ ∃ a, x = ok a := by
  cases x <;> simp

end Except
