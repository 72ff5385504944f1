import Mathlib.Logic.Basic
import ShardCounter.Proofs.Except
/-! Orders and bracketings in which versions can be joined pairwise. A leaf may occur any number of
times, and every join may fail. -/
namespace ShardCounter

inductive MergeTree (α : Type) where
  | leaf (version : α)
  | node (left right : MergeTree α)

namespace MergeTree

variable {α ε : Type} {join : α → α → Except ε α}

def leaves : MergeTree α → List α
  | leaf version => [version]
  | node left right => left.leaves ++ right.leaves

def eval (join : α → α → Except ε α) : MergeTree α → Except ε α
  | leaf version => .ok version
  | node left right => do
    let l ← left.eval join
    let r ← right.eval join
    join l r

theorem eval_induction (motive : List α → α → Prop)
    (hnode : ∀ xs ys l r joined, motive xs l → motive ys r → join l r = .ok joined →
      motive (xs ++ ys) joined)
    {t : MergeTree α} {result : α} (hleaf : ∀ version ∈ t.leaves, motive [version] version)
    (h : t.eval join = .ok result) : motive t.leaves result := by
  induction t generalizing result with
  | leaf version =>
    cases h
    exact hleaf version (List.mem_singleton_self version)
  | node left right ihl ihr =>
    obtain ⟨l, hl, h⟩ := Except.bind_eq_ok_iff.mp h
    obtain ⟨r, hr, h⟩ := Except.bind_eq_ok_iff.mp h
    have hleft := ihl (fun v hv => hleaf v (List.mem_append_left _ hv)) hl
    have hright := ihr (fun v hv => hleaf v (List.mem_append_right _ hv)) hr
    exact hnode _ _ l r result hleft hright h

theorem exists_eval (P : α → Prop)
    (hnode : ∀ l r, P l → P r → ∃ joined, join l r = .ok joined ∧ P joined)
    {t : MergeTree α} (hleaf : ∀ version ∈ t.leaves, P version) :
    ∃ result, t.eval join = .ok result ∧ P result := by
  induction t with
  | leaf version => exact ⟨version, rfl, hleaf version (List.mem_singleton_self version)⟩
  | node left right ihl ihr =>
    obtain ⟨l, hl, hPl⟩ := ihl fun v hv => hleaf v (List.mem_append_left _ hv)
    obtain ⟨r, hr, hPr⟩ := ihr fun v hv => hleaf v (List.mem_append_right _ hv)
    obtain ⟨joined, hjoin, hP⟩ := hnode l r hPl hPr
    refine ⟨joined, ?_, hP⟩
    rw [eval, hl, Except.ok_bind, hr, Except.ok_bind, hjoin]

end MergeTree
end ShardCounter
