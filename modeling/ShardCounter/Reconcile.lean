import ShardCounter.Context.Dominance
import ShardCounter.Context.Merge
/-! What replicated values have in common: two versions reconcile into one that carries all either
of them carries, or fail because they are corrupt in a way no merge rule should paper over. -/
namespace ShardCounter

class Reconcile (α : Type) (ε : outParam Type) where
  reconcile : α → α → Except ε α
  /-- Whether the left version carries everything the right one does. -/
  dominates : α → α → Except ε Bool

namespace Reconcile

variable {α ε : Type} [Reconcile α ε]

def diff? (left right : α) : Except ε (Option α) := do
  return if ← dominates left right then none else some right

/-- The partial order of dominance; `none` if neither side dominates. -/
def partialCompare (left right : α) : Except ε (Option Ordering) := do
  let forward ← dominates left right
  let backward ← dominates right left
  return match forward, backward with
    | true, true => some .eq
    | true, false => some .gt
    | false, true => some .lt
    | false, false => none

def reconcileAll : List α → Except ε (Option α)
  | [] => .ok none
  | first :: rest => some <$> rest.foldlM reconcile first

end Reconcile

instance : Reconcile Context ContextError where
  reconcile := Context.merge
  dominates left right := .ok (left.dominates right)

end ShardCounter
