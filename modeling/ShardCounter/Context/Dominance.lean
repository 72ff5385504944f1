import ShardCounter.Context.Basic
/-! How the information in one context relates to that in another. A context dominates another if
it holds every replica of it at an equal or higher clock; counts and pending flags play no part. -/
namespace ShardCounter

inductive Relationship where
  | equal
  | greater
  | less
  /-- Each side knows something the other does not. -/
  | disjoint
deriving DecidableEq

namespace Relationship

def name : Relationship → String
  | .equal => "Equal"
  | .greater => "GreaterThan"
  | .less => "LessThan"
  | .disjoint => "Disjoint"

def absorb (verdict step : Relationship) : Relationship :=
  match verdict, step with
  | verdict, .equal => verdict
  | .equal, step => step
  | verdict, step => if verdict = step then verdict else .disjoint

def ofClocks (left right : UInt64) : Relationship :=
  if right < left then .greater else if left < right then .less else .equal

end Relationship

namespace Context

/-- Walks two ascending lists together; nothing changes the verdict once it is `disjoint`. -/
def relate (verdict : Relationship) : List Shard → List Shard → Relationship
  | [], [] => verdict
  | _ :: _, [] => verdict.absorb .greater
  | [], _ :: _ => verdict.absorb .less
  | a :: left, b :: right =>
    if verdict = .disjoint then .disjoint
    else match a.id.order b.id with
      | .lt => relate (verdict.absorb .greater) left (b :: right)
      | .gt => relate (verdict.absorb .less) (a :: left) right
      | .eq => relate (verdict.absorb (.ofClocks a.clock b.clock)) left right
termination_by left right => left.length + right.length

def relationship (left right : Context) : Relationship :=
  relate .equal left.shards.toList right.shards.toList

def dominates (left right : Context) : Bool :=
  match left.relationship right with
  | .equal | .greater => true
  | .less | .disjoint => false

def diff? (left right : Context) : Option Context :=
  if left.dominates right then none else some right

end Context
end ShardCounter
