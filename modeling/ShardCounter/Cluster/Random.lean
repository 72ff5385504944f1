import ShardCounter.Cluster.Workload
/-! Random workloads, each determined by its seed. -/
namespace ShardCounter

def draws (low high : Nat) (gen : StdGen) : Nat → List Nat
  | 0 => []
  | count + 1 =>
    let (n, gen) := randNat gen low high
    n :: draws low high gen count

namespace Workload

/-- Deltas run from -5 to 10. Every node draws from a generator of its own. -/
def randomIncrements (node count : Nat) (seed : UInt64) (writtenAt : Int64) : List Increment :=
  (draws 0 15 (mkStdGen (seed ^^^ UInt64.ofNat node).toNat) count).map fun n =>
    { node, delta := Int64.ofNat n - 5, writtenAt }

def pairUp : List Nat → List (Nat × Nat)
  | a :: b :: rest => (a, b) :: pairUp rest
  | _ => []

def random (replicas incrementsPerReplica syncs : Nat) (seed : UInt64)
    (startedAt : Nat → UInt64) (writtenAt : Int64) : Workload :=
  let replicas := max replicas 1
  { replicas
    incrementsPerReplica
    syncs
    startedAt
    increments := (List.range replicas).flatMap fun node =>
      randomIncrements node incrementsPerReplica seed writtenAt
    exchanges := pairUp (draws 0 (replicas - 1) (mkStdGen seed.toNat) (2 * syncs)) }

end Workload
end ShardCounter
