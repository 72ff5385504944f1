import ShardCounter.Cell.Digest
import ShardCounter.Cluster.Basic
/-! A convergence run: every node increments the counter, random pairs of nodes exchange what they
know, and a final round carries everything to everyone. What a run does depends only on its
workload, and what it prints only on the sizes and the number of exchanges. -/
namespace ShardCounter

structure Increment where
  node : Nat
  delta : Int64
  writtenAt : Int64
deriving DecidableEq

structure Workload where
  replicas : Nat
  incrementsPerReplica : Nat
  /-- The exchanges asked for, those of a node with itself included. -/
  syncs : Nat
  startedAt : Nat → UInt64
  /-- The increments of all nodes, in the order in which they happen. -/
  increments : List Increment
  exchanges : List (Nat × Nat)

structure Outcome where
  sent : Nat
  skipped : Nat
  expectedTotal : Int64
  finalTotal : Int64
  digest : Option Digest
  converged : Bool
deriving DecidableEq

namespace Workload

def cellName : CellName := .ofString "page_views"

def expectedTotal (w : Workload) : Int64 :=
  w.increments.foldl (fun sum i => sum + i.delta) 0

def pairs (w : Workload) : List (Nat × Nat) :=
  w.exchanges.filter fun (source, target) => source ≠ target

/-- Every other node pushes to node 0, and then node 0 pushes to every other node. -/
def finalRound (w : Workload) : List (Nat × Nat) :=
  let others := (List.range w.replicas).drop 1
  others.map (·, 0) ++ others.map (0, ·)

structure Progress where
  cluster : Cluster
  sent : Nat := 0
  skipped : Nat := 0

def Progress.exchange (p : Progress) (pair : Nat × Nat) : Except CellError Progress := do
  let (transferred, cluster) ← p.cluster.sync pair.1 pair.2 false
  return if transferred then { p with cluster, sent := p.sent + 1 }
    else { p with cluster, skipped := p.skipped + 1 }

def incrementAll (w : Workload) : Except CellError Cluster :=
  w.increments.foldlM (fun c i => c.increment i.node cellName i.delta i.writtenAt)
    (Cluster.start w.replicas w.startedAt)

def exchangeAll (w : Workload) (c : Cluster) : Except CellError Progress :=
  (w.pairs ++ w.finalRound).foldlM Progress.exchange { cluster := c }

/-- The nodes agree if their digests do and every total is the expected one. -/
def outcome (w : Workload) (p : Progress) : Outcome :=
  let slots := p.cluster.toList.map Node.slot
  let digests := slots.map fun slot => slot.map Cell.digest
  let totals := slots.map Slot.total
  { sent := p.sent
    skipped := p.skipped
    expectedTotal := w.expectedTotal
    finalTotal := totals.headD 0
    digest := digests.headD none
    converged := digests.all (· == digests.headD none) && totals.all (· == w.expectedTotal) }

def run (w : Workload) : Except CellError Outcome := do
  return w.outcome (← w.exchangeAll (← w.incrementAll))

def progressLines (w : Workload) : List String :=
  (List.range (w.pairs.length / 100)).map fun i =>
    "  Exchanges completed: " ++ toString (100 * (i + 1)) ++ "/" ++ toString w.syncs

end Workload
end ShardCounter
