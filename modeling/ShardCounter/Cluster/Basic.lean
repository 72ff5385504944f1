import ShardCounter.Cluster.Exchange
/-! Nodes that replicate one cell. A step changes the slot of one node; a step that fails changes
nothing. -/
namespace ShardCounter

structure Node where
  minter : Minter
  slot : Slot := none
deriving DecidableEq

abbrev Cluster := Array Node

inductive Step where
  | increment (node : Nat) (name : CellName) (delta writtenAt : Int64)
  /-- A cell that one node receives from outside. -/
  | put (node : Nat) (cell : Cell)
  | sync (source target : Nat)
deriving DecidableEq

namespace Cluster

def start (size : Nat) (startedAt : Nat → UInt64) : Cluster :=
  (Array.range size).map fun i =>
    { minter := .startingAt (UInt64.ofNat (i + 1)) (startedAt i) }

def slot (cluster : Cluster) (i : Nat) : Slot := cluster[i]?.bind Node.slot

def setSlot (cluster : Cluster) (i : Nat) (cell : Cell) : Cluster :=
  cluster.modify i fun node => { node with slot := some cell }

def increment (cluster : Cluster) (i : Nat) (name : CellName) (delta writtenAt : Int64) :
    Except CellError Cluster :=
  match cluster[i]? with
  | none => .ok cluster
  | some node => do
    let (counter, minter) :=
      Counter.increment node.minter name delta writtenAt Counter.neverDeleted
    let cell ← node.slot.absorb (.counter counter)
    return cluster.modify i fun _ => { minter, slot := some cell }

def put (cluster : Cluster) (i : Nat) (cell : Cell) : Except CellError Cluster :=
  return cluster.setSlot i (← (cluster.slot i).absorb cell)

/-- Tells whether anything was transferred. Nothing ever is from a node to itself. -/
def sync (cluster : Cluster) (source target : Nat) (force : Bool) :
    Except CellError (Bool × Cluster) :=
  if source = target then .ok (false, cluster)
  else do
    match ← Exchange.run .remote force (cluster.slot source) (cluster.slot target) with
    | .sent cell => return (true, cluster.setSlot target cell)
    | .nothing | .skipped => return (false, cluster)

def step (force : Bool) (cluster : Cluster) : Step → Except CellError Cluster
  | .increment node name delta writtenAt => cluster.increment node name delta writtenAt
  | .put node cell => cluster.put node cell
  | .sync source target => Prod.snd <$> cluster.sync source target force

/-- Takes the steps in order, skipping transfers that are not needed unless `force` is set. -/
def run (force : Bool) (cluster : Cluster) (steps : List Step) : Except CellError Cluster :=
  steps.foldlM (step force) cluster

end Cluster
end ShardCounter
