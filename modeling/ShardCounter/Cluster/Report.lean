import ShardCounter.Cluster.Workload
import ShardCounter.Decimal.Fixed
/-! What a convergence run prints: a banner, its phases, and a table of the results. -/
namespace ShardCounter

structure Report where
  replicas : Nat
  incrementsPerReplica : Nat
  sent : Nat
  skipped : Nat
  totalTime : Nat
  averageSyncTime : Nat
  operationsPerSecond : Float
  expectedTotal : Int64
  finalTotal : Int64
  digest : Option Digest
  converged : Bool

namespace Report

def rule : String := String.ofList (List.replicate 60 '═')

def topRule : String := "╔" ++ rule ++ "╗"

def middleRule : String := "╠" ++ rule ++ "╣"

def bottomRule : String := "╚" ++ rule ++ "╝"

/-- The whole seconds and the rest become doubles apart. -/
def seconds (nanoseconds : Nat) : Float :=
  Float.ofNat (nanoseconds / 1000000000) + Float.ofNat (nanoseconds % 1000000000) / 1000000000

/-- A row of the table. Values end in one column, behind them the unit; none is ever cut. -/
def row (label value unit : String) : String :=
  let label := label ++ String.ofList (List.replicate (27 - label.length) ' ')
  "║  " ++ label ++ Decimal.padLeft (30 - unit.length) ' ' value ++ unit ++ " ║"

def table (r : Report) : List String :=
  [row "Number of Replicas:" (toString r.replicas) "",
    row "Increments per Replica:" (toString r.incrementsPerReplica) "",
    row "Total Sync Operations:" (toString r.sent) "",
    row "Skipped by Diff:" (toString r.skipped) "",
    row "Total Time:" (Decimal.fixed 3 (seconds r.totalTime)) "s",
    row "Average Sync Time:" (toString (r.averageSyncTime / 1000)) "µs",
    row "Operations/Second:" (Decimal.fixed 0 r.operationsPerSecond) "",
    row "Expected Total:" (toString r.expectedTotal) "",
    row "Converged Total:" (toString r.finalTotal) "",
    row "Digest:" ((r.digest.map Digest.short).getD "-") "",
    row "Converged:" (toString r.converged) ""]

def lines (r : Report) : List String :=
  ["", topRule, "║              Stress Test Statistics                         ║", middleRule] ++
    r.table ++ [bottomRule]

def ofOutcome (w : Workload) (o : Outcome) (totalTime averageSyncTime : Nat) : Report where
  replicas := w.replicas
  incrementsPerReplica := w.incrementsPerReplica
  sent := o.sent
  skipped := o.skipped
  totalTime
  averageSyncTime
  operationsPerSecond :=
    Float.ofNat (w.replicas * w.incrementsPerReplica + o.sent) / seconds totalTime
  expectedTotal := o.expectedTotal
  finalTotal := o.finalTotal
  digest := o.digest
  converged := o.converged

end Report

namespace Workload

def banner (w : Workload) : List String :=
  ["", Report.topRule, "║        Counter Stress Test (Async)                         ║",
    "║  Replicas: " ++ toString w.replicas ++ " | Increments/Replica: " ++
      toString w.incrementsPerReplica ++ " | Syncs: " ++ toString w.syncs ++ " ║",
    Report.bottomRule, "", "[Phase 1/3] Local increments..."]

def phases (w : Workload) : List String :=
  ["[Phase 1/3] ✓ Completed", "[Phase 2/3] Random pairwise exchange..."] ++ w.progressLines ++
    ["[Phase 2/3] ✓ Completed", "[Phase 3/3] Final gossip round...", "[Phase 3/3] ✓ Completed"]

def runLines (w : Workload) : List String := w.banner ++ w.phases

end Workload

namespace Scaling

def header : List String :=
  ["", Report.topRule, "║      Scaling Analysis - Counter Convergence vs Replicas    ║",
    Report.bottomRule]

def sizes (maxReplicas stepSize : Nat) : List Nat :=
  let stepSize := max stepSize 1
  (List.range (maxReplicas / stepSize)).map fun i => stepSize * (i + 1)

def incrementsPerReplica : Nat := 50

def syncsPerReplica : Nat := 100

end Scaling
end ShardCounter
