import Mathlib.Tactic.DeprecateTo
import ShardCounter.Cluster.Options
import ShardCounter.Cluster.Random
import ShardCounter.Cluster.Report
/-! The command line: a convergence run, and on request the scaling analysis. Clocks and random seed
are read here, and nowhere else. -/
namespace ShardCounter

def printLines (lines : List String) : IO Unit := lines.forM fun line => IO.println line

def orThrow {α : Type} : Except CellError α → IO α
  | .ok value => pure value
  | .error e => throw (IO.userError e.message)

-- `Std.Time` is reached through Mathlib's `deprecate to`, which dates what it deprecates.
def wallMicros : IO Int := do
  return (← Std.Time.Timestamp.now).toNanosecondsSinceUnixEpoch.val / 1000

def stressRun (replicas increments syncs : Nat) (seed : Option UInt64) : IO Report := do
  let seed ← match seed with
    | some seed => pure seed
    | none => UInt64.ofNat <$> IO.rand 0 (UInt64.size - 1)
  let started ← IO.monoNanosNow
  -- One reading of the wall clock starts all minters and dates all writes of the run.
  let micros ← wallMicros
  let w := Workload.random replicas increments syncs seed (fun _ => UInt64.ofNat micros.toNat)
    (Int64.ofInt micros)
  printLines w.banner
  let cluster ← orThrow w.incrementAll
  let exchanging ← IO.monoNanosNow
  let progress ← orThrow (w.exchangeAll cluster)
  let exchanged ← IO.monoNanosNow
  let outcome := w.outcome progress
  printLines w.phases
  let finished ← IO.monoNanosNow
  let count := outcome.sent + outcome.skipped
  return .ofOutcome w outcome (finished - started) ((exchanged - exchanging) / count)

def scalingRun (maxReplicas stepSize : Nat) (seed : Option UInt64) : IO Unit := do
  printLines Scaling.header
  for replicas in Scaling.sizes maxReplicas stepSize do
    let report ← stressRun replicas Scaling.incrementsPerReplica
      (replicas * Scaling.syncsPerReplica) seed
    printLines report.lines

def runOptions (o : Options) : IO UInt32 := do
  printLines ["", "", Report.topRule,
    "║            COUNTER CONVERGENCE STRESS TESTS                ║", Report.bottomRule]
  let report ← stressRun o.replicas.toNat o.increments.toNat o.syncs.toNat o.seed
  printLines report.lines
  if let some maxReplicas := o.scaleTo then scalingRun maxReplicas.toNat 2 o.seed
  if report.converged then
    printLines ["", "✓ All stress tests completed successfully!"]
    return 0
  else
    IO.eprintln s!"replicas diverged: expected {report.expectedTotal}, got {report.finalTotal}"
    return 1

end ShardCounter

open ShardCounter in
def main (arguments : List String) : IO UInt32 := do
  match Options.ofArguments arguments with
  | .ok options => runOptions options
  | .error .helpRequested =>
    IO.println OptionError.helpRequested.message
    return 0
  | .error e =>
    IO.eprintln e.message
    return 2
