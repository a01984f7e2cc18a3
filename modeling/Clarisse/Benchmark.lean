import Clarisse.Network

/-!
# The benchmarking build

With `BENCHMARKING` defined a leaf quits by itself at its last timestamp,
`compute_own_metrics` counts in an array of `max_timestamps` entries, and
`final_result` records the time that each pulse took and prints the table when
it is done. The clock is read where the source reads it, with any result.
-/

namespace Clarisse.Benchmark

open Interleave

/-! ## The leaf thread -/

def leafPulse (maxTimestamps : Nat) (E : Nat → When → Sampling) (startTime : Rat) (s : LeafState) :
    Except Halt LeafState :=
  let data :=
    { s.data with
      quit := if s.counter + 1 = maxTimestamps then 1 else s.data.quit
      timestamp := s.counter }
  match sampleFile (E s.counter .current) s.aggregator data.metricsNr with
  | .error e => .error e
  | .ok (agg, nr, values, needsSync) =>
    let data :=
      { data with
        metricsNr := nr
        gatherInfo := values
        updateFile := if needsSync then 1 else 0
        startTime := startTime
        contributions := [agg.desiredMetrics.getD []] }
    .ok { counter := s.counter + 1, data := data, aggregator := agg, submitted := s.submitted ++ [data] }

/-! ## The own metrics -/

/-- The static variables of `compute_own_metrics`; `hash_ts` is not used. -/
structure OwnState extends Clarisse.OwnState where
  countTimestamps : List Nat

def OwnState.receive (s : OwnState) (ts : Nat) : OwnState :=
  { s with countTimestamps := s.countTimestamps.set ts (s.countTimestamps.getD ts 0 + 1) }

def submit (s : Clarisse.OwnState) : Clarisse.OwnState :=
  { s with submitted := s.submitted ++ [s.data], counter := s.counter + 1 }

def submitOwn (T : Topology) (rank maxTimestamps : Nat) (E : Nat → When → Sampling) (event : Metrics)
    (s : Clarisse.OwnState) : Except Halt Clarisse.OwnState :=
  let sampled :=
    if s.firstPulse ∨ event.updateFile ≠ 0 ∨ event.quit ≠ 0 then
      { s with firstPulse := false }.sample T rank E .current event
    else .ok s
  match sampled with
  | .error e => .error e
  | .ok s =>
    if s.data.timestamp + 1 = maxTimestamps then .ok (submit s) else (submit s).sample T rank E .next event

def computeOwnMetrics (T : Topology) (rank maxTimestamps : Nat) (E : Nat → When → Sampling) (s : OwnState)
    (event : Metrics) : Except Halt OwnState :=
  let s := s.receive event.timestamp
  if s.countTimestamps.getD s.counter 0 = T.getDegreeNode rank then
    match submitOwn T rank maxTimestamps E event s.toOwnState with
    | .error e => .error e
    | .ok own => .ok { s with toOwnState := own }
  else .ok s

def handleAll (T : Topology) (rank maxTimestamps : Nat) (E : Nat → When → Sampling) (es : List Metrics) :
    Except Halt OwnState :=
  es.foldlM (computeOwnMetrics T rank maxTimestamps E) { countTimestamps := List.replicate maxTimestamps 0 }

/-! ## The root -/

/-- The static pulse of `final_result`, the table it records and has printed. -/
structure RootState where
  pulse : Nat := 0
  benchmarkingResults : List Rat := []
  printed : List (List Rat) := []
  rootFinished : Bool := false
  deriving DecidableEq, Repr

def record (maxTimestamps : Nat) (endTime : Rat) (s : RootState) (event : Metrics) : List Rat :=
  (if s.pulse = 0 then List.replicate maxTimestamps 0 else s.benchmarkingResults).set s.pulse
    (endTime - event.startTime)

def Finishes (maxTimestamps : Nat) (event : Metrics) : Prop :=
  event.timestamp + 1 = maxTimestamps ∨ event.quit ≠ 0 ∨ event.metricsNr = 0

instance (maxTimestamps : Nat) (event : Metrics) : Decidable (Finishes maxTimestamps event) :=
  inferInstanceAs (Decidable (_ ∨ _))

def finalResult (maxTimestamps : Nat) (endTime : Rat) (s : RootState) (event : Metrics) : RootState :=
  let results := record maxTimestamps endTime s event
  { pulse := s.pulse + 1
    benchmarkingResults := results
    printed := if Finishes maxTimestamps event then s.printed ++ [results] else s.printed
    rootFinished := s.rootFinished || decide (Finishes maxTimestamps event) }

/-! ## The ranks together -/

abbrev Node : Type := NodeOf OwnState

abbrev Net : Type := NetOf OwnState RootState

abbrev Act : Type := ActOf Rat Rat

section
variable (T : Topology) (maxTimestamps : Nat) (E : Nat → Nat → When → Sampling)

def netInit : Net where
  leaf := startCommunication T
  node _ := { own := { countTimestamps := List.replicate maxTimestamps 0 } }
  root := {}
  halted := none

def netStep (σ : Net) (a : Act) : Option Net :=
  σ.step T true (fun r => leafPulse maxTimestamps (E r)) (fun r => computeOwnMetrics T r maxTimestamps (E r))
    (fun s => s.submitted) RootState.pulse (finalResult maxTimestamps) a

abbrev Steps (σ : Net) (a : Act) (σ' : Net) : Prop :=
  σ.Steps T true (fun r => leafPulse maxTimestamps (E r)) (fun r => computeOwnMetrics T r maxTimestamps (E r))
    (fun s => s.submitted) RootState.pulse (finalResult maxTimestamps) a σ'

end

theorem netStep_steps {T : Topology} {maxTimestamps : Nat} {E : Nat → Nat → When → Sampling} {σ σ' : Net} {a : Act}
    (h : netStep T maxTimestamps E σ a = some σ') : σ.halted = none ∧ Steps T maxTimestamps E σ a σ' :=
  NetOf.step_steps h

end Clarisse.Benchmark
