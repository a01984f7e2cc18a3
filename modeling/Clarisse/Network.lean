import Clarisse.Links
import Clarisse.Results

/-!
# The network of ranks

The ordinary build: a leaf quits when it sees `leafs_finished`, and the root gives its
results to the application.
-/

namespace Clarisse

def leafPulse (E : Nat → When → Sampling) (leafsFinished : Bool) (s : LeafState) : Except Halt LeafState :=
  let data := { s.data with quit := if leafsFinished then 1 else 0, timestamp := s.counter }
  match sampleFile (E s.counter .current) s.aggregator data.metricsNr with
  | .error e => .error e
  | .ok (agg, nr, values, needsSync) =>
    let data :=
      { data with
        metricsNr := nr
        gatherInfo := values
        updateFile := if needsSync then 1 else 0
        contributions := [agg.desiredMetrics.getD []] }
    .ok { counter := s.counter + 1, data := data, aggregator := agg, submitted := s.submitted ++ [data] }

abbrev Node : Type := NodeOf OwnState

abbrev Net : Type := NetOf OwnState RootState

/-- The leaf thread reads `leafs_finished` for each pulse. -/
abbrev Act : Type := ActOf Bool Unit

@[match_pattern] abbrev Act.final : Act := ActOf.final ()

section
variable (T : Topology) (E : Nat → Nat → When → Sampling)

def netInit : Net where
  leaf := startCommunication T
  node _ := { own := {} }
  root := {}
  halted := none

def netStep (σ : Net) (a : Act) : Option Net :=
  σ.step T false (fun r => leafPulse (E r)) (fun r => computeOwnMetrics T r (E r)) OwnState.submitted RootState.pulse
    (fun _ => finalResult T.nprocs) a

def Reachable (σ : Net) : Prop := ∃ as, Transition.exec (netStep T E) (netInit T) as = some σ

abbrev Steps (σ : Net) (a : Act) (σ' : Net) : Prop :=
  σ.Steps T false (fun r => leafPulse (E r)) (fun r => computeOwnMetrics T r (E r)) OwnState.submitted RootState.pulse
    (fun _ => finalResult T.nprocs) a σ'

end

theorem netStep_steps {T : Topology} {E : Nat → Nat → When → Sampling} {σ σ' : Net} {a : Act}
    (h : netStep T E σ a = some σ') : σ.halted = none ∧ Steps T E σ a σ' := NetOf.step_steps h

end Clarisse
