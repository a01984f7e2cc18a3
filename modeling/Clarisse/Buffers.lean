import Clarisse.Benchmark
import Clarisse.Crawler
import Clarisse.OwnMetrics

/-!
# The buffers of a sampling

`compute_own_metrics` with every index checked and with the array `Events` of
metric_type.c, which the file path alone allocates. Before `compute_metric` runs
and before the own event is submitted, the counts have to match the arrays.
-/

namespace Clarisse.Buffers

inductive Fault where
  | halt (h : Halt)
  | mismatch
  | outOfRange
  deriving DecidableEq, Repr

structure Matches (nr : Int) (agg : Aggregator) (values : List Aggregators) (room : Nat) : Prop where
  metricsNr : nr = agg.totalMetrics
  desired : ((agg.desiredMetrics.getD []).length : Int) = agg.totalMetrics
  gatherInfo : nr ≤ values.length
  events : agg.totalMetrics ≤ room

instance (nr : Int) (agg : Aggregator) (values : List Aggregators) (room : Nat) :
    Decidable (Matches nr agg values room) :=
  decidable_of_iff (nr = agg.totalMetrics ∧ ((agg.desiredMetrics.getD []).length : Int) = agg.totalMetrics ∧
      nr ≤ values.length ∧ agg.totalMetrics ≤ room)
    ⟨fun h => ⟨h.1, h.2.1, h.2.2.1, h.2.2.2⟩, fun h => ⟨h.1, h.2, h.3, h.4⟩⟩

/-! ## The checked program -/

/-- `values[i]` written three times. -/
def writeValue (values : List Aggregators) (i : Nat) (value : Int) : Except Fault (List Aggregators) :=
  if i < values.length then .ok (values.set i ⟨value, value, value⟩) else .error .outOfRange

/-- The loop of `compute_metric` from index `i` on; a PAPI event takes an entry of `Events`. -/
def computeMetricFrom (p : Probe) (names : List Alias) (room : Nat) : Nat → Nat → Nat → List Aggregators →
    Except Fault (List Aggregators)
  | 0, _, _, values => .ok values
  | k + 1, i, papiMetricsNr, values =>
    if i < names.length then
      match names.getD i none with
      | none => .error (.halt .nullName)
      | some name =>
        match p.getValue i name with
        | some value =>
          match writeValue values i value with
          | .error e => .error e
          | .ok values => computeMetricFrom p names room k (i + 1) papiMetricsNr values
        | none =>
          if papiMetricsNr < room then
            match p.eventNameToCode i name with
            | none => .ok values
            | some code =>
              if p.startCounters i code then
                match p.stopCounters i code with
                | none => .ok values
                | some value =>
                  match writeValue values i value with
                  | .error e => .error e
                  | .ok values => computeMetricFrom p names room k (i + 1) (papiMetricsNr + 1) values
              else .ok values
          else .error .outOfRange
    else .error .outOfRange

/-- `compute_metric`, which allocates `Events` anew on the file path. -/
def computeMetric (p : Probe) (metricsNr : Int) (agg : Aggregator) (values : List Aggregators) (update : Bool)
    (room : Nat) : Except Fault (List Aggregators × Nat) :=
  let room := if update then agg.totalMetrics.toNat else room
  if Matches metricsNr agg values room then
    match computeMetricFrom p (agg.desiredMetrics.getD []) room agg.totalMetrics.toNat 0 0 values with
    | .error e => .error e
    | .ok values => .ok (values, room)
  else .error .mismatch

/-- `metrics_crawler_results_file` up to the call of `compute_metric`. -/
def readDesired (agg : Aggregator) (file : Option MetricsFile) : Except Halt Aggregator :=
  match file with
  | none => .error .exit
  | some f =>
    match f.number with
    | .eof => .error .exit
    | scan =>
      let number := match scan with | .value n => n | _ => 0
      let desired := (readNames number agg f.names 0 (agg.desiredMetrics.getD []) false).1
      .ok { agg with desiredMetrics := agg.desiredMetrics.map fun _ => desired }

def metricsCrawlerResultsFile (p : Probe) (nr : Int) (agg : Aggregator) (result : List Aggregators)
    (file : Option MetricsFile) (room : Nat) : Except Fault (Aggregator × List Aggregators × Nat) :=
  match readDesired agg file with
  | .error e => .error (.halt e)
  | .ok agg =>
    match computeMetric p nr agg result true room with
    | .error e => .error e
    | .ok (values, room) => .ok (agg, values, room)

def sampleFile (S : Sampling) (agg : Aggregator) (nr : Int) (room : Nat) :
    Except Fault (Aggregator × Int × List Aggregators × Nat) :=
  match initializeMetricsCrawlerNumberFromFile agg nr S.file with
  | .error e => .error (.halt e)
  | .ok (agg, nr) =>
    match metricsCrawlerResultsFile S.probe nr agg (S.malloc nr) S.file' room with
    | .error e => .error e
    | .ok (agg, values, room) => .ok (agg, nr, values, room)

def sampleMemory (S : Sampling) (agg : Aggregator) (gatherInfo : List Aggregators) (room : Nat) :
    Except Fault (Int × List Aggregators × Nat) :=
  let nr := initializeMetricsCrawlerNumberFromMemory agg
  match computeMetric S.probe nr agg gatherInfo false room with
  | .error e => .error e
  | .ok (values, room) => .ok (nr, values, room)

def getMetricsValues (T : Topology) (rank : Nat) (S : Sampling) (agg : Aggregator) (event : Metrics) (counter : Nat)
    (data : Metrics) (room : Nat) : Except Fault (Aggregator × Metrics × Nat) :=
  let data :=
    { data with
      maxDegree := T.maxDegree
      updateFile := event.updateFile
      timestamp := counter
      parentRank := T.getParent rank
      nprocs := T.nprocs
      quit := event.quit
      startTime := -1 }
  if event.updateFile ≠ 0 then
    match sampleFile S agg data.metricsNr room with
    | .error e => .error e
    | .ok (agg, nr, values, room) =>
      let data := { data with metricsNr := nr, gatherInfo := values, contributions := [agg.desiredMetrics.getD []] }
      .ok (agg, data, room)
  else
    match sampleMemory S agg data.gatherInfo room with
    | .error e => .error e
    | .ok (nr, values, room) =>
      let data := { data with metricsNr := nr, gatherInfo := values, contributions := [agg.desiredMetrics.getD []] }
      .ok (agg, data, room)

structure State where
  own : OwnState
  room : Nat

def State.sample (s : State) (T : Topology) (rank : Nat) (E : Nat → When → Sampling) (w : When) (event : Metrics) :
    Except Fault State :=
  match getMetricsValues T rank (E s.own.counter w) s.own.aggregator event s.own.counter s.own.data s.room with
  | .error e => .error e
  | .ok (agg, data, room) => .ok ⟨{ s.own with aggregator := agg, data := data }, room⟩

/-- The branch that submits, for both builds: they differ in what `submit` does besides
`EVsubmit`, and in when the call returns after it. -/
def submitOwn (T : Topology) (rank : Nat) (E : Nat → When → Sampling) (submit : OwnState → OwnState)
    (returns : OwnState → Prop) [DecidablePred returns] (event : Metrics) (s : State) : Except Fault State :=
  let sampled :=
    if s.own.firstPulse ∨ event.updateFile ≠ 0 ∨ event.quit ≠ 0 then
      State.sample ⟨{ s.own with firstPulse := false }, s.room⟩ T rank E .current event
    else .ok s
  match sampled with
  | .error e => .error e
  | .ok s =>
    if Matches s.own.data.metricsNr s.own.aggregator s.own.data.gatherInfo s.room then
      if returns s.own then .ok ⟨submit s.own, s.room⟩
      else State.sample ⟨submit s.own, s.room⟩ T rank E .next event
    else .error .mismatch

def computeOwnMetrics (T : Topology) (rank : Nat) (E : Nat → When → Sampling) (s : State) (event : Metrics) :
    Except Fault State :=
  let own := s.own.receive event.timestamp
  match own.hashTs own.counter with
  | none => .error (.halt .nullFound)
  | some countTs =>
    if countTs = T.getDegreeNode rank then
      submitOwn T rank E OwnState.submit (fun _ => event.quit ≠ 0) event ⟨own, s.room⟩
    else .ok ⟨own, s.room⟩

def handleAll (T : Topology) (rank : Nat) (E : Nat → When → Sampling) (es : List Metrics) : Except Fault State :=
  es.foldlM (computeOwnMetrics T rank E) ⟨{}, 0⟩

structure BenchmarkState extends State where
  countTimestamps : List Nat

def benchmarkOwnMetrics (T : Topology) (rank maxTimestamps : Nat) (E : Nat → When → Sampling) (s : BenchmarkState)
    (event : Metrics) : Except Fault BenchmarkState :=
  let countTimestamps := s.countTimestamps.set event.timestamp (s.countTimestamps.getD event.timestamp 0 + 1)
  if countTimestamps.getD s.own.counter 0 = T.getDegreeNode rank then
    match submitOwn T rank E Benchmark.submit (fun own => own.data.timestamp + 1 = maxTimestamps) event s.toState with
    | .error e => .error e
    | .ok s => .ok ⟨s, countTimestamps⟩
  else .ok ⟨s.toState, countTimestamps⟩

def benchmarkHandleAll (T : Topology) (rank maxTimestamps : Nat) (E : Nat → When → Sampling) (es : List Metrics) :
    Except Fault BenchmarkState :=
  es.foldlM (benchmarkOwnMetrics T rank maxTimestamps E) ⟨⟨{}, 0⟩, List.replicate maxTimestamps 0⟩

/-! ## The checks never fail -/

/-- The checked program halts as the program does, and never fails a check. -/
abbrev Agrees {α β : Type} (R : α → β → Prop) : Except Fault α → Except Halt β → Prop :=
  Transition.Agrees (fun f h => f = .halt h) R

/-- No file announces a negative number of metrics. -/
def Counted (S : Sampling) : Prop := ∀ f n, S.file = some f → f.number = .value n → 0 ≤ n

section
variable {agg : Aggregator} {values : List Aggregators} {nr : Int} {S : Sampling}

theorem computeMetricFrom_agrees (p : Probe) (names : List Alias) (room : Nat) :
    ∀ (k i papiMetricsNr : Nat) (values : List Aggregators), i + k ≤ names.length → i + k ≤ values.length →
      i + k ≤ room → papiMetricsNr ≤ i →
      Agrees (fun v w => v = w ∧ v.length = values.length) (computeMetricFrom p names room k i papiMetricsNr values)
        (Clarisse.computeMetricFrom p names k i values)
  | 0, _, _, _, _, _, _, _ => ⟨rfl, rfl⟩
  | k + 1, i, papiMetricsNr, values, hn, hv, hr, hp => by
    have hi : i < names.length := by omega
    have hw : ∀ value : Int, writeValue values i value = .ok (values.set i ⟨value, value, value⟩) :=
      fun value => if_pos (by omega)
    have hlen : ∀ value : Int, (values.set i ⟨value, value, value⟩).length = values.length :=
      fun value => List.length_set
    unfold computeMetricFrom Clarisse.computeMetricFrom
    rw [if_pos hi]
    cases hname : names.getD i none with
    | none => rfl
    | some name =>
      simp only [Probe.measure]
      cases hg : p.getValue i name with
      | some value =>
        simp only [hw]
        have := computeMetricFrom_agrees p names room k (i + 1) papiMetricsNr (values.set i ⟨value, value, value⟩)
          (by omega) (by rw [hlen]; omega) (by omega) (by omega)
        rwa [hlen] at this
      | none =>
        rw [if_pos (by omega : papiMetricsNr < room)]
        cases hc : p.eventNameToCode i name with
        | none => exact ⟨rfl, rfl⟩
        | some code =>
          by_cases hs : p.startCounters i code = true
          · simp only [if_pos hs]
            cases ht : p.stopCounters i code with
            | none => exact ⟨rfl, rfl⟩
            | some value =>
              simp only [hw]
              have := computeMetricFrom_agrees p names room k (i + 1) (papiMetricsNr + 1)
                (values.set i ⟨value, value, value⟩) (by omega) (by rw [hlen]; omega) (by omega) (by omega)
              rwa [hlen] at this
          · simp only [if_neg hs]
            exact ⟨rfl, rfl⟩

theorem computeMetric_agrees (p : Probe) (update : Bool) (room : Nat) {room' : Nat}
    (hroom : room' = if update then agg.totalMetrics.toNat else room) (h : Matches nr agg values room') :
    Agrees (fun x w => x = (w, room') ∧ Matches nr agg w room')
      (computeMetric p nr agg values update room)
      (Clarisse.computeMetric p (agg.desiredMetrics.getD []) values agg.totalMetrics) := by
  obtain ⟨h1, h2, h3, h4⟩ := h
  have hloop := computeMetricFrom_agrees p (agg.desiredMetrics.getD []) room'
    agg.totalMetrics.toNat 0 0 values (by omega) (by omega) (by omega) (Nat.le_refl 0)
  unfold computeMetric Clarisse.computeMetric
  simp only [← hroom]
  rw [if_pos ⟨h1, h2, h3, h4⟩]
  rcases hloop.cases with ⟨e, d, hc, hm, rfl⟩ | ⟨v, w, hc, hm, rfl, hlen⟩
  · rw [hc, hm]
    rfl
  · rw [hc, hm]
    exact ⟨rfl, h1, h2, by rw [hlen]; exact h3, h4⟩

theorem resultsFile_value_agrees (p : Probe) (n : Int) (names : List String) (room : Nat) {d : List Alias}
    (hd : agg.desiredMetrics = some d) (hlen : (d.length : Int) = agg.totalMetrics) (hnr : nr = agg.totalMetrics)
    (hv : nr ≤ values.length) :
    Agrees (fun x y => x.1 = y.1 ∧ x.2.1 = y.2.1 ∧ Matches nr y.1 y.2.1 x.2.2)
      (metricsCrawlerResultsFile p nr agg values (some ⟨.value n, names⟩) room)
      (Clarisse.metricsCrawlerResultsFile p agg values (some ⟨.value n, names⟩)) := by
  have hread : (readNames n agg names 0 d false).1.length = d.length := readNames_length ..
  have hm : Matches nr { agg with desiredMetrics := some (readNames n agg names 0 d false).1 } values
      agg.totalMetrics.toNat :=
    ⟨hnr, by rw [Option.getD_some, hread]; exact hlen, hv, by simp only; omega⟩
  unfold metricsCrawlerResultsFile readDesired Clarisse.metricsCrawlerResultsFile
  simp only [hd, Option.getD_some, Option.map_some]
  rcases (computeMetric_agrees p true room rfl hm).cases with
    ⟨e, d, hc, hw, rfl⟩ | ⟨v, w, hc, hw, rfl, hmatch⟩
  · rw [Option.getD_some] at hw
    rw [hc, hw]
    rfl
  · rw [Option.getD_some] at hw
    rw [hc, hw]
    exact ⟨rfl, rfl, hmatch⟩

theorem resultsFile_agrees (p : Probe) (file : Option MetricsFile) (room : Nat) {d : List Alias}
    (hd : agg.desiredMetrics = some d) (hlen : (d.length : Int) = agg.totalMetrics) (hnr : nr = agg.totalMetrics)
    (hv : nr ≤ values.length) :
    Agrees (fun x y => x.1 = y.1 ∧ x.2.1 = y.2.1 ∧ Matches nr y.1 y.2.1 x.2.2)
      (metricsCrawlerResultsFile p nr agg values file room)
      (Clarisse.metricsCrawlerResultsFile p agg values file) := by
  cases file with
  | none => rfl
  | some f =>
    obtain ⟨number, names⟩ := f
    cases number with
    | eof => rfl
    | mismatch => exact resultsFile_value_agrees p 0 names room hd hlen hnr hv
    | value n => exact resultsFile_value_agrees p n names room hd hlen hnr hv

theorem sampleFile_agrees (agg : Aggregator) (room : Nat) (hS : Counted S) (hnr : 0 ≤ nr) :
    Agrees (fun x y => x.1 = y.1 ∧ x.2.1 = y.2.1 ∧ x.2.2.1 = y.2.2.1 ∧ Matches y.2.1 y.1 y.2.2.1 x.2.2.2)
      (sampleFile S agg nr room) (Clarisse.sampleFile S agg nr) := by
  unfold sampleFile Clarisse.sampleFile
  cases hi : initializeMetricsCrawlerNumberFromFile agg nr S.file with
  | error e => rfl
  | ok x =>
    obtain ⟨hx, f, hf, hn⟩ := numberFromFile_ok hi
    obtain ⟨agg₁, n⟩ := x
    have h0 : 0 ≤ n := by
      rcases hn with hn | ⟨-, hn⟩
      · exact hS f n hf hn
      · change n = nr at hn
        omega
    simp only at hx
    subst hx
    have hc : (agg.resize n).desiredMetrics = some (List.replicate n.toNat none) := if_neg (by omega)
    have hlen : ((List.replicate n.toNat (none : Alias)).length : Int) = n := by
      rw [List.length_replicate]
      exact Int.toNat_of_nonneg h0
    have hv : n ≤ ((S.malloc n).length : Int) := by
      simp [Sampling.malloc]
    simp only
    rcases (resultsFile_agrees S.probe S.file' room hc hlen (rfl : n = _) hv).cases with
      ⟨e, d, hr, hw, rfl⟩ | ⟨v, w, hr, hw, h1, h2, h3⟩
    · rw [hr, hw]
      rfl
    · rw [hr, hw]
      exact ⟨h1, rfl, h2, h3⟩

theorem sampleMemory_agrees {room : Nat} (h : Matches agg.totalMetrics agg values room) :
    Agrees (fun x y => x.1 = y.1 ∧ x.2.1 = y.2 ∧ Matches y.1 agg y.2 x.2.2)
      (sampleMemory S agg values room) (Clarisse.sampleMemory S agg values) := by
  unfold sampleMemory Clarisse.sampleMemory metricsCrawlerResultsMemory initializeMetricsCrawlerNumberFromMemory
  simp only
  rcases (computeMetric_agrees S.probe false room rfl h).cases with
    ⟨e, d, hc, hw, rfl⟩ | ⟨v, w, hc, hw, rfl, hmatch⟩
  · rw [hc, hw]
    rfl
  · rw [hc, hw]
    exact ⟨rfl, rfl, hmatch⟩

end

/-! ## The handler -/

def State.Fits (s : State) (own : OwnState) : Prop :=
  s.own = own ∧ Matches own.data.metricsNr own.aggregator own.data.gatherInfo s.room

section
variable {T : Topology} {rank : Nat} {E : Nat → When → Sampling}

theorem getMetricsValues_agrees (event : Metrics) {S : Sampling} {agg : Aggregator} {data : Metrics}
    {counter room : Nat} (hS : Counted S) (h : Matches data.metricsNr agg data.gatherInfo room) :
    Agrees (fun x y => x.1 = y.1 ∧ x.2.1 = y.2 ∧ Matches y.2.metricsNr y.1 y.2.gatherInfo x.2.2)
      (getMetricsValues T rank S agg event counter data room)
      (Clarisse.getMetricsValues T rank S agg event counter data) := by
  unfold getMetricsValues Clarisse.getMetricsValues
  simp only
  by_cases hu : event.updateFile ≠ 0
  · rw [if_pos hu, if_pos hu]
    have hnr : 0 ≤ data.metricsNr := by
      rw [h.metricsNr, ← h.desired]
      exact Int.natCast_nonneg _
    rcases (sampleFile_agrees agg room hS hnr).cases with
      ⟨e, d, hc, hw, rfl⟩ | ⟨v, w, hc, hw, h1, h2, h3, h4⟩
    · rw [hc, hw]
      rfl
    · rw [hc, hw]
      exact ⟨h1, by simp only [h1, h2, h3], h4⟩
  · rw [if_neg hu, if_neg hu]
    rcases (sampleMemory_agrees (S := S) (h.metricsNr ▸ h)).cases with
      ⟨e, d, hc, hw, rfl⟩ | ⟨v, w, hc, hw, h1, h2, h3⟩
    · rw [hc, hw]
      rfl
    · rw [hc, hw]
      exact ⟨rfl, by simp only [h1, h2], h3⟩

theorem sample_agrees (hE : ∀ k w, Counted (E k w)) {s : State} {own : OwnState} (h : s.Fits own) (w : When)
    (event : Metrics) : Agrees State.Fits (s.sample T rank E w event) (own.sample T rank E w event) := by
  obtain ⟨rfl, hm⟩ := h
  unfold State.sample OwnState.sample
  rcases (getMetricsValues_agrees event (hE s.own.counter w) hm).cases with
    ⟨e, d, hc, hw, rfl⟩ | ⟨v, w, hc, hw, h1, h2, h3⟩
  · rw [hc, hw]
    rfl
  · rw [hc, hw]
    exact ⟨by simp only [h1, h2], h3⟩

def submitPlain (T : Topology) (rank : Nat) (E : Nat → When → Sampling) (submit : OwnState → OwnState)
    (returns : OwnState → Prop) [DecidablePred returns] (event : Metrics) (own : OwnState) : Except Halt OwnState :=
  let sampled :=
    if own.firstPulse ∨ event.updateFile ≠ 0 ∨ event.quit ≠ 0 then
      { own with firstPulse := false }.sample T rank E .current event
    else .ok own
  match sampled with
  | .error e => .error e
  | .ok own => if returns own then .ok (submit own) else (submit own).sample T rank E .next event

theorem submitOwn_eq (event : Metrics) (own : OwnState) :
    Clarisse.submitOwn T rank E event own =
      submitPlain T rank E OwnState.submit (fun _ => event.quit ≠ 0) event own := rfl

theorem benchmark_submitOwn_eq (maxTimestamps : Nat) (event : Metrics) (own : OwnState) :
    Benchmark.submitOwn T rank maxTimestamps E event own =
      submitPlain T rank E Benchmark.submit (fun own => own.data.timestamp + 1 = maxTimestamps) event own := rfl

theorem submitOwn_agrees (hE : ∀ k w, Counted (E k w)) (submit : OwnState → OwnState)
    (hsubmit : ∀ own, (submit own).data = own.data ∧ (submit own).aggregator = own.aggregator)
    (returns : OwnState → Prop) [DecidablePred returns] (event : Metrics) {s : State} {own : OwnState}
    (h : s.Fits own) :
    Agrees State.Fits (submitOwn T rank E submit returns event s)
      (submitPlain T rank E submit returns event own) := by
  have hfirst : Agrees State.Fits
      (if s.own.firstPulse ∨ event.updateFile ≠ 0 ∨ event.quit ≠ 0 then
        State.sample ⟨{ s.own with firstPulse := false }, s.room⟩ T rank E .current event
      else .ok s)
      (if own.firstPulse ∨ event.updateFile ≠ 0 ∨ event.quit ≠ 0 then
        { own with firstPulse := false }.sample T rank E .current event
      else .ok own) := by
    rw [h.1]
    split
    · exact sample_agrees hE ⟨rfl, h.2⟩ .current event
    · exact h
  unfold submitOwn submitPlain
  simp only
  rcases hfirst.cases with ⟨e, d, hc, hw, rfl⟩ | ⟨t, o, hc, hw, rfl, hm⟩
  · rw [hc, hw]
    rfl
  · rw [hc, hw]
    simp only
    rw [if_pos hm]
    have hfits : State.Fits ⟨submit t.own, t.room⟩ (submit t.own) := by
      refine ⟨rfl, ?_⟩
      rw [(hsubmit t.own).1, (hsubmit t.own).2]
      exact hm
    split
    · exact hfits
    · exact sample_agrees hE hfits .next event

theorem computeOwnMetrics_agrees (hE : ∀ k w, Counted (E k w)) {s : State} {own : OwnState} (event : Metrics)
    (h : s.Fits own) :
    Agrees State.Fits (computeOwnMetrics T rank E s event) (Clarisse.computeOwnMetrics T rank E own event) := by
  obtain ⟨rfl, hm⟩ := h
  have hr : State.Fits ⟨s.own.receive event.timestamp, s.room⟩ (s.own.receive event.timestamp) := ⟨rfl, hm⟩
  unfold computeOwnMetrics Clarisse.computeOwnMetrics
  simp only
  cases hf : (s.own.receive event.timestamp).hashTs (s.own.receive event.timestamp).counter with
  | none => rfl
  | some countTs =>
    simp only
    split
    · rw [submitOwn_eq]
      exact submitOwn_agrees hE OwnState.submit (fun _ => ⟨rfl, rfl⟩) (fun _ => event.quit ≠ 0) event hr
    · exact hr

theorem fits_init : State.Fits ⟨{}, 0⟩ {} := ⟨rfl, rfl, rfl, Int.le_refl 0, Int.le_refl 0⟩

theorem handleAll_agrees (T : Topology) (rank : Nat) (hE : ∀ k w, Counted (E k w)) (es : List Metrics) :
    Agrees State.Fits (handleAll T rank E es) (Clarisse.handleAll T rank E es) :=
  Transition.Agrees.foldlM (fun _ _ event h => computeOwnMetrics_agrees hE event h) es fits_init

def BenchmarkState.Fits (s : BenchmarkState) (own : Benchmark.OwnState) : Prop :=
  s.toState.Fits own.toOwnState ∧ s.countTimestamps = own.countTimestamps

theorem benchmarkOwnMetrics_agrees (hE : ∀ k w, Counted (E k w)) (maxTimestamps : Nat) {s : BenchmarkState}
    {own : Benchmark.OwnState} (event : Metrics) (h : s.Fits own) :
    Agrees BenchmarkState.Fits (benchmarkOwnMetrics T rank maxTimestamps E s event)
      (Benchmark.computeOwnMetrics T rank maxTimestamps E own event) := by
  obtain ⟨⟨ho, hm⟩, hc⟩ := h
  unfold benchmarkOwnMetrics Benchmark.computeOwnMetrics Benchmark.OwnState.receive
  simp only [hc, ho]
  split
  · rw [benchmark_submitOwn_eq]
    rcases (submitOwn_agrees (T := T) hE Benchmark.submit (fun _ => ⟨rfl, rfl⟩)
        (fun own => own.data.timestamp + 1 = maxTimestamps) event ⟨ho, hm⟩).cases with
      ⟨e, d, hx, hw, rfl⟩ | ⟨t, o, hx, hw, hf⟩
    · rw [hx, hw]
      rfl
    · rw [hx, hw]
      exact ⟨hf, rfl⟩
  · exact ⟨⟨ho, hm⟩, rfl⟩

theorem benchmarkHandleAll_agrees (T : Topology) (rank : Nat) (hE : ∀ k w, Counted (E k w)) (maxTimestamps : Nat)
    (es : List Metrics) :
    Agrees BenchmarkState.Fits (benchmarkHandleAll T rank maxTimestamps E es)
      (Benchmark.handleAll T rank maxTimestamps E es) :=
  Transition.Agrees.foldlM (fun _ _ event h => benchmarkOwnMetrics_agrees hE maxTimestamps event h) es
    ⟨fits_init, rfl⟩

end

/-- In both builds the handler only ends early where the program does, so no index is
out of range and the counts match at every call of `compute_metric` and every `EVsubmit`. -/
theorem buffers_match (T : Topology) (rank maxTimestamps : Nat) (E : Nat → When → Sampling)
    (hE : ∀ k w, Counted (E k w)) (es : List Metrics) :
    ((∀ f, handleAll T rank E es = .error f → ∃ h, f = .halt h ∧ Clarisse.handleAll T rank E es = .error h) ∧
      ∀ s, handleAll T rank E es = .ok s → Clarisse.handleAll T rank E es = .ok s.own ∧
        Matches s.own.data.metricsNr s.own.aggregator s.own.data.gatherInfo s.room) ∧
    ((∀ f, benchmarkHandleAll T rank maxTimestamps E es = .error f → ∃ h, f = .halt h ∧
        Benchmark.handleAll T rank maxTimestamps E es = .error h) ∧
      ∀ s, benchmarkHandleAll T rank maxTimestamps E es = .ok s →
        Benchmark.handleAll T rank maxTimestamps E es = .ok ⟨s.own, s.countTimestamps⟩ ∧
        Matches s.own.data.metricsNr s.own.aggregator s.own.data.gatherInfo s.room) := by
  constructor
  · rcases (handleAll_agrees T rank hE es).cases with ⟨e, d, hc, hw, rfl⟩ | ⟨t, o, hc, hw, rfl, hm⟩
    · rw [hc, hw]
      exact ⟨(fun f hf => ⟨d, (Except.error.inj hf).symm, rfl⟩), (fun s hs => by cases hs)⟩
    · rw [hc, hw]
      exact ⟨(fun f hf => by cases hf), (fun s hs => by cases hs; exact ⟨rfl, hm⟩)⟩
  · rcases (benchmarkHandleAll_agrees T rank hE maxTimestamps es).cases with
      ⟨e, d, hc, hw, rfl⟩ | ⟨t, o, hc, hw, ⟨ho, hm⟩, hcount⟩
    · rw [hc, hw]
      exact ⟨(fun f hf => ⟨d, (Except.error.inj hf).symm, rfl⟩), (fun s hs => by cases hs)⟩
    · rw [hc, hw]
      refine ⟨(fun f hf => by cases hf), fun s hs => ?_⟩
      cases hs
      obtain ⟨own, countTimestamps⟩ := o
      simp only at ho hm hcount
      rw [ho, hcount]
      exact ⟨rfl, hm⟩

def constantNames (_ : Nat) (_ : When) : Sampling := Sampling.constant ["a", "b"] 1

theorem counted_constantNames (k : Nat) (w : When) : Counted (constantNames k w) := by
  intro f n hf hn
  cases hf
  cases hn
  decide

def fileThenMemory : List Metrics :=
  [1, 1, 0, 0].zipIdx.map fun (x : Int × Nat) =>
    { (default : Metrics) with updateFile := x.1, timestamp := x.2 / 2 }

theorem buffers_match_twoLeaves :
    ((∀ f, handleAll twoLeaves 0 constantNames fileThenMemory = .error f →
        ∃ h, f = .halt h ∧ Clarisse.handleAll twoLeaves 0 constantNames fileThenMemory = .error h) ∧
      ∀ s, handleAll twoLeaves 0 constantNames fileThenMemory = .ok s →
        Clarisse.handleAll twoLeaves 0 constantNames fileThenMemory = .ok s.own ∧
        Matches s.own.data.metricsNr s.own.aggregator s.own.data.gatherInfo s.room) ∧
    ((∀ f, benchmarkHandleAll twoLeaves 0 3 constantNames fileThenMemory = .error f →
        ∃ h, f = .halt h ∧ Benchmark.handleAll twoLeaves 0 3 constantNames fileThenMemory = .error h) ∧
      ∀ s, benchmarkHandleAll twoLeaves 0 3 constantNames fileThenMemory = .ok s →
        Benchmark.handleAll twoLeaves 0 3 constantNames fileThenMemory = .ok ⟨s.own, s.countTimestamps⟩ ∧
        Matches s.own.data.metricsNr s.own.aggregator s.own.data.gatherInfo s.room) :=
  buffers_match twoLeaves 0 3 constantNames counted_constantNames fileThenMemory

example : (handleAll twoLeaves 0 constantNames fileThenMemory).toOption.map
    (fun s => (s.own.submitted.map Metrics.metricsNr, s.room)) = some ([2, 2], 2) := by decide

end Clarisse.Buffers
