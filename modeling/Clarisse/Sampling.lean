import Mathlib.Tactic.Common

/-!
# Sampling the metrics

The event a rank sends (`metrics_t`), the part of the aggregator that the
crawler keeps between pulses, and the crawler itself: metrics_crawler.c and
`compute_metric`. What a sampling finds outside the program (the file at each of
its two opens, the measured values, fresh memory) is its `Sampling`.
-/

namespace Clarisse

structure Aggregators where
  min : Int
  max : Int
  sum : Int
  deriving DecidableEq, Repr, Inhabited

/-- An entry of `desired_metrics`; `none` is the null pointer. -/
abbrev Alias := Option String

/-- `metrics_t`. `startTime` is there in the benchmarking build only;
`contributions` is a ghost, the name lists of the samples behind `gatherInfo`. -/
structure Metrics where
  metricsNr : Int
  gatherInfo : List Aggregators
  maxDegree : Int
  updateFile : Int
  parentRank : Int
  nprocs : Int
  timestamp : Nat
  quit : Int
  startTime : Rat
  contributions : List (List Alias)
  deriving DecidableEq, Repr, Inhabited

/-- How the process ends early: `exit(-1)`, or a null pointer used as a metric
name or as the entry of the current timestamp. -/
inductive Halt where
  | exit
  | nullName
  | nullFound
  deriving DecidableEq, Repr

/-- The fields of `metrics_aggregator_t` that the crawler reads and writes. -/
structure Aggregator where
  desiredMetrics : Option (List Alias)
  totalMetrics : Int
  oldNrOfMetrics : Int
  deriving DecidableEq, Repr

def initializeMetricsAggregator : Aggregator := ⟨none, 0, 0⟩

/-! ## The metrics file -/

inductive NumberScan where
  | eof
  | mismatch
  | value (n : Int)
  deriving DecidableEq, Repr

/-- A metrics file as `fscanf` reads it: the number, and what `%s` returns after it. -/
structure MetricsFile where
  number : NumberScan
  names : List String
  deriving DecidableEq, Repr

def listing (names : List String) : MetricsFile := ⟨.value names.length, names⟩

/-- A negative size is a huge `size_t`, for which `calloc` fails. -/
def callocNames (nr : Int) : Option (List Alias) :=
  if nr < 0 then none else some (List.replicate nr.toNat none)

def Aggregator.resize (agg : Aggregator) (nr : Int) : Aggregator :=
  ⟨callocNames nr, nr, agg.totalMetrics⟩

/-- The old names are freed and the array allocated anew. At the end of the file
`*nr` stays as it was. -/
def initializeMetricsCrawlerNumberFromFile (agg : Aggregator) (nr : Int) (file : Option MetricsFile) :
    Except Halt (Aggregator × Int) :=
  match file with
  | none => .error .exit
  | some f =>
    match f.number with
    | .mismatch => .error .exit
    | .eof => .ok (agg.resize nr, nr)
    | .value n => .ok (agg.resize n, n)

def initializeMetricsCrawlerNumberFromMemory (agg : Aggregator) : Int := agg.totalMetrics

/-! ## Measuring -/

/-- The metric functions and PAPI during one sampling; each may answer
differently every time it is asked. -/
structure Probe where
  getValue : Nat → String → Option Int
  eventNameToCode : Nat → String → Option Int
  startCounters : Nat → Int → Bool
  stopCounters : Nat → Int → Option Int

/-- The `i`-th measurement: a custom metric, else a PAPI event. -/
def Probe.measure (p : Probe) (i : Nat) (name : String) : Option Int :=
  match p.getValue i name with
  | some value => some value
  | none =>
    match p.eventNameToCode i name with
    | none => none
    | some code => if p.startCounters i code then p.stopCounters i code else none

/-- The loop of `compute_metric` from index `i` on; a PAPI error returns at once. -/
def computeMetricFrom (p : Probe) (names : List Alias) : Nat → Nat → List Aggregators →
    Except Halt (List Aggregators)
  | 0, _, values => .ok values
  | k + 1, i, values =>
    match names.getD i none with
    | none => .error .nullName
    | some name =>
      match p.measure i name with
      | none => .ok values
      | some value => computeMetricFrom p names k (i + 1) (values.set i ⟨value, value, value⟩)

/-- For a count that an `int` holds; `LongCount` has the conversion. -/
def computeMetric (p : Probe) (names : List Alias) (values : List Aggregators) (size : Int) :
    Except Halt (List Aggregators) :=
  computeMetricFrom p names size.toNat 0 values

def metricsCrawlerResultsMemory (p : Probe) (agg : Aggregator) (result : List Aggregators) :
    Except Halt (List Aggregators) :=
  computeMetric p (agg.desiredMetrics.getD []) result agg.totalMetrics

/-- The `while` loop of `metrics_crawler_results_file`, from `metric_number` on. -/
def readNames (number : Int) (agg : Aggregator) : List String → Nat → List Alias → Bool → List Alias × Bool
  | [], _, desired, needsSync => (desired, needsSync)
  | line :: rest, m, desired, needsSync =>
    if (m : Int) < agg.totalMetrics then
      let differs := match desired.getD m none with
        | some name => decide (name ≠ line)
        | none => false
      readNames number agg rest (m + 1) (desired.set m (some line))
        (needsSync || decide (number ≠ agg.oldNrOfMetrics) || differs)
    else (desired, needsSync)

def metricsCrawlerResultsFile (p : Probe) (agg : Aggregator) (result : List Aggregators)
    (file : Option MetricsFile) : Except Halt (Aggregator × List Aggregators × Bool) :=
  match file with
  | none => .error .exit
  | some f =>
    match f.number with
    | .eof => .error .exit
    | scan =>
      let number := match scan with | .value n => n | _ => 0
      let (desired, needsSync) := readNames number agg f.names 0 (agg.desiredMetrics.getD []) false
      let agg' := { agg with desiredMetrics := agg.desiredMetrics.map fun _ => desired }
      match computeMetric p desired result agg.totalMetrics with
      | .error e => .error e
      | .ok values => .ok (agg', values, needsSync)

/-! ## One sampling -/

structure Sampling where
  file : Option MetricsFile
  file' : Option MetricsFile
  heap : Nat → Aggregators
  probe : Probe

def Sampling.malloc (S : Sampling) (nr : Int) : List Aggregators := (List.range nr.toNat).map S.heap

def sampleFile (S : Sampling) (agg : Aggregator) (nr : Int) :
    Except Halt (Aggregator × Int × List Aggregators × Bool) :=
  match initializeMetricsCrawlerNumberFromFile agg nr S.file with
  | .error e => .error e
  | .ok (agg₁, nr₁) =>
    match metricsCrawlerResultsFile S.probe agg₁ (S.malloc nr₁) S.file' with
    | .error e => .error e
    | .ok (agg₂, values, needsSync) => .ok (agg₂, nr₁, values, needsSync)

def sampleMemory (S : Sampling) (agg : Aggregator) (gatherInfo : List Aggregators) :
    Except Halt (Int × List Aggregators) :=
  match metricsCrawlerResultsMemory S.probe agg gatherInfo with
  | .error e => .error e
  | .ok values => .ok (initializeMetricsCrawlerNumberFromMemory agg, values)

def Sampling.constant (names : List String) (v : Int) : Sampling where
  file := some (listing names)
  file' := some (listing names)
  heap _ := default
  probe := ⟨fun _ _ => some v, fun _ _ => none, fun _ _ => false, fun _ _ => none⟩

/-! ## Sampling well-formed files -/

/-- Both opens see a well-formed file, with as many names. -/
structure Sampling.Lists (S : Sampling) (names : List String) : Prop where
  file : ∃ old, S.file = some (listing old) ∧ old.length = names.length
  file' : S.file' = some (listing names)

def single (v : Int) : Aggregators := ⟨v, v, v⟩

theorem computeMetricFrom_total (p : Probe) (names : List Alias) : ∀ (k i : Nat) (values : List Aggregators),
    (∀ j, i ≤ j → j < i + k → names.getD j none ≠ none) →
      ∃ values', computeMetricFrom p names k i values = .ok values' ∧ values'.length = values.length
  | 0, _, values, _ => ⟨values, rfl, rfl⟩
  | k + 1, i, values, h => by
    unfold computeMetricFrom
    cases hn : names.getD i none with
    | none => exact absurd hn (h i (Nat.le_refl _) (by omega))
    | some name =>
      cases hm : p.measure i name with
      | none => exact ⟨values, by simp only [hm], rfl⟩
      | some value =>
        obtain ⟨values', h1, h2⟩ := computeMetricFrom_total p names k (i + 1) (values.set i ⟨value, value, value⟩)
          fun j hj hk => h j (by omega) (by omega)
        exact ⟨values', by simp only [hm, h1], by simpa using h2⟩

theorem computeMetricFrom_values (p : Probe) (names : List Alias) (v : Nat → Int) :
    ∀ (k i : Nat) (values : List Aggregators),
      (∀ j, i ≤ j → j < i + k → ∃ name, names.getD j none = some name ∧ p.measure j name = some (v j)) →
      values.length = i + k →
      computeMetricFrom p names k i values = .ok (values.take i ++ (List.range' i k).map fun j => single (v j))
  | 0, i, values, _, hl => by
    rw [computeMetricFrom, List.take_of_length_le (by omega)]; simp
  | k + 1, i, values, h, hl => by
    obtain ⟨name, hn, hm⟩ := h i (Nat.le_refl _) (by omega)
    unfold computeMetricFrom
    simp only [hn, hm]
    rw [computeMetricFrom_values p names v k (i + 1) _ (fun j hj hk => h j (by omega) (by omega)) (by simp; omega)]
    rw [List.range'_succ, List.map_cons, List.take_add_one]
    have hi : i < values.length := by omega
    simp [List.take_set_of_le, hi, single]

theorem readNames_listing (number : Int) (agg : Aggregator) :
    ∀ (names : List String) (m : Nat) (done : List Alias) (b : Bool),
      agg.totalMetrics = ((m + names.length : Nat) : Int) → done.length = m →
      readNames number agg names m (done ++ List.replicate names.length none) b =
        (done ++ names.map some, b || (decide (number ≠ agg.oldNrOfMetrics) && !names.isEmpty))
  | [], m, done, b, _, _ => by simp [readNames]
  | line :: rest, m, done, b, ht, hd => by
    have hlt : (m : Int) < agg.totalMetrics := by rw [ht, List.length_cons]; omega
    have hget : (done ++ List.replicate (line :: rest).length (none : Alias)).getD m none = none := by
      rw [List.getD_eq_getElem?_getD, List.getElem?_append_right (by omega)]
      simp [hd]
    have hset : (done ++ List.replicate (line :: rest).length (none : Alias)).set m (some line) =
        (done ++ [some line]) ++ List.replicate rest.length none := by
      rw [List.set_append_right _ _ (by omega), hd, Nat.sub_self, List.length_cons, List.replicate_succ]
      simp
    rw [readNames, if_pos hlt]
    simp only [hget, hset]
    rw [readNames_listing number agg rest (m + 1) (done ++ [some line]) _
      (by rw [ht]; simp only [List.length_cons]; omega) (by simp [hd])]
    cases b <;> cases decide (number ≠ agg.oldNrOfMetrics) <;> simp

theorem getD_map_some {names : List String} {j : Nat} (hj : j < names.length) :
    (names.map some).getD j none = some (names.get ⟨j, hj⟩) := by
  rw [List.getD_eq_getElem?_getD, List.getElem?_map, List.getElem?_eq_getElem hj]; rfl

section
variable {S : Sampling} {names : List String} (hS : S.Lists names)
include hS

theorem sampleFile_eq (agg : Aggregator) (nr : Int) :
    sampleFile S agg nr =
      match computeMetric S.probe (names.map some) (S.malloc names.length) names.length with
      | .error e => .error e
      | .ok values => .ok (⟨some (names.map some), names.length, agg.totalMetrics⟩, names.length, values,
          decide ((names.length : Int) ≠ agg.totalMetrics) && !names.isEmpty) := by
  obtain ⟨old, ho, hl⟩ := hS.file
  have hr := readNames_listing names.length (agg.resize names.length) names 0 [] false
    (by simp [Aggregator.resize]) rfl
  simp only [List.nil_append, Bool.false_or] at hr
  have hc : callocNames (names.length : Int) = some (List.replicate names.length none) := by
    simp [callocNames]
  unfold sampleFile initializeMetricsCrawlerNumberFromFile metricsCrawlerResultsFile
  simp only [ho, hS.file', listing, hl]
  simp only [Aggregator.resize, hc, Option.getD_some, Option.map_some] at hr ⊢
  rw [hr]
  cases computeMetric S.probe (names.map some) (S.malloc names.length) names.length <;> rfl

theorem sampleFile_total (agg : Aggregator) (nr : Int) :
    ∃ values, values.length = names.length ∧
      sampleFile S agg nr = .ok (⟨some (names.map some), names.length, agg.totalMetrics⟩, names.length, values,
        decide ((names.length : Int) ≠ agg.totalMetrics) && !names.isEmpty) := by
  obtain ⟨values, h1, h2⟩ := computeMetricFrom_total S.probe (names.map some) names.length 0 (S.malloc names.length)
    fun j _ hj => by rw [getD_map_some (by omega)]; simp
  refine ⟨values, by simpa [Sampling.malloc] using h2, ?_⟩
  rw [sampleFile_eq hS, computeMetric, Int.toNat_natCast, h1]

theorem sampleFile_values (agg : Aggregator) (nr : Int) (v : Nat → Int)
    (hv : ∀ j < names.length, ∀ name, S.probe.measure j name = some (v j)) :
    sampleFile S agg nr = .ok (⟨some (names.map some), names.length, agg.totalMetrics⟩, names.length,
      (List.range names.length).map fun j => single (v j),
      decide ((names.length : Int) ≠ agg.totalMetrics) && !names.isEmpty) := by
  have h := computeMetricFrom_values S.probe (names.map some) v names.length 0 (S.malloc names.length)
    (fun j _ hj => ⟨_, getD_map_some (by omega), hv j (by omega) _⟩) (by simp [Sampling.malloc])
  rw [sampleFile_eq hS, computeMetric, Int.toNat_natCast, h]
  simp [List.range_eq_range']

end

structure Aggregator.Holds (agg : Aggregator) (names : List String) : Prop where
  desired : agg.desiredMetrics = some (names.map some)
  total : agg.totalMetrics = names.length

theorem sampleMemory_total (S : Sampling) {agg : Aggregator} {names : List String} (h : agg.Holds names)
    (g : List Aggregators) :
    ∃ values, values.length = g.length ∧ sampleMemory S agg g = .ok (names.length, values) := by
  obtain ⟨values, h1, h2⟩ := computeMetricFrom_total S.probe (names.map some) names.length 0 g fun j _ hj => by
    rw [getD_map_some (by omega)]; simp
  refine ⟨values, h2, ?_⟩
  unfold sampleMemory metricsCrawlerResultsMemory initializeMetricsCrawlerNumberFromMemory computeMetric
  rw [h.desired, h.total, Option.getD_some, Int.toNat_natCast, h1]

theorem sampleMemory_values (S : Sampling) {agg : Aggregator} {names : List String} (h : agg.Holds names)
    {g : List Aggregators} (hg : g.length = names.length) (v : Nat → Int)
    (hv : ∀ j < names.length, ∀ name, S.probe.measure j name = some (v j)) :
    sampleMemory S agg g = .ok (names.length, (List.range names.length).map fun j => single (v j)) := by
  have h1 := computeMetricFrom_values S.probe (names.map some) v names.length 0 g
    (fun j _ hj => ⟨_, getD_map_some (by omega), hv j (by omega) _⟩) (by omega)
  unfold sampleMemory metricsCrawlerResultsMemory initializeMetricsCrawlerNumberFromMemory computeMetric
  rw [h.desired, h.total, Option.getD_some, Int.toNat_natCast, h1]
  simp [List.range_eq_range']

/-! ## How a sampling ends the process -/

theorem computeMetricFrom_halt {p : Probe} {names : List Alias} {h : Halt} :
    ∀ {k i : Nat} {values : List Aggregators},
    computeMetricFrom p names k i values = .error h → h = .nullName
  | 0, _, _, he => by cases he
  | k + 1, i, values, he => by
    unfold computeMetricFrom at he
    cases hn : names.getD i none with
    | none => rw [hn] at he; cases he; rfl
    | some name =>
      simp only [hn] at he
      cases hm : p.measure i name with
      | none => rw [hm] at he; cases he
      | some value => rw [hm] at he; exact computeMetricFrom_halt he

theorem numberFromFile_halt {agg : Aggregator} {nr : Int} {file : Option MetricsFile} {h : Halt}
    (he : initializeMetricsCrawlerNumberFromFile agg nr file = .error h) : h = .exit := by
  unfold initializeMetricsCrawlerNumberFromFile at he
  cases file with
  | none => cases he; rfl
  | some f => cases hn : f.number <;> simp only [hn] at he <;> cases he; rfl

theorem resultsFile_halt {p : Probe} {agg : Aggregator} {result : List Aggregators} {file : Option MetricsFile}
    {h : Halt} (he : metricsCrawlerResultsFile p agg result file = .error h) : h = .exit ∨ h = .nullName := by
  unfold metricsCrawlerResultsFile at he
  cases file with
  | none => cases he; exact Or.inl rfl
  | some f =>
    cases hn : f.number with
    | eof => simp only [hn] at he; cases he; exact Or.inl rfl
    | _ =>
      simp only [hn] at he
      split at he
      · rename_i hm
        cases he
        exact Or.inr (computeMetricFrom_halt hm)
      · cases he

theorem sampleFile_halt {S : Sampling} {agg : Aggregator} {nr : Int} {h : Halt}
    (he : sampleFile S agg nr = .error h) : h ≠ .nullFound := by
  unfold sampleFile at he
  cases hi : initializeMetricsCrawlerNumberFromFile agg nr S.file with
  | error e =>
    rw [hi] at he
    cases he
    rw [numberFromFile_halt hi]
    intro hc; cases hc
  | ok x =>
    simp only [hi] at he
    cases hr : metricsCrawlerResultsFile S.probe x.1 (S.malloc x.2) S.file' with
    | error e =>
      rw [hr] at he
      cases he
      intro hc
      subst hc
      cases resultsFile_halt hr with
      | inl h => cases h
      | inr h => cases h
    | ok y => rw [hr] at he; cases he

theorem sampleMemory_halt {S : Sampling} {agg : Aggregator} {g : List Aggregators} {h : Halt}
    (he : sampleMemory S agg g = .error h) : h ≠ .nullFound := by
  unfold sampleMemory metricsCrawlerResultsMemory computeMetric at he
  split at he
  · rename_i hr
    cases he
    rw [computeMetricFrom_halt hr]
    intro hc; cases hc
  · cases he

end Clarisse
