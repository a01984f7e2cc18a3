import Clarisse.Crawler
import Clarisse.OwnMetrics
import Clarisse.Results

/-!
# The copy loop of `return_results`

The loop runs up to `total_metrics` under `results_lock`. The communication
thread of the root writes that bound without the lock, when
`compute_own_metrics` reads the count from the file, and allocates what the loop
reads when `final_result` has the event of the pulse. Here the handler is cut at
its file accesses, and the loop at its iterations.
-/

namespace Clarisse

/-- Where the communication thread is in `compute_own_metrics`: before the first or the
second open of the file, before a sampling from memory, or before `EVsubmit`. -/
inductive Handler where
  | idle
  | number (w : When) (event : Metrics)
  | names (w : When) (event : Metrics)
  | memory (w : When) (event : Metrics)
  | submit (event : Metrics)
  deriving DecidableEq

/-- `loop` is the index of the copy loop while the application thread is in it. -/
structure RootProcess where
  own : OwnState := {}
  handler : Handler := .idle
  root : RootState := {}
  init : Bool := true
  loop : Option Nat := none

inductive ProcessStep where
  | receive (event : Metrics)
  | number (file : Option MetricsFile)
  | names (S : Sampling)
  | memory (S : Sampling)
  | submit
  | finalResult (event : Metrics)
  | returnResults
  | copy

def headValues (T : Topology) (rank : Nat) (event : Metrics) (counter : Nat) (data : Metrics) : Metrics :=
  { data with
    maxDegree := T.maxDegree
    updateFile := event.updateFile
    timestamp := counter
    parentRank := T.getParent rank
    nprocs := T.nprocs
    quit := event.quit
    startTime := -1 }

def RootProcess.sampling (σ : RootProcess) (T : Topology) (w : When) (event : Metrics) : RootProcess :=
  { σ with
    own := { σ.own with data := headValues T 0 event σ.own.counter σ.own.data }
    handler := if event.updateFile ≠ 0 then .number w event else .memory w event }

def Handler.after : When → Metrics → Handler
  | .current, event => .submit event
  | .next, _ => .idle

/-- `none` also where the process ends. `final_result` has to wait for the lock, and
`return_results` for the flag. -/
def processStep (T : Topology) (σ : RootProcess) : ProcessStep → Option RootProcess
  | .receive event =>
    match σ.handler with
    | .idle =>
      let own := σ.own.receive event.timestamp
      match own.hashTs own.counter with
      | none => none
      | some countTs =>
        if countTs = T.getDegreeNode 0 then
          if own.firstPulse ∨ event.updateFile ≠ 0 ∨ event.quit ≠ 0 then
            some (({ σ with own := { own with firstPulse := false } } : RootProcess).sampling T .current event)
          else some { σ with own := own, handler := .submit event }
        else some { σ with own := own }
    | _ => none
  | .number file =>
    match σ.handler with
    | .number w event =>
      match initializeMetricsCrawlerNumberFromFile σ.own.aggregator σ.own.data.metricsNr file with
      | .error _ => none
      | .ok (agg, nr) =>
        some { σ with
          own := { σ.own with aggregator := agg, data := { σ.own.data with metricsNr := nr } }
          handler := .names w event }
    | _ => none
  | .names S =>
    match σ.handler with
    | .names w event =>
      match metricsCrawlerResultsFile S.probe σ.own.aggregator (S.malloc σ.own.data.metricsNr) S.file' with
      | .error _ => none
      | .ok (agg, values, _) =>
        some { σ with
          own := { σ.own with
            aggregator := agg
            data := { σ.own.data with gatherInfo := values, contributions := [agg.desiredMetrics.getD []] } }
          handler := .after w event }
    | _ => none
  | .memory S =>
    match σ.handler with
    | .memory w event =>
      match sampleMemory S σ.own.aggregator σ.own.data.gatherInfo with
      | .error _ => none
      | .ok (nr, values) =>
        some { σ with
          own := { σ.own with
            data := { σ.own.data with
              metricsNr := nr, gatherInfo := values, contributions := [σ.own.aggregator.desiredMetrics.getD []] } }
          handler := .after w event }
    | _ => none
  | .submit =>
    match σ.handler with
    | .submit event =>
      let σ := { σ with own := σ.own.submit, handler := .idle }
      if event.quit ≠ 0 then some σ else some (σ.sampling T .next event)
    | _ => none
  | .finalResult event =>
    match σ.handler, σ.loop with
    | .idle, none => some { σ with root := Clarisse.finalResult T.nprocs σ.root event }
    | _, _ => none
  | .returnResults =>
    match σ.loop with
    | none => if σ.init && !σ.root.resultsAvailable then none else some { σ with loop := some 0 }
    | some _ => none
  | .copy =>
    match σ.loop with
    | none => none
    | some i =>
      if (i : Int) < σ.own.aggregator.totalMetrics then some { σ with loop := some (i + 1) }
      else
        some { σ with
          root := if σ.init then { σ.root with resultsAvailable := false } else σ.root
          init := false
          loop := none }

/-! ## The steps of one handler call -/

section
variable {T : Topology} {E : Nat → When → Sampling} {σ : RootProcess} {w : When} {event : Metrics}
    {own own' : OwnState}

theorem sampling_steps (h : own.sample T 0 E w event = .ok own') :
    ∃ as, Transition.exec (processStep T) (({ σ with own := own } : RootProcess).sampling T w event) as =
      some { σ with own := own', handler := .after w event } := by
  obtain ⟨agg, d, hg, rfl⟩ := sample_ok h
  unfold getMetricsValues at hg
  simp only at hg
  by_cases hu : event.updateFile ≠ 0
  · rw [if_pos hu] at hg
    refine ⟨[.number (E own.counter w).file, .names (E own.counter w)], ?_⟩
    unfold sampleFile at hg
    cases hn : initializeMetricsCrawlerNumberFromFile own.aggregator own.data.metricsNr (E own.counter w).file with
    | error _ => rw [hn] at hg; cases hg
    | ok x =>
      simp only [hn] at hg
      cases hr : metricsCrawlerResultsFile (E own.counter w).probe x.1 ((E own.counter w).malloc x.2)
          (E own.counter w).file' with
      | error _ => rw [hr] at hg; cases hg
      | ok y =>
        rw [hr] at hg
        cases hg
        simp only [Transition.exec, processStep, RootProcess.sampling, headValues, if_pos hu, hn, hr,
          Option.bind_some]
  · rw [if_neg hu] at hg
    refine ⟨[.memory (E own.counter w)], ?_⟩
    cases hm : sampleMemory (E own.counter w) own.aggregator own.data.gatherInfo with
    | error _ => rw [hm] at hg; cases hg
    | ok x =>
      rw [hm] at hg
      cases hg
      simp only [Transition.exec, processStep, RootProcess.sampling, headValues, if_neg hu, hm, Option.bind_some]

theorem submit_steps (hi : σ.handler = .idle)
    (h : (if event.quit ≠ 0 then .ok own.submit else own.submit.sample T 0 E .next event) = Except.ok own') :
    ∃ as, Transition.exec (processStep T) { σ with own := own, handler := .submit event } as =
      some { σ with own := own' } := by
  by_cases hq : event.quit ≠ 0
  · rw [if_pos hq] at h
    cases h
    refine ⟨[.submit], ?_⟩
    simp only [Transition.exec, processStep, if_pos hq, Option.bind_some]
    rw [← hi]
  · rw [if_neg hq] at h
    obtain ⟨as, has⟩ := sampling_steps (σ := { σ with handler := .idle }) h
    refine ⟨.submit :: as, ?_⟩
    simp only [Transition.exec_cons, processStep, if_neg hq, Option.bind_some]
    refine has.trans ?_
    rw [Handler.after, ← hi]

theorem handler_steps (hi : σ.handler = .idle) (h : computeOwnMetrics T 0 E σ.own event = .ok own') :
    ∃ as, Transition.exec (processStep T) σ (.receive event :: as) = some { σ with own := own' } := by
  unfold computeOwnMetrics at h
  simp only at h
  cases hc : (σ.own.receive event.timestamp).hashTs (σ.own.receive event.timestamp).counter with
  | none => rw [hc] at h; cases h
  | some countTs =>
    simp only [hc] at h
    by_cases hd : countTs = T.getDegreeNode 0
    · rw [if_pos hd] at h
      unfold submitOwn at h
      simp only at h
      by_cases hs : (σ.own.receive event.timestamp).firstPulse ∨ event.updateFile ≠ 0 ∨ event.quit ≠ 0
      · rw [if_pos hs] at h
        cases hn : ({ σ.own.receive event.timestamp with firstPulse := false } : OwnState).sample
            T 0 E .current event with
        | error _ => rw [hn] at h; cases h
        | ok own =>
          simp only [hn] at h
          obtain ⟨as, has⟩ := sampling_steps (σ := σ) hn
          obtain ⟨bs, hbs⟩ := submit_steps hi h
          refine ⟨as ++ bs, ?_⟩
          simp only [Transition.exec_cons, processStep, hi, hc, if_pos hd, if_pos hs, Option.bind_some]
          rw [Transition.exec_append, ← hi, has]
          exact hbs
      · rw [if_neg hs] at h
        obtain ⟨as, has⟩ := submit_steps hi h
        refine ⟨as, ?_⟩
        simp only [Transition.exec_cons, processStep, hi, hc, if_pos hd, if_neg hs, Option.bind_some]
        rw [← hi]
        exact has
    · rw [if_neg hd] at h
      cases h
      refine ⟨[], ?_⟩
      simp only [Transition.exec, processStep, hi, hc, if_neg hd, Option.bind_some]

end

/-! ## The bound and the buffer -/

/-- In the copy loop every index below the bound is one of the buffer. -/
def CopyInRange (σ : RootProcess) : Prop :=
  σ.loop ≠ none → σ.own.aggregator.totalMetrics ≤ σ.root.monitoringResults.length

def ProcessStep.count : ProcessStep → Option Int
  | .number (some ⟨.value n, _⟩) => some n
  | _ => none

def ProcessStep.handed : ProcessStep → Option Metrics
  | .finalResult event => some event
  | _ => none

def lastRead (as : List ProcessStep) : Int := (as.filterMap ProcessStep.count).getLast?.getD 0

def allocating (events : List Metrics) : List Metrics :=
  events.take 1 ++ (events.drop 1).filter fun e => e.updateFile ≠ 0

def lastAllocated (as : List ProcessStep) : Nat :=
  ((allocating (as.filterMap ProcessStep.handed)).getLast?.map fun e => e.metricsNr.toNat).getD 0

structure Untouched (σ σ' : RootProcess) : Prop where
  total : σ'.own.aggregator.totalMetrics = σ.own.aggregator.totalMetrics
  data : σ'.own.data.metricsNr = σ.own.data.metricsNr ∨ σ'.own.data.metricsNr = σ.own.aggregator.totalMetrics
  pulse : σ'.root.pulse = σ.root.pulse
  buffer : σ'.root.monitoringResults = σ.root.monitoringResults

inductive ProcessSteps (T : Topology) (σ : RootProcess) : ProcessStep → RootProcess → Prop where
  | number {σ' : RootProcess} (file : Option MetricsFile) (x : Aggregator × Int)
      (hf : initializeMetricsCrawlerNumberFromFile σ.own.aggregator σ.own.data.metricsNr file = .ok x)
      (hagg : σ'.own.aggregator = x.1) (hdata : σ'.own.data.metricsNr = x.2) (hroot : σ'.root = σ.root)
      (hloop : σ'.loop = σ.loop) : ProcessSteps T σ (.number file) σ'
  | finalResult {σ' : RootProcess} (event : Metrics) (hown : σ'.own = σ.own)
      (hroot : σ'.root = Clarisse.finalResult T.nprocs σ.root event) (hloop : σ'.loop = none) :
      ProcessSteps T σ (.finalResult event) σ'
  | returnResults {σ' : RootProcess} (hu : Untouched σ σ') (hloop : σ'.loop = some 0) :
      ProcessSteps T σ .returnResults σ'
  | receive {σ' : RootProcess} (event : Metrics) (hu : Untouched σ σ') (hloop : σ'.loop = σ.loop) :
      ProcessSteps T σ (.receive event) σ'
  | names {σ' : RootProcess} (S : Sampling) (hu : Untouched σ σ') (hloop : σ'.loop = σ.loop) :
      ProcessSteps T σ (.names S) σ'
  | memory {σ' : RootProcess} (S : Sampling) (hu : Untouched σ σ') (hloop : σ'.loop = σ.loop) :
      ProcessSteps T σ (.memory S) σ'
  | submit {σ' : RootProcess} (hu : Untouched σ σ') (hloop : σ'.loop = σ.loop) : ProcessSteps T σ .submit σ'
  | copy {σ' : RootProcess} (hu : Untouched σ σ') (hloop : σ.loop ≠ none) : ProcessSteps T σ .copy σ'

theorem processStep_steps {T : Topology} {σ σ' : RootProcess} {a : ProcessStep}
    (hs : processStep T σ a = some σ') : ProcessSteps T σ a σ' := by
  cases a with
  | receive event =>
    simp only [processStep] at hs
    split at hs
    · split at hs
      · cases hs
      · split at hs
        · split at hs <;> cases hs <;> exact .receive event ⟨rfl, Or.inl rfl, rfl, rfl⟩ rfl
        · cases hs
          exact .receive event ⟨rfl, Or.inl rfl, rfl, rfl⟩ rfl
    · cases hs
  | number file =>
    simp only [processStep] at hs
    split at hs
    · cases hn : initializeMetricsCrawlerNumberFromFile σ.own.aggregator σ.own.data.metricsNr file with
      | error _ => rw [hn] at hs; cases hs
      | ok x =>
        rw [hn] at hs
        cases hs
        exact .number file x hn rfl rfl rfl rfl
    · cases hs
  | names S =>
    simp only [processStep] at hs
    split at hs
    · cases hr : metricsCrawlerResultsFile S.probe σ.own.aggregator (S.malloc σ.own.data.metricsNr) S.file' with
      | error _ => rw [hr] at hs; cases hs
      | ok y =>
        obtain ⟨desired, hy, -⟩ := resultsFile_ok hr
        rw [hr] at hs
        cases hs
        have ht : y.1.totalMetrics = σ.own.aggregator.totalMetrics := by rw [hy]
        exact .names S ⟨ht, Or.inl rfl, rfl, rfl⟩ rfl
    · cases hs
  | memory S =>
    simp only [processStep] at hs
    split at hs
    · cases hm : sampleMemory S σ.own.aggregator σ.own.data.gatherInfo with
      | error _ => rw [hm] at hs; cases hs
      | ok y =>
        rw [hm] at hs
        cases hs
        exact .memory S ⟨rfl, Or.inr (sampleMemory_ok hm).1, rfl, rfl⟩ rfl
    · cases hs
  | submit =>
    simp only [processStep] at hs
    split at hs
    · split at hs <;> cases hs <;> exact .submit ⟨rfl, Or.inl rfl, rfl, rfl⟩ rfl
    · cases hs
  | finalResult event =>
    simp only [processStep] at hs
    split at hs
    · rename_i hl
      cases hs
      exact .finalResult event rfl rfl hl
    · cases hs
  | returnResults =>
    simp only [processStep] at hs
    split at hs
    · split at hs
      · cases hs
      · cases hs
        exact .returnResults ⟨rfl, Or.inl rfl, rfl, rfl⟩ rfl
    · cases hs
  | copy =>
    simp only [processStep] at hs
    split at hs
    · cases hs
    · rename_i hl
      have hloop : σ.loop ≠ none := by rw [hl]; exact Option.some_ne_none _
      split at hs
      · cases hs
        exact .copy ⟨rfl, Or.inl rfl, rfl, rfl⟩ hloop
      · cases hs
        refine .copy ⟨rfl, Or.inl rfl, ?_, ?_⟩ hloop
        · show (ite _ _ _ : RootState).pulse = _
          split <;> rfl
        · show (ite _ _ _ : RootState).monitoringResults = _
          split <;> rfl

/-- `final_result` has allocated for the last count read when a call of `return_results`
starts to copy, and for any count that is read while it copies. -/
def CopiesInTurn (as : List ProcessStep) (σ : RootProcess) : ProcessStep → Prop
  | .returnResults => lastRead as ≤ lastAllocated as
  | .number (some ⟨.value n, _⟩) => σ.loop ≠ none → n ≤ lastAllocated as
  | _ => True

structure ProcessInv (as : List ProcessStep) (σ : RootProcess) : Prop where
  total : σ.own.aggregator.totalMetrics = lastRead as
  data : σ.own.data.metricsNr = lastRead as
  pulse : σ.root.pulse = (as.filterMap ProcessStep.handed).length
  buffer : σ.root.monitoringResults.length = lastAllocated as

section
variable {T : Topology} {σ σ' : RootProcess} {as : List ProcessStep} {a : ProcessStep}

theorem lastRead_snoc (h : a.count = none) : lastRead (as ++ [a]) = lastRead as := by
  simp [lastRead, List.filterMap_append, h]

theorem lastRead_snoc_some {n : Int} (h : a.count = some n) : lastRead (as ++ [a]) = n := by
  simp [lastRead, List.filterMap_append, h]

theorem allocating_snoc (es : List Metrics) (e : Metrics) :
    allocating (es ++ [e]) = allocating es ++ if es.length = 0 ∨ e.updateFile ≠ 0 then [e] else [] := by
  cases es with
  | nil => simp [allocating]
  | cons x es => by_cases hu : e.updateFile ≠ 0 <;> simp [allocating, hu]

theorem handed_snoc (h : a.handed = none) :
    (as ++ [a]).filterMap ProcessStep.handed = as.filterMap ProcessStep.handed := by
  simp [List.filterMap_append, h]

theorem ProcessInv.keep (h : ProcessInv as σ) (hu : Untouched σ σ') (hc : a.count = none) (ha : a.handed = none) :
    ProcessInv (as ++ [a]) σ' where
  total := by rw [lastRead_snoc hc, hu.total, h.total]
  data := by
    rw [lastRead_snoc hc]
    cases hu.data with
    | inl hd => rw [hd, h.data]
    | inr hd => rw [hd, h.total]
  pulse := by rw [handed_snoc ha, hu.pulse, h.pulse]
  buffer := by rw [lastAllocated, handed_snoc ha, hu.buffer, h.buffer, lastAllocated]

theorem ProcessInv.read (h : ProcessInv as σ) {file : Option MetricsFile} {x : Aggregator × Int}
    (hf : initializeMetricsCrawlerNumberFromFile σ.own.aggregator σ.own.data.metricsNr file = .ok x) :
    x.1.totalMetrics = x.2 ∧ x.2 = lastRead (as ++ [.number file]) := by
  obtain ⟨hx, f, rfl, hn⟩ := numberFromFile_ok hf
  refine ⟨by rw [hx]; rfl, ?_⟩
  obtain ⟨number, names⟩ := f
  cases hn with
  | inl hn =>
    cases hn
    exact (lastRead_snoc_some rfl).symm
  | inr hn =>
    -- at the end of the file the count stays as it was
    obtain ⟨rfl, hn⟩ := hn
    rw [lastRead_snoc rfl, hn, h.data]

theorem ProcessInv.finalResult (h : ProcessInv as σ) {event : Metrics} (hown : σ'.own = σ.own)
    (hroot : σ'.root = Clarisse.finalResult T.nprocs σ.root event) :
    ProcessInv (as ++ [.finalResult event]) σ' := by
  have hevents : (as ++ [ProcessStep.finalResult event]).filterMap ProcessStep.handed =
      as.filterMap ProcessStep.handed ++ [event] := by
    rw [List.filterMap_append]
    rfl
  refine ⟨?_, ?_, ?_, ?_⟩
  · rw [lastRead_snoc rfl, hown]
    exact h.total
  · rw [lastRead_snoc rfl, hown]
    exact h.data
  · rw [hevents, List.length_append, hroot]
    exact congrArg (· + 1) h.pulse
  · rw [lastAllocated, hevents, allocating_snoc, ← h.pulse, hroot]
    simp only [Clarisse.finalResult, writeResults_length, allocResults]
    split
    · rw [List.length_replicate, List.getLast?_concat]
      rfl
    · rw [List.append_nil]
      exact h.buffer

theorem ProcessInv.step (h : ProcessInv as σ) (hs : processStep T σ a = some σ') : ProcessInv (as ++ [a]) σ' := by
  cases processStep_steps hs with
  | number file x hf hagg hdata hroot _ =>
    obtain ⟨ht, hx⟩ := h.read hf
    refine ⟨?_, ?_, ?_, ?_⟩
    · rw [hagg, ht, hx]
    · rw [hdata, hx]
    · rw [handed_snoc rfl, hroot]
      exact h.pulse
    · rw [lastAllocated, handed_snoc rfl, hroot]
      exact h.buffer
  | finalResult event hown hroot _ => exact h.finalResult hown hroot
  | returnResults hu _ => exact h.keep hu rfl rfl
  | receive event hu _ => exact h.keep hu rfl rfl
  | names S hu _ => exact h.keep hu rfl rfl
  | memory S hu _ => exact h.keep hu rfl rfl
  | submit hu _ => exact h.keep hu rfl rfl
  | copy hu _ => exact h.keep hu rfl rfl

theorem copyInRange_untouched (hp : CopyInRange σ) (hu : Untouched σ σ') (hl : σ'.loop ≠ none → σ.loop ≠ none) :
    CopyInRange σ' := by
  intro h
  rw [hu.total, hu.buffer]
  exact hp (hl h)

theorem ProcessInv.copiesInTurn_iff (h : ProcessInv as σ) (hp : CopyInRange σ)
    (hs : processStep T σ a = some σ') : CopiesInTurn as σ a ↔ CopyInRange σ' := by
  cases processStep_steps hs with
  | number file x hf hagg _ hroot hloop =>
    obtain ⟨hx, f, rfl, hn⟩ := numberFromFile_ok hf
    have htotal : σ'.own.aggregator.totalMetrics = x.2 := by rw [hagg, hx]; rfl
    obtain ⟨number, names⟩ := f
    cases hn with
    | inl hn =>
      cases hn
      rw [CopyInRange, htotal, hroot, hloop, h.buffer]
      exact Iff.rfl
    | inr hn =>
      -- at the end of the file the count stays as it was
      obtain ⟨rfl, hn⟩ := hn
      refine iff_of_true trivial fun hl => ?_
      rw [htotal, hn, h.data, ← h.total, hroot]
      exact hp (hloop ▸ hl)
  | finalResult event _ _ hloop => exact iff_of_true trivial fun hl => absurd hloop hl
  | returnResults hu hloop =>
    rw [CopyInRange, hu.total, hu.buffer, h.total, h.buffer, hloop]
    exact ⟨fun hc _ => hc, fun hc => hc (Option.some_ne_none 0)⟩
  | receive event hu hloop => exact iff_of_true trivial (copyInRange_untouched hp hu fun hl => hloop ▸ hl)
  | names S hu hloop => exact iff_of_true trivial (copyInRange_untouched hp hu fun hl => hloop ▸ hl)
  | memory S hu hloop => exact iff_of_true trivial (copyInRange_untouched hp hu fun hl => hloop ▸ hl)
  | submit hu hloop => exact iff_of_true trivial (copyInRange_untouched hp hu fun hl => hloop ▸ hl)
  | copy hu hloop => exact iff_of_true trivial (copyInRange_untouched hp hu fun _ => hloop)

/-- A run keeps `return_results` within the buffer iff each call starts to copy only when
`final_result` has allocated for the last count read, and no larger count is read
while it copies. -/
theorem copyInRange_iff (hs : Transition.exec (processStep T) {} as = some σ) :
    (∀ bs, bs <+: as → ∀ τ, Transition.exec (processStep T) {} bs = some τ → CopyInRange τ) ↔
      ∀ bs b, bs ++ [b] <+: as → ∀ τ, Transition.exec (processStep T) {} bs = some τ → CopiesInTurn bs τ b := by
  have hinit : ProcessInv [] {} := ⟨rfl, rfl, rfl, rfl⟩
  have hrange : CopyInRange {} := fun hl => absurd rfl hl
  exact (Transition.before_iff _ (C := CopiesInTurn) (I := ProcessInv) hinit hrange (fun _ _ _ _ h hs => h.step hs)
    (fun _ _ _ _ h hp hs => h.copiesInTurn_iff hp hs) hs).symm

end

def runEvents (as : List ProcessStep) (σ : RootProcess) : List Metrics :=
  (as.filterMap fun a => match a with
    | .receive event => some event
    | .finalResult event => some event
    | _ => none) ++ σ.own.submitted

/-- All events of a pulse agree on the flag and the count. -/
def Agreeing (events : List Metrics) : Prop :=
  ∀ x ∈ events, ∀ y ∈ events, x.timestamp = y.timestamp → x.updateFile = y.updateFile ∧ x.metricsNr = y.metricsNr

instance (events : List Metrics) : Decidable (Agreeing events) :=
  inferInstanceAs (Decidable (∀ x ∈ events, ∀ y ∈ events, _ → _ ∧ _))

def listEvent (n t : Nat) : Metrics :=
  { (default : Metrics) with metricsNr := n, updateFile := 1, timestamp := t }

/-- The steps of pulse 0, with one metric. -/
def pulseZero : List ProcessStep :=
  let S := Sampling.constant ["load"] 7
  [.receive (listEvent 1 0), .number S.file, .names S, .submit, .number S.file, .names S,
    .finalResult (listEvent 1 0)]

theorem copyInRange_iff_pulseZero :
    ∃ σ, Transition.exec (processStep chain) {} (pulseZero ++ [.returnResults, .copy, .copy]) = some σ ∧
      ((∀ bs, bs <+: pulseZero ++ [.returnResults, .copy, .copy] → ∀ τ,
        Transition.exec (processStep chain) {} bs = some τ → CopyInRange τ) ↔
        ∀ bs b, bs ++ [b] <+: pulseZero ++ [.returnResults, .copy, .copy] → ∀ τ,
          Transition.exec (processStep chain) {} bs = some τ → CopiesInTurn bs τ b) :=
  ⟨_, rfl, copyInRange_iff rfl⟩

/-- A metric is added for pulse 1. The root has read the new count, for which
`final_result` has not allocated yet, when the application copies the results. -/
def copyEarly : List ProcessStep :=
  pulseZero ++ [.receive (listEvent 2 1), .number (some (listing ["load", "free"])), .returnResults]

theorem copyEarly_outOfRange :
    ¬ ∀ (T : Topology) (as : List ProcessStep) (σ : RootProcess), 2 ≤ T.nprocs →
      Transition.exec (processStep T) {} as = some σ → Agreeing (runEvents as σ) → CopyInRange σ := by
  intro h
  have hrange := h chain copyEarly _ (by decide) rfl (by decide)
  exact absurd (hrange (by decide)) (by decide)

end Clarisse
