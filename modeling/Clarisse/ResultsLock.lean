import Clarisse.Monitor
import Clarisse.Results

/-!
# The results lock

The sections of `final_result`, `return_results` and `monitoring_file_updated` under
`results_lock` and `results_cond`, statement by statement. `Results` has each section as
one step; here the communication thread and the application thread take the mutex, wait
and write in any order.
-/

namespace Clarisse

open Monitor (Op Section State Pc)

/-- What the mutex guards; `results` is the array of the last caller of `return_results`,
and `copies` has it as each call left it. `pulse` is in no other thread's code, so its
increment stands in the section. -/
structure Guarded where
  pulse : Nat := 0
  monitoringResults : List SysMetric := []
  resultsAvailable : Bool := false
  init : Bool := true
  results : List (Option SysMetric) := []
  copies : List (List (Option SysMetric)) := []
  written : Option Nat := none
  returned : List (Nat × Option Nat) := []
  shown : List (Option Nat × Option Nat) := []

inductive Thread where
  | communication
  | application
  deriving DecidableEq

instance : Fintype Thread := ⟨{.communication, .application}, fun t => by cases t <;> simp⟩

inductive Locked where
  | finalResult (event : Metrics) (version : Nat)
  | returnResults
  | fileUpdated (version : Nat)

namespace Guarded

variable (s : Guarded)

def fresh (event : Metrics) : Bool := decide (s.pulse = 0 ∨ event.updateFile ≠ 0)

def alloc (event : Metrics) : Guarded :=
  if s.fresh event then
    { s with monitoringResults := List.replicate event.metricsNr.toNat ⟨0, 0, 0⟩ }
  else s

def writeResult (nprocs : Nat) (event : Metrics) (i : Nat) : Guarded :=
  { s with monitoringResults := s.monitoringResults.set i ((event.gatherInfo.getD i default).result nprocs) }

def setAvailable (event : Metrics) (version : Nat) : Guarded :=
  { s with resultsAvailable := s.resultsAvailable || s.fresh event, written := some version }

def copy (i : Nat) : Guarded := { s with results := s.results ++ [s.monitoringResults[i]?] }

def endReturn : Guarded :=
  { s with
    resultsAvailable := !s.init && s.resultsAvailable
    init := false
    copies := s.copies ++ [s.results]
    shown := s.shown ++ [(s.returned.getLast?.map Prod.fst, s.written)] }

def takeFlag (version : Nat) : Guarded :=
  { s with resultsAvailable := false, returned := s.returned ++ [(version, s.written)] }

end Guarded

def finalResultSection (nprocs : Nat) (event : Metrics) (version : Nat) : Section Guarded where
  guard _ := true
  body :=
    .write (·.alloc event) ::
      (((List.range event.metricsNr.toNat).map fun i => .write (·.writeResult nprocs event i)) ++
        [.write (·.setAvailable event version), .signal (·.fresh event),
          .write fun s => { s with pulse := s.pulse + 1 }])

def returnResultsSection (totalMetrics : Int) : Section Guarded where
  guard s := !(s.init && !s.resultsAvailable)
  body :=
    .write (fun s => { s with results := [] }) ::
      (((List.range totalMetrics.toNat).map fun i => .write (·.copy i)) ++ [.write Guarded.endReturn])

def fileUpdatedSection (version : Nat) : Section Guarded where
  guard s := s.resultsAvailable
  body := [.write (·.takeFlag version)]

def Locked.section (nprocs : Nat) (totalMetrics : Int) : Locked → Section Guarded
  | .finalResult event version => finalResultSection nprocs event version
  | .returnResults => returnResultsSection totalMetrics
  | .fileUpdated version => fileUpdatedSection version

/-- `last` is the version of the last pulse that came in. -/
structure Threads where
  mon : State Thread Locked Guarded := { shared := {}, pc := fun _ => .idle }
  last : Nat := 0
  version : Nat := 0

inductive ThreadAct where
  | editFile
  | finalResult (event : Metrics) (version : Nat)
  | callReturnResults
  | callFileUpdated
  | monitor (a : Monitor.Act Thread Locked)

def threadStep (nprocs : Nat) (totalMetrics : Int) (σ : Threads) : ThreadAct → Option Threads
  | .editFile => some { σ with version := σ.version + 1 }
  | .finalResult event version =>
    if σ.last ≤ version ∧ version ≤ σ.version then
      (Monitor.step (Locked.section nprocs totalMetrics) σ.mon
        (.call .communication (.finalResult event version))).map fun mon => { σ with mon := mon, last := version }
    else none
  | .callReturnResults =>
    (Monitor.step (Locked.section nprocs totalMetrics) σ.mon (.call .application .returnResults)).map
      fun mon => { σ with mon := mon }
  | .callFileUpdated =>
    (Monitor.step (Locked.section nprocs totalMetrics) σ.mon (.call .application (.fileUpdated σ.version))).map
      fun mon => { σ with mon := mon }
  | .monitor (.call _ _) => none
  | .monitor a =>
    (Monitor.step (Locked.section nprocs totalMetrics) σ.mon a).map fun mon => { σ with mon := mon }

/-! ## The sections in one step -/

section
variable {nprocs : Nat} {totalMetrics : Int} {event : Metrics} {version : Nat} {s : Guarded}

theorem foldl_writeResult (l : List Nat) (s : Guarded) :
    l.foldl (fun s i => s.writeResult nprocs event i) s =
      { s with
        monitoringResults :=
          l.foldl (fun r i => r.set i ((event.gatherInfo.getD i default).result nprocs)) s.monitoringResults } := by
  induction l generalizing s with
  | nil => rfl
  | cons i l ih => rw [List.foldl_cons, ih]; rfl

theorem foldl_copy (l : List Nat) (s : Guarded) :
    l.foldl (fun s i => s.copy i) s =
      { s with results := s.results ++ l.map fun i => s.monitoringResults[i]? } := by
  induction l generalizing s with
  | nil => simp
  | cons i l ih => rw [List.foldl_cons, ih]; simp [Guarded.copy]

theorem runOps_finalResult :
    Monitor.runOps (finalResultSection nprocs event version).body s =
      { s with
        pulse := s.pulse + 1
        monitoringResults := writeResults nprocs event
          (if s.pulse = 0 ∨ event.updateFile ≠ 0 then List.replicate event.metricsNr.toNat ⟨0, 0, 0⟩
            else s.monitoringResults)
        resultsAvailable := s.resultsAvailable || decide (s.pulse = 0 ∨ event.updateFile ≠ 0)
        written := some version } := by
  simp only [finalResultSection, Monitor.runOps, Monitor.runOps_append, Monitor.runOps_map_write, foldl_writeResult,
    writeResults]
  by_cases h : s.pulse = 0 ∨ event.updateFile ≠ 0
  · simp [Guarded.alloc, Guarded.setAvailable, Guarded.fresh, h]
  · simp [Guarded.alloc, Guarded.setAvailable, Guarded.fresh, h]

theorem runOps_returnResults :
    Monitor.runOps (returnResultsSection totalMetrics).body s =
      { s with
        results := (List.range totalMetrics.toNat).map fun i => s.monitoringResults[i]?
        resultsAvailable := !s.init && s.resultsAvailable
        init := false
        copies := s.copies ++ [(List.range totalMetrics.toNat).map fun i => s.monitoringResults[i]?]
        shown := s.shown ++ [(s.returned.getLast?.map Prod.fst, s.written)] } := by
  simp [returnResultsSection, Monitor.runOps, Monitor.runOps_append, Monitor.runOps_map_write, foldl_copy,
    Guarded.endReturn]

@[simp] theorem alloc_pulse : (s.alloc event).pulse = s.pulse := by
  unfold Guarded.alloc
  split <;> rfl

theorem signals_finalResult :
    Monitor.signals (finalResultSection nprocs event version).body s = s.fresh event := by
  simp [finalResultSection, Monitor.signals, Monitor.signals_append, Monitor.signals_map_write,
    Monitor.runOps_map_write, foldl_writeResult, Guarded.setAvailable, Guarded.fresh]

theorem finalResult_notifies (k : Locked) :
    Monitor.Notifies (k.section nprocs totalMetrics) (finalResultSection nprocs event version) := by
  intro s hbefore hafter
  rw [signals_finalResult]
  rw [runOps_finalResult] at hafter
  cases k with
  | finalResult event version => cases hbefore
  | returnResults =>
    simp only [Locked.section, returnResultsSection] at hbefore hafter
    cases hinit : s.init <;> cases hflag : s.resultsAvailable <;> simp_all [Guarded.fresh]
  | fileUpdated version =>
    simp only [Locked.section, fileUpdatedSection] at hbefore hafter
    simpa [hbefore, Guarded.fresh] using hafter

end

/-! ## What the atomic sections show -/

def copyOf (totalMetrics : Int) (σ : RootThreads) : RootStep → List (List (Option SysMetric))
  | .proceed =>
    match σ.caller with
    | .returnResults => ((returnResults totalMetrics σ.init σ.root).map Prod.fst).toList
    | _ => []
  | _ => []

def copied (nprocs : Nat) (totalMetrics : Int) : RootThreads → List RootStep → List (List (Option SysMetric))
  | _, [] => []
  | σ, a :: as =>
    copyOf totalMetrics σ a ++
      match rootStep nprocs totalMetrics σ a with
      | none => []
      | some σ' => copied nprocs totalMetrics σ' as

def Locked.caller : Option Locked → Caller
  | some .returnResults => .returnResults
  | some (.fileUpdated version) => .fileUpdated version
  | _ => .idle

/-- `rootFinished` is not under this mutex. -/
def Guarded.threads (s : Guarded) (called : Option Locked) (version : Nat) (rootFinished : Bool) : RootThreads where
  root := ⟨s.pulse, s.monitoringResults, s.resultsAvailable, rootFinished⟩
  init := s.init
  caller := Locked.caller called
  version := version
  written := s.written
  returned := s.returned
  shown := s.shown

section
variable {nprocs : Nat} {totalMetrics : Int}

theorem copied_snoc {σ τ : RootThreads} {bs : List RootStep} (b : RootStep)
    (h : Transition.exec (rootStep nprocs totalMetrics) σ bs = some τ) :
    copied nprocs totalMetrics σ (bs ++ [b]) = copied nprocs totalMetrics σ bs ++ copyOf totalMetrics τ b := by
  induction bs generalizing σ with
  | nil =>
    cases h
    simp only [List.nil_append, copied]
    cases rootStep nprocs totalMetrics τ b <;> exact List.append_nil _
  | cons a bs ih =>
    rw [Transition.exec_cons, Option.bind_eq_some_iff] at h
    obtain ⟨σ', ha, h⟩ := h
    simp [copied, ha, ih h]

variable {s : Guarded} {called : Option Locked} {event : Metrics} {file version : Nat} {rootFinished : Bool}

theorem rootStep_finalResult (h : s.written.getD 0 ≤ version ∧ version ≤ file) :
    rootStep nprocs totalMetrics (s.threads called file rootFinished) (.finalResult event version) =
      some ((Monitor.runOps (finalResultSection nprocs event version).body s).threads called file
        (rootFinished || decide (event.quit ≠ 0 ∨ event.metricsNr = 0))) := by
  rw [runOps_finalResult]
  exact if_pos h

theorem rootStep_returnResults :
    rootStep nprocs totalMetrics (s.threads (some .returnResults) file rootFinished) .proceed =
      if (returnResultsSection totalMetrics).guard s then
        some ((Monitor.runOps (returnResultsSection totalMetrics).body s).threads none file rootFinished)
      else none := by
  rw [runOps_returnResults]
  cases hinit : s.init <;> cases hflag : s.resultsAvailable <;>
    simp [rootStep, Guarded.threads, Locked.caller, returnResultsSection, returnResults, hinit, hflag]

theorem rootStep_fileUpdated :
    rootStep nprocs totalMetrics (s.threads (some (.fileUpdated version)) file rootFinished) .proceed =
      if (fileUpdatedSection version).guard s then
        some ((Monitor.runOps (fileUpdatedSection version).body s).threads none file rootFinished)
      else none := by
  cases hflag : s.resultsAvailable <;>
    simp [rootStep, Guarded.threads, Locked.caller, fileUpdatedSection, Monitor.runOps, Guarded.takeFlag,
      monitoringFileUpdated, hflag]

theorem copyOf_returnResults (h : (returnResultsSection totalMetrics).guard s = true) :
    (Monitor.runOps (returnResultsSection totalMetrics).body s).copies =
      s.copies ++ copyOf totalMetrics (s.threads (some .returnResults) file rootFinished) .proceed := by
  rw [runOps_returnResults]
  have hwait : ¬ (s.init && !s.resultsAvailable) = true := by
    simp only [returnResultsSection, Bool.not_eq_true'] at h
    simp only [h, Bool.false_eq_true, not_false_eq_true]
  simp [copyOf, Guarded.threads, Locked.caller, returnResults, hwait]

/-! ## A run of the threads -/

def Thread.Calls : Thread → Locked → Prop
  | .communication, .finalResult _ _ => True
  | .application, .returnResults => True
  | .application, .fileUpdated _ => True
  | _, _ => False

theorem rootStep_proceed {s : Guarded} {k : Locked} {file : Nat} {rootFinished : Bool}
    (hk : Thread.application.Calls k) :
    rootStep nprocs totalMetrics (s.threads (some k) file rootFinished) .proceed =
      if (k.section nprocs totalMetrics).guard s then
        some ((Monitor.runOps (k.section nprocs totalMetrics).body s).threads none file rootFinished)
      else none := by
  cases k with
  | finalResult event version => exact hk.elim
  | returnResults => exact rootStep_returnResults
  | fileUpdated version => exact rootStep_fileUpdated

/-- The run `bs` of the atomic sections is where the threads are, a section that has started
taken as done. -/
def Matches (nprocs : Nat) (totalMetrics : Int) (σ : Threads) (bs : List RootStep) (rootFinished : Bool) : Prop :=
  Transition.exec (rootStep nprocs totalMetrics) {} bs =
      some (σ.mon.abs.shared.threads (σ.mon.abs.called .application) σ.version rootFinished) ∧
    copied nprocs totalMetrics {} bs = σ.mon.abs.shared.copies

structure ThreadsInv (nprocs : Nat) (totalMetrics : Int) (σ : Threads) : Prop where
  sleeps : Monitor.Sleeps (Locked.section nprocs totalMetrics) Thread.Calls .application σ.mon
  written : σ.mon.abs.shared.written.getD 0 ≤ σ.last
  pending : ∀ event version,
    σ.mon.abs.called .communication = some (.finalResult event version) → version = σ.last
  version : σ.last ≤ σ.version

theorem Matches.snoc {σ σ' : Threads} {bs : List RootStep} {rootFinished rootFinished' : Bool} {b : RootStep}
    (h : Matches nprocs totalMetrics σ bs rootFinished)
    (hb : rootStep nprocs totalMetrics
      (σ.mon.abs.shared.threads (σ.mon.abs.called .application) σ.version rootFinished) b =
        some (σ'.mon.abs.shared.threads (σ'.mon.abs.called .application) σ'.version rootFinished'))
    (hc : σ'.mon.abs.shared.copies = σ.mon.abs.shared.copies ++
      copyOf totalMetrics (σ.mon.abs.shared.threads (σ.mon.abs.called .application) σ.version rootFinished) b) :
    Matches nprocs totalMetrics σ' (bs ++ [b]) rootFinished' := by
  refine ⟨?_, ?_⟩
  · rw [Transition.exec_append, h.1, Option.bind_some, Transition.exec_cons, hb]
    rfl
  · rw [copied_snoc b h.1, h.2, hc]

theorem Matches.run {σ σ' : Threads} {bs : List RootStep} {rootFinished : Bool} {t : Thread}
    (hinv : ThreadsInv nprocs totalMetrics σ) (h : Matches nprocs totalMetrics σ bs rootFinished)
    (hrun : Monitor.atomicStep (Locked.section nprocs totalMetrics) σ.mon.abs (.run t) = some σ'.mon.abs)
    (hlast : σ'.last = σ.last) (hversion : σ'.version = σ.version) :
    (∃ b rootFinished', Matches nprocs totalMetrics σ' (bs ++ [b]) rootFinished') ∧
      σ'.mon.abs.shared.written.getD 0 ≤ σ'.last ∧
      ∀ event version, σ'.mon.abs.called .communication = some (.finalResult event version) → version = σ'.last := by
  obtain ⟨k, hk, hg, habs⟩ := Monitor.atomicStep_run hrun
  have hcalls : t.Calls k := hinv.sleeps.called t k hk
  rw [hlast]
  cases t with
  | communication =>
    cases k with
    | finalResult event version =>
      have hv := hinv.pending event version hk
      have hcond : σ.mon.abs.shared.written.getD 0 ≤ version ∧ version ≤ σ.version :=
        ⟨hv ▸ hinv.written, hv ▸ hinv.version⟩
      refine ⟨⟨.finalResult event version, rootFinished || decide (event.quit ≠ 0 ∨ event.metricsNr = 0),
        h.snoc ?_ ?_⟩, ?_, ?_⟩
      · rw [habs, hversion, rootStep_finalResult hcond]
        simp [Locked.section]
      · simp [habs, Locked.section, runOps_finalResult, copyOf]
      · simp [habs, Locked.section, runOps_finalResult, hv]
      · simp [habs]
    | returnResults => exact hcalls.elim
    | fileUpdated version => exact hcalls.elim
  | application =>
    have hother : ∀ event version, σ'.mon.abs.called .communication = some (.finalResult event version) →
        version = σ.last := by
      rw [habs]
      exact fun event version hc => hinv.pending event version (by simpa using hc)
    cases k with
    | finalResult event version => exact hcalls.elim
    | returnResults =>
      simp only [Locked.section] at hg habs
      refine ⟨⟨.proceed, rootFinished, h.snoc ?_ ?_⟩, ?_, hother⟩
      · rw [hk, rootStep_returnResults, if_pos hg, habs, hversion]
        simp
      · rw [hk, habs]
        exact copyOf_returnResults hg
      · simpa [habs, Locked.section, runOps_returnResults] using hinv.written
    | fileUpdated version =>
      simp only [Locked.section] at hg habs
      refine ⟨⟨.proceed, rootFinished, h.snoc ?_ ?_⟩, ?_, hother⟩
      · rw [hk, rootStep_fileUpdated, if_pos hg, habs, hversion]
        simp
      · simp [habs, hk, fileUpdatedSection, Monitor.runOps, Guarded.takeFlag, copyOf, Guarded.threads, Locked.caller]
      · simpa [habs, Locked.section, fileUpdatedSection, Monitor.runOps, Guarded.takeFlag] using hinv.written

theorem ThreadsInv.initial : ThreadsInv nprocs totalMetrics {} where
  sleeps := .initial (fun _ => rfl) rfl
  written := Nat.le_refl 0
  pending event version h := by simp [State.abs, Monitor.Pc.pending] at h
  version := Nat.le_refl 0

theorem guard_communication {t : Thread} {k : Locked} (h : t.Calls k) (ht : t ≠ .application) (s : Guarded) :
    (k.section nprocs totalMetrics).guard s = true := by
  cases t with
  | communication =>
    cases k with
    | finalResult event version => rfl
    | returnResults => exact h.elim
    | fileUpdated version => exact h.elim
  | application => exact absurd rfl ht

theorem communication_notifies (k : Locked) {t : Thread} {k' : Locked} (h : t.Calls k') (ht : t ≠ .application) :
    Monitor.Notifies (k.section nprocs totalMetrics) (k'.section nprocs totalMetrics) := by
  cases t with
  | communication =>
    cases k' with
    | finalResult event version => exact finalResult_notifies k
    | returnResults => exact h.elim
    | fileUpdated version => exact h.elim
  | application => exact absurd rfl ht

variable {σ σ' : Threads} {mon : State Thread Locked Guarded}

theorem ThreadsInv.sleeps_step {a : Monitor.Act Thread Locked} (h : ThreadsInv nprocs totalMetrics σ)
    (hc : Monitor.Calls Thread.Calls a)
    (hs : Monitor.step (Locked.section nprocs totalMetrics) σ.mon a = some mon) :
    Monitor.Sleeps (Locked.section nprocs totalMetrics) Thread.Calls .application mon :=
  h.sleeps.step (fun _ _ hk ht s => guard_communication hk ht s)
    (fun k _ _ _ hk' ht => communication_notifies k hk' ht) hc hs

theorem threadStep_monitor {a : Monitor.Act Thread Locked}
    (h : threadStep nprocs totalMetrics σ (.monitor a) = some σ') :
    (∀ t k, a ≠ .call t k) ∧ ∃ mon,
      Monitor.step (Locked.section nprocs totalMetrics) σ.mon a = some mon ∧ σ' = { σ with mon := mon } := by
  cases a with
  | call t k => cases h
  | lock t => exact ⟨by simp, by simpa [threadStep, eq_comm] using h⟩
  | test t => exact ⟨by simp, by simpa [threadStep, eq_comm] using h⟩
  | write t => exact ⟨by simp, by simpa [threadStep, eq_comm] using h⟩
  | signal t woken => exact ⟨by simp, by simpa [threadStep, eq_comm] using h⟩
  | unlock t => exact ⟨by simp, by simpa [threadStep, eq_comm] using h⟩
  | wake t => exact ⟨by simp, by simpa [threadStep, eq_comm] using h⟩

theorem call_abs {t : Thread} {k : Locked}
    (h : Monitor.step (Locked.section nprocs totalMetrics) σ.mon (.call t k) = some mon) :
    σ.mon.abs.called t = none ∧ mon.abs.shared = σ.mon.abs.shared ∧
      mon.abs.called = Function.update σ.mon.abs.called t (some k) := by
  obtain ⟨hnone, habs⟩ := Monitor.atomicStep_call (Monitor.abs_call h)
  rw [habs]
  exact ⟨hnone, rfl, rfl⟩

theorem ThreadsInv.call_application {k : Locked} {b : RootStep} {bs : List RootStep} {rootFinished : Bool}
    (hinv : ThreadsInv nprocs totalMetrics σ) (h : Matches nprocs totalMetrics σ bs rootFinished)
    (hmon : Monitor.step (Locked.section nprocs totalMetrics) σ.mon (.call .application k) = some mon)
    (hk : Thread.application.Calls k)
    (hb : ∀ s : Guarded, rootStep nprocs totalMetrics (s.threads none σ.version rootFinished) b =
      some (s.threads (some k) σ.version rootFinished))
    (hcopy : ∀ ρ, copyOf totalMetrics ρ b = []) :
    ThreadsInv nprocs totalMetrics { σ with mon := mon } ∧
      Matches nprocs totalMetrics { σ with mon := mon } (bs ++ [b]) rootFinished := by
  obtain ⟨hnone, hshared, hcalled⟩ := call_abs hmon
  have hsleeps := hinv.sleeps_step (a := .call .application k) hk hmon
  refine ⟨⟨hsleeps, ?_, ?_, hinv.version⟩, h.snoc ?_ ?_⟩
  · rw [hshared]
    exact hinv.written
  · rw [hcalled]
    exact fun event version hc => hinv.pending event version (by simpa using hc)
  · rw [hnone, hshared, hcalled, hb, Function.update_self]
  · rw [hshared, hcopy, List.append_nil]

theorem ThreadsInv.step {a : ThreadAct} {bs : List RootStep} {rootFinished : Bool}
    (hinv : ThreadsInv nprocs totalMetrics σ) (h : Matches nprocs totalMetrics σ bs rootFinished)
    (hs : threadStep nprocs totalMetrics σ a = some σ') :
    ThreadsInv nprocs totalMetrics σ' ∧ ∃ bs' rootFinished', Matches nprocs totalMetrics σ' bs' rootFinished' := by
  cases a with
  | editFile =>
    cases hs
    refine ⟨⟨hinv.sleeps, hinv.written, hinv.pending, Nat.le_succ_of_le hinv.version⟩, bs ++ [.editFile],
      rootFinished, h.snoc rfl ?_⟩
    simp [copyOf]
  | finalResult event version =>
    simp only [threadStep] at hs
    split at hs
    · rename_i hv
      obtain ⟨mon, hmon, rfl⟩ := Option.map_eq_some_iff.mp hs
      obtain ⟨_, hshared, hcalled⟩ := call_abs hmon
      have hsleeps := hinv.sleeps_step (a := .call .communication (.finalResult event version)) trivial hmon
      refine ⟨⟨hsleeps, ?_, ?_, hv.2⟩, bs, rootFinished, ?_⟩
      · rw [hshared]
        exact Nat.le_trans hinv.written hv.1
      · rw [hcalled]
        intro event' version' he
        simp only [Function.update_self, Option.some.injEq, Locked.finalResult.injEq] at he
        exact he.2.symm
      · simpa [Matches, hshared, hcalled] using h
    · cases hs
  | callReturnResults =>
    obtain ⟨mon, hmon, rfl⟩ := Option.map_eq_some_iff.mp hs
    obtain ⟨hinv', hmatch⟩ :=
      hinv.call_application h hmon trivial (b := .callReturnResults) (fun _ => rfl) fun _ => rfl
    exact ⟨hinv', _, rootFinished, hmatch⟩
  | callFileUpdated =>
    obtain ⟨mon, hmon, rfl⟩ := Option.map_eq_some_iff.mp hs
    obtain ⟨hinv', hmatch⟩ :=
      hinv.call_application h hmon trivial (b := .callFileUpdated) (fun _ => rfl) fun _ => rfl
    exact ⟨hinv', _, rootFinished, hmatch⟩
  | monitor a =>
    obtain ⟨hcall, mon, hmon, rfl⟩ := threadStep_monitor hs
    have hsleeps := hinv.sleeps_step (by cases a <;> trivial) hmon
    rcases Monitor.abs_step hinv.sleeps.exclusive hmon with heq | ⟨t, hrun⟩ | ⟨t, k, rfl, _⟩
    · refine ⟨⟨hsleeps, ?_, ?_, hinv.version⟩, bs, rootFinished, ?_⟩
      · rw [heq]
        exact hinv.written
      · rw [heq]
        exact hinv.pending
      · simpa [Matches, heq] using h
    · obtain ⟨⟨b, rootFinished', hmatch⟩, hwritten, hpending⟩ :=
        @Matches.run _ _ σ { σ with mon := mon } _ _ _ hinv h hrun rfl rfl
      exact ⟨⟨hsleeps, hwritten, hpending, hinv.version⟩, bs ++ [b], rootFinished', hmatch⟩
    · exact absurd rfl (hcall t k)

theorem threads_matches {as : List ThreadAct}
    (hs : Transition.exec (threadStep nprocs totalMetrics) {} as = some σ) :
    ThreadsInv nprocs totalMetrics σ ∧ ∃ bs rootFinished, Matches nprocs totalMetrics σ bs rootFinished := by
  refine Transition.exec_invariant _
    (I := fun σ => ThreadsInv nprocs totalMetrics σ ∧
      ∃ bs rootFinished, Matches nprocs totalMetrics σ bs rootFinished)
    ?_ ⟨.initial, [], false, rfl, rfl⟩ hs
  rintro σ a σ' ⟨hinv, bs, rootFinished, h⟩ hstep
  exact hinv.step h hstep

theorem exec_monitor {t : Thread} {cs : List (Monitor.Act Thread Locked)} (hof : ∀ a ∈ cs, Monitor.Act.Of t a) :
    Transition.exec (threadStep nprocs totalMetrics) σ (cs.map .monitor) =
      (Transition.exec (Monitor.step (Locked.section nprocs totalMetrics)) σ.mon cs).map
        fun mon => { σ with mon := mon } := by
  induction cs generalizing σ with
  | nil => rfl
  | cons a cs ih =>
    have ha : threadStep nprocs totalMetrics σ (.monitor a) =
        (Monitor.step (Locked.section nprocs totalMetrics) σ.mon a).map fun mon => { σ with mon := mon } := by
      cases a with
      | call t k => exact (hof _ (List.mem_cons_self ..)).elim
      | _ => rfl
    rw [List.map_cons, Transition.exec_cons, Transition.exec_cons, ha]
    cases Monitor.step (Locked.section nprocs totalMetrics) σ.mon a with
    | none => rfl
    | some mon => exact ih fun b hb => hof b (List.mem_cons_of_mem _ hb)

def Threads.atomic (σ : Threads) (rootFinished : Bool) : RootThreads :=
  σ.mon.shared.threads (σ.mon.pc .application).pending σ.version rootFinished

theorem atomic_eq_abs {rootFinished : Bool} (h : σ.mon.owner = none) :
    σ.atomic rootFinished =
      σ.mon.abs.shared.threads (σ.mon.abs.called .application) σ.version rootFinished := by
  rw [Monitor.abs_of_free h]
  rfl

theorem ThreadsInv.proceed_none {k : Locked} {rootFinished : Bool} (h : ThreadsInv nprocs totalMetrics σ)
    (ho : σ.mon.owner = none) (hw : σ.mon.pc .application = .wait k) :
    rootStep nprocs totalMetrics (σ.atomic rootFinished) .proceed = none := by
  have hpend : (σ.mon.pc .application).pending = some k := by simp [hw, Monitor.Pc.pending]
  have hguard := h.sleeps.guard hw ho
  rw [Threads.atomic, hpend, rootStep_proceed (h.sleeps.called _ k hpend), hguard]
  rfl

/-- With the mutex free, the application thread can go through its section where the atomic
one can, and ends where that does. -/
theorem ThreadsInv.proceed_some {rootFinished : Bool} {ρ : RootThreads} (h : ThreadsInv nprocs totalMetrics σ)
    (ho : σ.mon.owner = none) (hρ : rootStep nprocs totalMetrics (σ.atomic rootFinished) .proceed = some ρ) :
    ∃ (cs : List (Monitor.Act Thread Locked)) (σ' : Threads),
      Transition.exec (threadStep nprocs totalMetrics) σ (cs.map .monitor) = some σ' ∧
        (∀ a ∈ cs, Monitor.Act.Of .application a) ∧ σ'.mon.owner = none ∧ σ'.atomic rootFinished = ρ := by
  have hlock : ∃ k, σ.mon.pc .application = .lock k := by
    cases hp : σ.mon.pc .application with
    | lock k => exact ⟨k, rfl⟩
    | wait k => rw [h.proceed_none ho hp] at hρ; cases hρ
    | test k =>
      have := (h.sleeps.exclusive.testing hp).1
      rw [ho] at this
      cases this
    | idle => simp [Threads.atomic, hp, Monitor.Pc.pending, Guarded.threads, Locked.caller, rootStep] at hρ
    | run ops => simp [Threads.atomic, hp, Monitor.Pc.pending, Guarded.threads, Locked.caller, rootStep] at hρ
  obtain ⟨k, hp⟩ := hlock
  have hpend : (σ.mon.pc .application).pending = some k := by simp [hp, Monitor.Pc.pending]
  rw [Threads.atomic, hpend, rootStep_proceed (h.sleeps.called _ k hpend)] at hρ
  by_cases hg : (k.section nprocs totalMetrics).guard σ.mon.shared = true
  · rw [if_pos hg] at hρ
    cases hρ
    obtain ⟨cs, mon, hexec, hof, ho', hrun⟩ := Monitor.exists_section hp ho hg
    refine ⟨cs, { σ with mon := mon }, ?_, hof, ho', ?_⟩
    · rw [exec_monitor hof, hexec]
      rfl
    · obtain ⟨k', hk', _, habs⟩ := Monitor.atomicStep_run hrun
      have hkk : k' = k := Option.some.inj (hk'.symm.trans hpend)
      rw [@atomic_eq_abs { σ with mon := mon } _ ho', habs, hkk, Monitor.abs_of_free ho]
      simp
  · rw [if_neg hg] at hρ
    cases hρ

/-- With the mutex free, the threads are where the run `bs` of the atomic sections is: the
same state and the same copies, and the application thread waits iff it does there. -/
structure IsAtomic (nprocs : Nat) (totalMetrics : Int) (σ : Threads) (bs : List RootStep) (rootFinished : Bool) :
    Prop where
  exec : Transition.exec (rootStep nprocs totalMetrics) {} bs = some (σ.atomic rootFinished)
  copied : copied nprocs totalMetrics {} bs = σ.mon.shared.copies
  asleep : ∀ k, σ.mon.pc .application = .wait k →
    rootStep nprocs totalMetrics (σ.atomic rootFinished) .proceed = none
  proceeds : ∀ ρ, rootStep nprocs totalMetrics (σ.atomic rootFinished) .proceed = some ρ →
    ∃ (cs : List (Monitor.Act Thread Locked)) (σ' : Threads),
      Transition.exec (threadStep nprocs totalMetrics) σ (cs.map .monitor) = some σ' ∧
        (∀ a ∈ cs, Monitor.Act.Of .application a) ∧ σ'.mon.owner = none ∧ σ'.atomic rootFinished = ρ

/-- Every run of the threads that leaves the mutex free is one of the atomic sections. -/
theorem results_lock_atomic {as : List ThreadAct}
    (hs : Transition.exec (threadStep nprocs totalMetrics) {} as = some σ) (ho : σ.mon.owner = none) :
    ∃ bs rootFinished, IsAtomic nprocs totalMetrics σ bs rootFinished := by
  obtain ⟨hinv, bs, rootFinished, hexec, hcopied⟩ := threads_matches hs
  rw [Monitor.abs_of_free ho] at hexec hcopied
  exact ⟨bs, rootFinished, hexec, hcopied, fun k hw => hinv.proceed_none ho hw, fun ρ hρ => hinv.proceed_some ho hρ⟩

end

/-- `return_results` sleeps until `final_result` signals, and copies once it has the mutex again. -/
def signalled : List ThreadAct :=
  [.callReturnResults, .monitor (.lock .application), .monitor (.test .application),
    .finalResult { (default : Metrics) with metricsNr := 1, gatherInfo := [single 7] } 0] ++
    [.lock .communication, .test .communication, .write .communication, .write .communication, .write .communication,
      .signal .communication (some .application), .write .communication, .unlock .communication, .lock .application,
      .test .application, .write .application, .write .application, .write .application,
      .unlock .application].map .monitor

theorem results_lock_atomic_signalled :
    ∃ σ, Transition.exec (threadStep 3 1) {} signalled = some σ ∧
      σ.mon.shared.copies = [[some ((single 7).result 3)]] ∧
        ∃ bs rootFinished, IsAtomic 3 1 σ bs rootFinished :=
  ⟨_, rfl, rfl, @results_lock_atomic 3 1 _ signalled rfl rfl⟩

end Clarisse
