import Clarisse.Sampling
import Clarisse.Transition
import Mathlib.Data.Rat.Defs

/-!
# The results on the root

`final_result` of metrics_aggregator.c with `return_results` and
`monitoring_file_updated` of evp_monitoring.c. The communication thread and one
application thread share the results under `results_lock`; each locked section
is one step, and a thread that waits on `results_cond` takes none until the
flag is set.
-/

namespace Clarisse

structure SysMetric where
  min : Int
  max : Int
  avg : Rat
  deriving DecidableEq, Repr, Inhabited

/-- The static pulse of `final_result` and the fields of the aggregator it writes;
the length of `monitoringResults` is the length allocated. -/
structure RootState where
  pulse : Nat := 0
  monitoringResults : List SysMetric := []
  resultsAvailable : Bool := false
  rootFinished : Bool := false
  deriving DecidableEq, Repr

/-- The average is taken exactly. -/
def Aggregators.result (g : Aggregators) (nprocs : Nat) : SysMetric := ⟨g.min, g.max, (g.sum : Rat) / nprocs⟩

def allocResults (s : RootState) (event : Metrics) : List SysMetric :=
  if s.pulse = 0 ∨ event.updateFile ≠ 0 then List.replicate event.metricsNr.toNat ⟨0, 0, 0⟩
  else s.monitoringResults

def writeResults (nprocs : Nat) (event : Metrics) (results : List SysMetric) : List SysMetric :=
  (List.range event.metricsNr.toNat).foldl
    (fun results i => results.set i ((event.gatherInfo.getD i default).result nprocs)) results

def finalResult (nprocs : Nat) (s : RootState) (event : Metrics) : RootState where
  pulse := s.pulse + 1
  monitoringResults := writeResults nprocs event (allocResults s event)
  resultsAvailable := s.resultsAvailable || decide (s.pulse = 0 ∨ event.updateFile ≠ 0)
  rootFinished := s.rootFinished || decide (event.quit ≠ 0 ∨ event.metricsNr = 0)

/-- What `return_results` copies and its static `init` afterwards; `none` while it
waits. An entry past the allocated length reads as `none`. -/
def returnResults (totalMetrics : Int) (init : Bool) (s : RootState) :
    Option (List (Option SysMetric) × Bool × RootState) :=
  if init && !s.resultsAvailable then none
  else
    let results := (List.range totalMetrics.toNat).map fun i => s.monitoringResults[i]?
    some (results, false, if init then { s with resultsAvailable := false } else s)

def monitoringFileUpdated (s : RootState) : Option RootState :=
  if s.resultsAvailable then some { s with resultsAvailable := false } else none

theorem writeResults_spec (nprocs : Nat) (event : Metrics) {results : List SysMetric}
    (h : results.length = event.metricsNr.toNat) :
    writeResults nprocs event results =
      (List.range event.metricsNr.toNat).map fun i => (event.gatherInfo.getD i default).result nprocs := by
  have key : ∀ n, n ≤ results.length →
      (List.range n).foldl (fun results i => results.set i ((event.gatherInfo.getD i default).result nprocs))
          results =
        ((List.range n).map fun i => (event.gatherInfo.getD i default).result nprocs) ++ results.drop n := by
    intro n
    induction n with
    | zero => intro _; rfl
    | succ n ih =>
      intro hn
      rw [List.range_succ, List.foldl_append, ih (by omega), List.foldl_cons, List.foldl_nil]
      rw [List.set_append_right _ _ (by simp), List.length_map, List.length_range, Nat.sub_self,
        List.drop_eq_getElem_cons (by omega), List.set_cons_zero, List.map_append]
      simp
  rw [writeResults, key _ (by omega), List.drop_of_length_le (by omega), List.append_nil]

theorem writeResults_length (nprocs : Nat) (event : Metrics) (results : List SysMetric) :
    (writeResults nprocs event results).length = results.length := by
  unfold writeResults
  induction List.range event.metricsNr.toNat generalizing results with
  | nil => rfl
  | cons i l ih => rw [List.foldl_cons, ih, List.length_set]

/-! ## The two threads -/

inductive Caller where
  | idle
  | returnResults
  | fileUpdated (version : Nat)
  deriving DecidableEq, Repr

/-- Versions number the contents of the metrics file. `written` is the version of
the last `final_result`, `returned` has for each call of `monitoring_file_updated`
that has returned its version and what was then written, and `shown` has for each
`return_results` the last version promised before and what was written. -/
structure RootThreads where
  root : RootState := {}
  init : Bool := true
  caller : Caller := .idle
  version : Nat := 0
  written : Option Nat := none
  returned : List (Nat × Option Nat) := []
  shown : List (Option Nat × Option Nat) := []

inductive RootStep where
  | editFile
  | finalResult (event : Metrics) (version : Nat)
  | callReturnResults
  | callFileUpdated
  | proceed
  deriving DecidableEq

/-- The versions of the pulses do not decrease, and none is newer than the file. -/
def rootStep (nprocs : Nat) (totalMetrics : Int) (σ : RootThreads) : RootStep → Option RootThreads
  | .editFile => some { σ with version := σ.version + 1 }
  | .finalResult event version =>
    if σ.written.getD 0 ≤ version ∧ version ≤ σ.version then
      some { σ with root := Clarisse.finalResult nprocs σ.root event, written := some version }
    else none
  | .callReturnResults => if σ.caller = .idle then some { σ with caller := .returnResults } else none
  | .callFileUpdated => if σ.caller = .idle then some { σ with caller := .fileUpdated σ.version } else none
  | .proceed =>
    match σ.caller with
    | .idle => none
    | .returnResults =>
      match returnResults totalMetrics σ.init σ.root with
      | none => none
      | some (_, init, root) =>
        some { σ with root := root, init := init, caller := .idle,
                      shown := σ.shown ++ [(σ.returned.getLast?.map Prod.fst, σ.written)] }
    | .fileUpdated version =>
      match monitoringFileUpdated σ.root with
      | none => none
      | some root =>
        some { σ with root := root, caller := .idle, returned := σ.returned ++ [(version, σ.written)] }

def AtLeast (written : Option Nat) (version : Nat) : Prop := ∃ n, written = some n ∧ version ≤ n

/-- Every call of `monitoring_file_updated` has returned after a `final_result` for
its version, and so has every `return_results` that followed one. -/
structure Updated (σ : RootThreads) : Prop where
  returned : ∀ x ∈ σ.returned, AtLeast x.2 x.1
  shown : ∀ x ∈ σ.shown, ∀ version, x.1 = some version → AtLeast x.2 version

/-- The flag that a call of `monitoring_file_updated` finds set, or that a pulse sets
while one waits, is for the version of the call. -/
def FlagIsFresh (σ : RootThreads) : RootStep → Prop
  | .callFileUpdated => σ.root.resultsAvailable = true → AtLeast σ.written σ.version
  | .finalResult event version =>
    ∀ v, σ.caller = .fileUpdated v → (σ.root.pulse = 0 ∨ event.updateFile ≠ 0) → v ≤ version
  | _ => True

structure RootInv (σ : RootThreads) : Prop extends Updated σ where
  waiting : ∀ v, σ.caller = .fileUpdated v → σ.root.resultsAvailable = true → AtLeast σ.written v
  promised : ∀ x, σ.returned.getLast? = some x → AtLeast σ.written x.1

section
variable {nprocs : Nat} {totalMetrics : Int} {σ σ' : RootThreads}

inductive RootSteps (nprocs : Nat) (σ : RootThreads) : RootStep → RootThreads → Prop where
  | editFile : RootSteps nprocs σ .editFile { σ with version := σ.version + 1 }
  | finalResult (event : Metrics) (version : Nat) (h : σ.written.getD 0 ≤ version ∧ version ≤ σ.version) :
      RootSteps nprocs σ (.finalResult event version)
        { σ with root := Clarisse.finalResult nprocs σ.root event, written := some version }
  | callReturnResults (h : σ.caller = .idle) :
      RootSteps nprocs σ .callReturnResults { σ with caller := .returnResults }
  | callFileUpdated (h : σ.caller = .idle) :
      RootSteps nprocs σ .callFileUpdated { σ with caller := .fileUpdated σ.version }
  | returnResults (hc : σ.caller = .returnResults) (hw : σ.init = false ∨ σ.root.resultsAvailable = true) :
      RootSteps nprocs σ .proceed
        { σ with
          root := if σ.init then { σ.root with resultsAvailable := false } else σ.root
          init := false
          caller := .idle
          shown := σ.shown ++ [(σ.returned.getLast?.map Prod.fst, σ.written)] }
  | fileUpdated (v : Nat) (hc : σ.caller = .fileUpdated v) (ha : σ.root.resultsAvailable = true) :
      RootSteps nprocs σ .proceed
        { σ with
          root := { σ.root with resultsAvailable := false }
          caller := .idle
          returned := σ.returned ++ [(v, σ.written)] }

theorem returnResults_eq_none {init : Bool} {s : RootState} :
    returnResults totalMetrics init s = none ↔ ¬ (init = false ∨ s.resultsAvailable = true) := by
  unfold returnResults
  cases init <;> cases s.resultsAvailable <;> simp

theorem rootStep_steps {a : RootStep} (hs : rootStep nprocs totalMetrics σ a = some σ') :
    RootSteps nprocs σ a σ' := by
  cases a with
  | editFile => cases hs; exact .editFile
  | finalResult event n =>
    simp only [rootStep] at hs
    split at hs
    · cases hs; exact .finalResult event n ‹_›
    · cases hs
  | callReturnResults =>
    simp only [rootStep] at hs
    split at hs
    · cases hs; exact .callReturnResults ‹_›
    · cases hs
  | callFileUpdated =>
    simp only [rootStep] at hs
    split at hs
    · cases hs; exact .callFileUpdated ‹_›
    · cases hs
  | proceed =>
    simp only [rootStep] at hs
    cases hc : σ.caller with
    | idle => rw [hc] at hs; cases hs
    | returnResults =>
      simp only [hc] at hs
      by_cases hw : σ.init = false ∨ σ.root.resultsAvailable = true
      · have hb : ¬ (σ.init && !σ.root.resultsAvailable) = true := by
          cases hw with
          | inl h => simp [h]
          | inr h => simp [h]
        rw [returnResults, if_neg hb] at hs
        cases hs
        exact .returnResults hc hw
      · rw [returnResults_eq_none.mpr hw] at hs
        cases hs
    | fileUpdated v =>
      simp only [hc, monitoringFileUpdated] at hs
      by_cases ha : σ.root.resultsAvailable = true
      · rw [if_pos ha] at hs
        cases hs
        exact .fileUpdated v hc ha
      · rw [if_neg ha] at hs
        cases hs

theorem AtLeast.mono {written : Option Nat} {v n : Nat} (h : AtLeast written v) (hn : written.getD 0 ≤ n) :
    AtLeast (some n) v := by
  obtain ⟨m, rfl, hm⟩ := h
  exact ⟨n, rfl, Nat.le_trans hm hn⟩

theorem RootInv.finalResult {event : Metrics} {n : Nat} (h : RootInv σ) (hf : FlagIsFresh σ (.finalResult event n))
    (hn : σ.written.getD 0 ≤ n) :
    RootInv { σ with root := Clarisse.finalResult nprocs σ.root event, written := some n } where
  returned := h.returned
  shown := h.shown
  waiting v hv ha := by
    simp only [Clarisse.finalResult, Bool.or_eq_true, decide_eq_true_eq] at ha
    cases ha with
    | inl ha => exact (h.waiting v hv ha).mono hn
    | inr ha => exact ⟨n, rfl, hf v hv ha⟩
  promised x hx := (h.promised x hx).mono hn

theorem RootInv.step {a : RootStep} (h : RootInv σ) (hf : FlagIsFresh σ a)
    (hs : rootStep nprocs totalMetrics σ a = some σ') : RootInv σ' := by
  cases rootStep_steps hs with
  | editFile => exact ⟨⟨h.returned, h.shown⟩, h.waiting, h.promised⟩
  | finalResult event n hn => exact h.finalResult hf hn.1
  | callReturnResults _ => exact ⟨⟨h.returned, h.shown⟩, nofun, h.promised⟩
  | callFileUpdated _ =>
    refine ⟨⟨h.returned, h.shown⟩, fun v hv ha => ?_, h.promised⟩
    cases hv
    exact hf ha
  | returnResults _ _ =>
    refine ⟨⟨h.returned, fun x hx v hv => ?_⟩, nofun, h.promised⟩
    rw [List.mem_append, List.mem_singleton] at hx
    cases hx with
    | inl hx => exact h.shown x hx v hv
    | inr hx =>
      rw [hx] at hv ⊢
      obtain ⟨y, hy, rfl⟩ := Option.map_eq_some_iff.mp hv
      exact h.promised y hy
  | fileUpdated v hc ha =>
    have hw := h.waiting v hc ha
    refine ⟨⟨fun x hx => ?_, h.shown⟩, nofun, fun x hx => ?_⟩
    · rw [List.mem_append, List.mem_singleton] at hx
      cases hx with
      | inl hx => exact h.returned x hx
      | inr hx => rw [hx]; exact hw
    · rw [List.getLast?_concat] at hx
      cases hx
      exact hw

theorem not_updated_of_stale {a : RootStep} (hs : rootStep nprocs totalMetrics σ a = some σ')
    (hf : ¬ FlagIsFresh σ a) :
    ∃ τ, rootStep nprocs totalMetrics σ' .proceed = some τ ∧ ¬ Updated τ := by
  have key : ∀ v, σ'.caller = .fileUpdated v → σ'.root.resultsAvailable = true → ¬ AtLeast σ'.written v →
      ∃ τ, rootStep nprocs totalMetrics σ' .proceed = some τ ∧ ¬ Updated τ := by
    intro v hv ha hn
    refine ⟨{ σ' with
      root := { σ'.root with resultsAvailable := false }, caller := .idle,
      returned := σ'.returned ++ [(v, σ'.written)] }, ?_, fun hu => hn ?_⟩
    · simp only [rootStep, hv, monitoringFileUpdated, if_pos ha]
    · exact hu.returned (v, σ'.written) (by simp)
  cases a with
  | callFileUpdated =>
    simp only [FlagIsFresh, Classical.not_imp] at hf
    simp only [rootStep] at hs
    split at hs
    · cases hs
      exact key _ rfl hf.1 hf.2
    · cases hs
  | finalResult event n =>
    simp only [FlagIsFresh, Classical.not_forall] at hf
    obtain ⟨v, hv, hset, hlt⟩ := hf
    simp only [rootStep] at hs
    split at hs
    · cases hs
      refine key v hv ?_ ?_
      · simp only [Clarisse.finalResult, Bool.or_eq_true, decide_eq_true_eq]
        exact Or.inr hset
      · intro hw
        obtain ⟨m, hm, hle⟩ := hw
        cases hm
        exact hlt hle
    · cases hs
  | editFile => exact absurd trivial hf
  | callReturnResults => exact absurd trivial hf
  | proceed => exact absurd trivial hf

/-- In a run whose flags are fresh, every `monitoring_file_updated` keeps its promise. -/
theorem updated_of_fresh {as : List RootStep}
    (hf : Transition.Along (rootStep nprocs totalMetrics) FlagIsFresh {} as)
    (hs : Transition.exec (rootStep nprocs totalMetrics) {} as = some σ) : Updated σ := by
  have h0 : RootInv {} :=
    ⟨⟨nofun, nofun⟩, nofun, nofun⟩
  exact (Transition.along_invariant _ (fun _ _ _ h hf hs => h.step hf hs) h0 hf hs).toUpdated

end

def freshFlag : List RootStep :=
  [.finalResult default 0, .callReturnResults, .proceed, .editFile, .callFileUpdated,
    .finalResult { (default : Metrics) with updateFile := 1 } 1, .proceed]

theorem updated_freshFlag :
    ∃ σ, Transition.exec (rootStep 3 1) {} freshFlag = some σ ∧ σ.returned = [(1, some 1)] ∧ Updated σ := by
  refine ⟨_, rfl, rfl, @updated_of_fresh 3 1 _ freshFlag ?_ rfl⟩
  refine Transition.along_cons _ (fun v hv => by cases hv) rfl ?_
  refine Transition.along_cons _ trivial rfl ?_
  refine Transition.along_cons _ trivial rfl ?_
  refine Transition.along_cons _ trivial rfl ?_
  refine Transition.along_cons _ (fun ha => by cases ha) rfl ?_
  refine Transition.along_cons _ (fun v hv _ => by cases hv; exact Nat.le_refl _) rfl ?_
  exact Transition.along_cons _ trivial rfl trivial

/-- The file is changed after the first pulse, and the flag of that pulse answers
the call. -/
def staleFlag : List RootStep :=
  [.finalResult { (default : Metrics) with metricsNr := 1, gatherInfo := [single 7] } 0, .editFile,
    .callFileUpdated, .proceed]

theorem staleFlag_not_updated :
    ¬ ∀ (nprocs : Nat) (totalMetrics : Int) (as : List RootStep) (σ : RootThreads),
      Transition.exec (rootStep nprocs totalMetrics) {} as = some σ → Updated σ := by
  intro h
  obtain ⟨n, hn, hle⟩ := (h 3 1 staleFlag _ rfl).returned (1, some 0) (List.mem_singleton_self _)
  cases hn
  exact absurd hle (by decide)

/-! ## Waiting for the first pulse -/

def Served (totalMetrics : Int) (σ : RootThreads) : Prop :=
  0 < σ.root.pulse → returnResults totalMetrics σ.init σ.root ≠ none

/-- `monitoring_file_updated` takes the flag only after a `return_results` has. -/
def TakenBefore (σ : RootThreads) : RootStep → Prop
  | .proceed => ∀ v, σ.caller = .fileUpdated v → σ.root.resultsAvailable = true → σ.init = false
  | _ => True

def FlagFromPulse (σ : RootThreads) : Prop := σ.root.resultsAvailable = true → 0 < σ.root.pulse

section
variable {nprocs : Nat} {totalMetrics : Int} {σ σ' : RootThreads} {a : RootStep}

theorem served_iff :
    Served totalMetrics σ ↔ (0 < σ.root.pulse → σ.init = false ∨ σ.root.resultsAvailable = true) := by
  unfold Served
  rw [ne_eq, returnResults_eq_none, not_not]

theorem FlagFromPulse.step (h : FlagFromPulse σ) (hs : rootStep nprocs totalMetrics σ a = some σ') :
    FlagFromPulse σ' := by
  cases rootStep_steps hs with
  | editFile => exact h
  | finalResult event n _ => exact fun _ => Nat.succ_pos _
  | callReturnResults _ => exact h
  | callFileUpdated _ => exact h
  | returnResults _ _ =>
    show (ite _ _ _ : RootState).resultsAvailable = true → 0 < (ite _ _ _ : RootState).pulse
    split
    · intro ha; cases ha
    · exact h
  | fileUpdated v _ _ => intro ha; cases ha

theorem takenBefore_iff (h : FlagFromPulse σ) (hp : Served totalMetrics σ)
    (hs : rootStep nprocs totalMetrics σ a = some σ') : TakenBefore σ a ↔ Served totalMetrics σ' := by
  rw [served_iff] at hp ⊢
  cases rootStep_steps hs with
  | editFile => exact iff_of_true trivial hp
  | callReturnResults _ => exact iff_of_true trivial hp
  | callFileUpdated _ => exact iff_of_true trivial hp
  | finalResult event n _ =>
    refine iff_of_true trivial fun _ => ?_
    simp only [finalResult, Bool.or_eq_true, decide_eq_true_eq]
    rcases Nat.eq_zero_or_pos σ.root.pulse with h0 | h0
    · exact Or.inr (Or.inr (Or.inl h0))
    · exact (hp h0).imp id Or.inl
  | returnResults hc _ =>
    refine iff_of_true (fun v hv => ?_) fun _ => Or.inl rfl
    rw [hc] at hv
    cases hv
  | fileUpdated v hc ha =>
    -- the flag is cleared, so the next `return_results` must not look at it
    refine ⟨fun ht _ => Or.inl (ht v hc ha), fun hsrv _ _ _ => ?_⟩
    exact (hsrv (h ha)).resolve_right nofun

/-- A run leaves no call of `return_results` waiting after the first pulse iff no
`monitoring_file_updated` takes the flag before the first `return_results` has. -/
theorem served_iff_takenBefore {as : List RootStep}
    (hs : Transition.exec (rootStep nprocs totalMetrics) {} as = some σ) :
    (∀ bs, bs <+: as → ∀ τ, Transition.exec (rootStep nprocs totalMetrics) {} bs = some τ →
      0 < τ.root.pulse → returnResults totalMetrics τ.init τ.root ≠ none) ↔
      Transition.Along (rootStep nprocs totalMetrics) TakenBefore {} as := by
  have h0 : FlagFromPulse {} := nofun
  have hp : Served totalMetrics {} := nofun
  exact (Transition.along_iff _ h0 hp (fun _ _ _ h hs => h.step hs) (fun _ _ _ h hp hs => takenBefore_iff h hp hs)
    hs).symm

end

def takenInTurn : List RootStep :=
  [.callReturnResults, .finalResult default 0, .proceed, .editFile, .callFileUpdated,
    .finalResult { (default : Metrics) with updateFile := 1 } 1, .proceed, .callReturnResults]

theorem served_iff_takenBefore_inTurn :
    ∃ σ, Transition.exec (rootStep 3 1) {} takenInTurn = some σ ∧
      ((∀ bs, bs <+: takenInTurn → ∀ τ, Transition.exec (rootStep 3 1) {} bs = some τ →
        0 < τ.root.pulse → returnResults 1 τ.init τ.root ≠ none) ↔
        Transition.Along (rootStep 3 1) TakenBefore {} takenInTurn) :=
  ⟨_, rfl, served_iff_takenBefore rfl⟩

theorem takenEarly_waits :
    ¬ ∀ (nprocs : Nat) (totalMetrics : Int) (as : List RootStep) (σ : RootThreads),
      Transition.exec (rootStep nprocs totalMetrics) {} as = some σ → 0 < σ.root.pulse →
        returnResults totalMetrics σ.init σ.root ≠ none := by
  intro h
  exact h 3 1 [.finalResult default 0, .callFileUpdated, .proceed] _ rfl (by decide) rfl

end Clarisse
