import Clarisse.Aggregation
import Clarisse.Finishing

/-!
# What the application reads

`return_results` and `monitoring_file_updated` on the root while the tree is at
work. The copy loop runs an entry at a time with `results_lock` held, and a call
of `final_result` has to wait for it; the rest of the tree does not.
-/

namespace Clarisse

open Interleave

/-! ## The tree and the application -/

/-- `available` is the flag `results_available`, `loop` the index of the copy loop and
`results` what it has copied; `returned` has each copy that a call has returned
with the number of calls of `final_result` before. -/
structure Monitored where
  net : Net
  available : Bool := false
  init : Bool := true
  loop : Option Nat := none
  results : List (Option SysMetric) := []
  returned : List (Nat × List (Option SysMetric)) := []

inductive AppStep where
  | net (a : Act)
  | returnResults
  | copy
  | fileUpdated
  deriving DecidableEq

def Monitored.flag (σ : Monitored) (T : Topology) : Act → Bool
  | .final =>
    match (σ.net.out T 0)[σ.net.root.pulse]? with
    | some e => (finalResult T.nprocs { σ.net.root with resultsAvailable := σ.available } e).resultsAvailable
    | none => σ.available
  | _ => σ.available

section
variable (T : Topology) (E : Nat → Nat → When → Sampling)

def appInit : Monitored where
  net := netInit T

def appStep (σ : Monitored) : AppStep → Option Monitored
  | .net a =>
    if a = .final ∧ σ.loop ≠ none then none
    else
      match netStep T E σ.net a with
      | none => none
      | some net => some { σ with net := net, available := σ.flag T a }
  | .returnResults =>
    match σ.loop with
    | some _ => none
    | none => if σ.init && !σ.available then none else some { σ with loop := some 0, results := [] }
  | .copy =>
    match σ.loop with
    | none => none
    | some i =>
      if (i : Int) < (σ.net.node 0).own.aggregator.totalMetrics then
        some { σ with loop := some (i + 1), results := σ.results ++ [σ.net.root.monitoringResults[i]?] }
      else
        some { σ with
          available := if σ.init then false else σ.available
          init := false
          loop := none
          returned := σ.returned ++ [(σ.net.root.pulse, σ.results)] }
  | .fileUpdated =>
    match σ.loop with
    | some _ => none
    | none => if σ.available then some { σ with available := false } else none

inductive AppSteps (σ : Monitored) : AppStep → Monitored → Prop where
  | net (a : Act) (net : Net) (hs : netStep T E σ.net a = some net) (hl : a = .final → σ.loop = none) :
      AppSteps σ (.net a) { σ with net := net, available := σ.flag T a }
  | returnResults (hl : σ.loop = none) (hw : σ.init = false ∨ σ.available = true) :
      AppSteps σ .returnResults { σ with loop := some 0, results := [] }
  | copy (i : Nat) (hl : σ.loop = some i) (hi : (i : Int) < (σ.net.node 0).own.aggregator.totalMetrics) :
      AppSteps σ .copy
        { σ with loop := some (i + 1), results := σ.results ++ [σ.net.root.monitoringResults[i]?] }
  | done (i : Nat) (hl : σ.loop = some i) (hi : (σ.net.node 0).own.aggregator.totalMetrics ≤ i) :
      AppSteps σ .copy
        { σ with
          available := if σ.init then false else σ.available
          init := false
          loop := none
          returned := σ.returned ++ [(σ.net.root.pulse, σ.results)] }
  | fileUpdated (hl : σ.loop = none) (ha : σ.available = true) : AppSteps σ .fileUpdated { σ with available := false }

end

section
variable {T : Topology} {E : Nat → Nat → When → Sampling} {σ σ' : Monitored} {a : AppStep} {n r : Nat}

theorem appStep_steps (hs : appStep T E σ a = some σ') : AppSteps T E σ a σ' := by
  cases a with
  | net a =>
    simp only [appStep] at hs
    split at hs
    · cases hs
    · rename_i hl
      cases hn : netStep T E σ.net a with
      | none => rw [hn] at hs; cases hs
      | some net =>
        rw [hn] at hs
        cases hs
        exact .net a net hn fun ha => by simpa [ha] using hl
  | returnResults =>
    simp only [appStep] at hs
    split at hs
    · cases hs
    · rename_i hl
      split at hs
      · cases hs
      · rename_i hw
        cases hs
        refine .returnResults hl ?_
        cases hi : σ.init with
        | false => exact Or.inl rfl
        | true => exact Or.inr (by simpa [hi] using hw)
  | copy =>
    simp only [appStep] at hs
    split at hs
    · cases hs
    · rename_i i hl
      split at hs
      · cases hs
        exact .copy i hl ‹_›
      · cases hs
        exact .done i hl (Int.not_lt.mp ‹_›)
  | fileUpdated =>
    simp only [appStep] at hs
    split at hs
    · cases hs
    · rename_i hl
      split at hs
      · cases hs
        exact .fileUpdated hl ‹_›
      · cases hs

/-! ## The bound of the copy loop -/

/-- With `n` names in every file the count is `n` from the first pulse on. -/
structure Totals (n : Nat) (s : OwnState) : Prop where
  first : 0 < s.counter → s.firstPulse = false
  total : s.firstPulse = false → s.aggregator.totalMetrics = n

theorem getMetricsValues_total {S : Sampling} {names : List String} (hS : S.Lists names) {agg agg' : Aggregator}
    {e d d' : Metrics} {c : Nat} (h : getMetricsValues T r S agg e c d = .ok (agg', d')) :
    agg'.totalMetrics = names.length ∨ agg' = agg ∧ d'.metricsNr = agg.totalMetrics := by
  cases (getMetricsValues_cases h).2 with
  | inl hs =>
    obtain ⟨-, b, hs⟩ := hs
    obtain ⟨values, -, hf⟩ := sampleFile_total hS agg d.metricsNr
    rw [hs, Except.ok.injEq, Prod.mk.injEq] at hf
    rw [hf.1]
    exact Or.inl rfl
  | inr hs =>
    obtain ⟨-, rfl, hs⟩ := hs
    exact Or.inr ⟨rfl, (sampleMemory_ok hs).1⟩

theorem Totals.step {E : Nat → When → Sampling} {m s : OwnState} {e : Metrics} (h : Totals n m)
    (hE : ∀ k w, ∃ names, names.length = n ∧ (E k w).Lists names) (hs : computeOwnMetrics T r E m e = .ok s)
    (hsub : ∀ o ∈ s.submitted, o.metricsNr = n) : Totals n s := by
  cases computeOwnMetrics_ok hs with
  | inl hs => rw [hs]; exact ⟨h.first, h.total⟩
  | inr hs =>
    obtain ⟨o, agg, hown⟩ := submitOwn_submits hs
    have hagg : agg.totalMetrics = n := by
      by_cases hc : (m.receive e.timestamp).firstPulse ∨ e.updateFile ≠ 0 ∨ e.quit ≠ 0
      · obtain ⟨names, hlen, hl⟩ := hE (m.receive e.timestamp).counter .current
        rcases getMetricsValues_total hl (hown.anew hc) with ht | ⟨rfl, hnr⟩
        · rw [ht, hlen]
        · rw [← hnr]
          exact hsub o (by rw [hown.submitted]; simp)
      · obtain ⟨rfl, -⟩ := hown.kept hc
        exact h.total (by simpa using fun hf => hc (Or.inl hf))
    refine ⟨fun _ => hown.firstPulse, fun _ => ?_⟩
    by_cases hq : e.quit = 0
    · obtain ⟨names, hlen, hl⟩ := hE ((m.receive e.timestamp).counter + 1) .next
      rcases getMetricsValues_total hl (hown.next hq) with ht | ⟨ht, -⟩
      · rw [ht, hlen]
      · rw [ht, hagg]
    · rw [(hown.stop hq).2, hagg]

theorem handleAll_totals {E : Nat → When → Sampling} (hE : ∀ k w, ∃ names, names.length = n ∧ (E k w).Lists names)
    {es : List Metrics} {s : OwnState} (h : handleAll T r E es = .ok s) (hsub : ∀ o ∈ s.submitted, o.metricsNr = n) :
    Totals n s := by
  induction es using List.reverseRecOn generalizing s with
  | nil =>
    cases h
    exact ⟨(fun h0 => absurd h0 (Nat.lt_irrefl 0)), (fun h0 => by cases h0)⟩
  | append_singleton es e ih =>
    rw [handleAll_snoc] at h
    cases hm : handleAll T r E es with
    | error _ => rw [hm] at h; cases h
    | ok m =>
      rw [hm] at h
      exact (ih hm fun o ho => hsub o ((computeOwnMetrics_submitted h).subset ho)).step hE h hsub

theorem root_total {τ : Net} (hτ : Reachable T E τ) (h2 : 2 ≤ T.nprocs) (hE : Counts E n) (hp : 0 < τ.root.pulse) :
    (τ.node 0).own.aggregator.totalMetrics = n := by
  have h := hτ.history
  have hl : T.isLeaf 0 = false := T.root_not_leaf
  have hin := h.inner h2 hl
  have hlen := h.rootLe
  rw [NetOf.out, hl] at hlen
  have hfull := hin.settled.full 0 (by rw [← hin.settled.submitted_length]; exact Nat.lt_of_lt_of_le hp hlen)
  rw [eventsAt_length, ← card_sources, hin.arrived.full_iff] at hfull
  have hown := hfull none Finset.none_mem_insertNone
  have hcount : 0 < (τ.node 0).own.counter := by
    rw [← hin.own.length]
    exact Nat.lt_of_lt_of_le hown (h.arrivedOwn 0).length_le
  have ht := handleAll_totals (hE 0) (h.own 0) (hτ.own_counts h2 hE hl)
  exact ht.total (ht.first hcount)

end

/-! ## One pulse at a time -/

/-- The copy holds the minimum, the maximum and the average of each metric over all
ranks, for one pulse. -/
structure Snapshot (T : Topology) (n : Nat) (v : Nat → Nat → Int) (results : List (Option SysMetric)) : Prop where
  length : results.length = n
  entry : ∀ j < n, ∃ metric, results[j]? = some (some metric) ∧
    IsLeast ((fun r => v r j) '' Finset.range T.nprocs) metric.min ∧
      IsGreatest ((fun r => v r j) '' Finset.range T.nprocs) metric.max ∧
        metric.avg = (∑ r ∈ Finset.range T.nprocs, (v r j : Rat)) / T.nprocs

section
variable {T : Topology} {E : Nat → Nat → When → Sampling} {n : Nat} {v : Nat → Nat → Nat → Int} {τ τ' : Net}

theorem root_results (hτ : Reachable T E τ) (h2 : 2 ≤ T.nprocs) (hn : 1 ≤ n) (hE : ∀ r, Measures (E r) n (v r))
    (hp : 0 < τ.root.pulse) :
    Snapshot T n (fun r j => v r (τ.root.pulse - 1) j)
      ((List.range n).map fun j => τ.root.monitoringResults[j]?) := by
  have hS := fun r => (hE r).samples hn
  have h := hτ.healthy h2 hS
  have hdig := h.digests h2 hS 0 T.nprocs_pos
  obtain ⟨k, hk⟩ : ∃ k, τ.root.pulse = k + 1 := Nat.exists_eq_succ_of_ne_zero (by omega)
  have hlt : k < (τ.out T 0).length := by
    have := h.rootLe
    omega
  let e := (τ.out T 0)[k]
  have he : (τ.out T 0)[k]? = some e := List.getElem?_eq_getElem hlt
  have ht : e.timestamp = k := inOrder_get _ (h.sent h2 0 T.nprocs_pos).inOrder he
  have hnr : ∀ x ∈ (τ.out T 0).take k, x.metricsNr = n := fun x hx => (hdig x (List.mem_of_mem_take hx)).metricsNr
  have hmem := List.mem_of_getElem? he
  have hres : τ.root.monitoringResults = (List.range n).map fun j => (e.column j).result T.nprocs := by
    have hpulse := foldl_pulse T.nprocs ((τ.out T 0).take k)
    rw [h.root, hk, List.take_add_one, he, Option.toList_some, List.foldl_append]
    exact finalResult_results T.nprocs (fun h0 => foldl_results T.nprocs hnr (hpulse ▸ h0)) (hdig e hmem).metricsNr
  constructor
  · simp
  · intro j hj
    refine ⟨(e.column j).result T.nprocs, ?_, ?_⟩
    · simp [hres, hj]
    · have hd := (hdig e hmem).column j hj
      rw [T.subtree_zero, ht] at hd
      rw [hk, Nat.add_sub_cancel]
      exact Aggregators.result_digest hd T.nprocs

theorem netStep_root_of_ne {a : Act} (ha : a ≠ .final) (hs : netStep T E τ a = some τ') : τ'.root = τ.root := by
  cases (netStep_steps hs).2 with
  | final _ e he => exact absurd rfl ha
  | leafHalt => rfl
  | ownHalt => rfl
  | leaf => rfl
  | terminal => rfl
  | multi => rfl
  | own => rfl

theorem netStep_pulse {a : Act} (hs : netStep T E τ a = some τ') : τ.root.pulse ≤ τ'.root.pulse := by
  by_cases ha : a = .final
  · subst ha
    cases (netStep_steps hs).2 with
    | final _ e he => exact Nat.le_succ _
  · rw [netStep_root_of_ne ha hs]

theorem Reachable.step {a : Act} (h : Reachable T E τ) (hs : netStep T E τ a = some τ') : Reachable T E τ' := by
  obtain ⟨as, has⟩ := h
  refine ⟨as ++ [a], ?_⟩
  rw [Transition.exec_append, has, Option.bind_some, Transition.exec_cons, hs]
  rfl

end

section
variable {T : Topology} {E : Nat → Nat → When → Sampling} {n : Nat} {v : Nat → Nat → Nat → Int} {σ σ' : Monitored}

/-- The flag is set, or the first call has returned, only with results there; the loop copies
what they are, and each copy returned is of the last pulse at that time. -/
structure AppInv (T : Topology) (E : Nat → Nat → When → Sampling) (n : Nat) (v : Nat → Nat → Nat → Int)
    (σ : Monitored) : Prop where
  reachable : Reachable T E σ.net
  there : σ.available = true ∨ σ.init = false → 0 < σ.net.root.pulse
  loop : ∀ i, σ.loop = some i → 0 < σ.net.root.pulse ∧ i ≤ n ∧
    σ.results = (List.range i).map fun j => σ.net.root.monitoringResults[j]?
  returned : ∀ x ∈ σ.returned, 0 < x.1 ∧ x.1 ≤ σ.net.root.pulse ∧ Snapshot T n (fun r j => v r (x.1 - 1) j) x.2
  ordered : (σ.returned.map Prod.fst).Pairwise (· ≤ ·)

theorem AppInv.net {a : Act} {net : Net} (h : AppInv T E n v σ) (hs : netStep T E σ.net a = some net)
    (hl : a = .final → σ.loop = none) : AppInv T E n v { σ with net := net, available := σ.flag T a } where
  reachable := h.reachable.step hs
  there ha := by
    by_cases hf : a = .final
    · subst hf
      cases (netStep_steps hs).2 with
      | final _ e he => exact Nat.succ_pos _
    · have hflag : σ.flag T a = σ.available := by
        cases a with
        | final => exact absurd rfl hf
        | leaf => rfl
        | terminal => rfl
        | multi => rfl
        | own => rfl
      rw [hflag] at ha
      exact Nat.lt_of_lt_of_le (h.there ha) (netStep_pulse hs)
  loop i hi := by
    have hf : a ≠ .final := fun hf => by
      rw [hl hf] at hi
      cases hi
    simp only [netStep_root_of_ne hf hs]
    exact h.loop i hi
  returned x hx := by
    obtain ⟨h1, h2, h3⟩ := h.returned x hx
    exact ⟨h1, h2.trans (netStep_pulse hs), h3⟩
  ordered := h.ordered

theorem AppInv.step {a : AppStep} (h : AppInv T E n v σ) (h2 : 2 ≤ T.nprocs) (hn : 1 ≤ n)
    (hE : ∀ r, Measures (E r) n (v r)) (hs : appStep T E σ a = some σ') : AppInv T E n v σ' := by
  have hcounts : Counts E n := fun r k w => (hE r).lists k w
  cases appStep_steps hs with
  | net a net ha hl => exact h.net ha hl
  | returnResults hl hw =>
    refine ⟨h.reachable, h.there, fun i hi => ?_, h.returned, h.ordered⟩
    cases hi
    exact ⟨h.there hw.symm, Nat.zero_le n, rfl⟩
  | copy i hl hi =>
    obtain ⟨hpos, hle, hres⟩ := h.loop i hl
    refine ⟨h.reachable, h.there, fun j hj => ?_, h.returned, h.ordered⟩
    cases hj
    rw [root_total h.reachable h2 hcounts hpos] at hi
    refine ⟨hpos, by omega, ?_⟩
    simp [hres, List.range_succ]
  | done i hl hi =>
    obtain ⟨hpos, hle, hres⟩ := h.loop i hl
    rw [root_total h.reachable h2 hcounts hpos] at hi
    obtain rfl : i = n := by omega
    refine ⟨h.reachable, fun _ => hpos, (fun j hj => by cases hj), fun x hx => ?_, ?_⟩
    · rw [List.mem_append, List.mem_singleton] at hx
      rcases hx with hx | rfl
      · exact h.returned x hx
      · exact ⟨hpos, Nat.le_refl _, hres ▸ root_results h.reachable h2 hn hE hpos⟩
    · rw [List.map_append, List.pairwise_append]
      refine ⟨h.ordered, by simp, fun k hk l hl => ?_⟩
      obtain ⟨x, hx, rfl⟩ := List.mem_map.mp hk
      rw [List.mem_singleton.mp hl]
      exact (h.returned x hx).2.1
  | fileUpdated hl ha =>
    exact ⟨h.reachable, fun hi => h.there (Or.inl ha), h.loop, h.returned, h.ordered⟩

/-- Every copy that a call of `return_results` has returned is of a single pulse, the last one
that the root had had, and later copies are of no earlier pulse. -/
theorem returned_snapshots (h2 : 2 ≤ T.nprocs) (hn : 1 ≤ n) (hE : ∀ r, Measures (E r) n (v r)) {as : List AppStep}
    (hs : Transition.exec (appStep T E) (appInit T) as = some σ) :
    (∀ x ∈ σ.returned, 0 < x.1 ∧ x.1 ≤ σ.net.root.pulse ∧ Snapshot T n (fun r j => v r (x.1 - 1) j) x.2) ∧
      (σ.returned.map Prod.fst).Pairwise (· ≤ ·) := by
  have h0 : AppInv T E n v (appInit T) := by
    refine ⟨⟨[], rfl⟩, fun h => ?_, (fun i hi => by cases hi), (fun x hx => by cases hx), List.Pairwise.nil⟩
    rcases h with h | h <;> cases h
  have h := Transition.exec_invariant _ (fun _ _ _ h hs => h.step h2 hn hE hs) h0 hs
  exact ⟨h.returned, h.ordered⟩

end

/-- The application reads the first pulse of `chain` while its second one is under way. -/
def chainRead : List AppStep :=
  (chainPulse ++ [Act.final]).map AppStep.net ++
    [.returnResults, .net (.leaf 2 false), .copy, .net (.terminal 2), .copy]

def afterChainRead : Monitored :=
  (Transition.exec (appStep chain loads) (appInit chain) chainRead).getD (appInit chain)

example : afterChainRead.returned.map Prod.fst = [1] := by decide

theorem returned_snapshots_chain :
    (∀ x ∈ afterChainRead.returned, 0 < x.1 ∧ x.1 ≤ afterChainRead.net.root.pulse ∧
      Snapshot chain 1 (fun r _ => r) x.2) ∧ (afterChainRead.returned.map Prod.fst).Pairwise (· ≤ ·) :=
  @returned_snapshots chain loads 1 (fun r _ _ => r) _ (by decide) (Nat.le_refl 1) measures_loads chainRead rfl

end Clarisse
