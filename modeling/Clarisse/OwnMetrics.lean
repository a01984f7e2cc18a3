import Clarisse.Interleave
import Clarisse.Sampling
import Clarisse.Topology
import Clarisse.Transition
import Mathlib.Logic.Function.Basic

/-!
# The own metrics of an aggregating node

`get_metrics_values` and `compute_own_metrics` of metrics_aggregator.c, the
handler of the terminal stone that each child event reaches: it counts the
events of each timestamp in `hash_ts`, and when the current one is complete it
submits the node's own event and samples for the next.
-/

namespace Clarisse

open Interleave

/-- A node samples for the next pulse when it has submitted its own event, and anew
for the current one when that is the first, or the closing event asks for it. -/
inductive When where
  | next
  | current
  deriving DecidableEq, Repr

/-- `data.gather_info` is not freed before it is allocated anew, so `data` keeps
its columns where a sampling leaves them alone. -/
def getMetricsValues (T : Topology) (rank : Nat) (S : Sampling) (agg : Aggregator) (event : Metrics) (counter : Nat)
    (data : Metrics) : Except Halt (Aggregator × Metrics) :=
  let data :=
    { data with
      maxDegree := T.maxDegree
      updateFile := event.updateFile
      timestamp := counter
      parentRank := T.getParent rank
      nprocs := T.nprocs
      quit := event.quit
      startTime := -1 }
  if event.updateFile ≠ 0 then
    match sampleFile S agg data.metricsNr with
    | .error e => .error e
    | .ok (agg, nr, values, _) =>
      .ok (agg, { data with metricsNr := nr, gatherInfo := values, contributions := [agg.desiredMetrics.getD []] })
  else
    match sampleMemory S agg data.gatherInfo with
    | .error e => .error e
    | .ok (nr, values) =>
      .ok (agg, { data with metricsNr := nr, gatherInfo := values, contributions := [agg.desiredMetrics.getD []] })

/-- The static variables of `compute_own_metrics`, the fields of the aggregator it
uses, and what it has submitted to the multi stone. -/
structure OwnState where
  counter : Nat := 0
  firstPulse : Bool := true
  data : Metrics := default
  hashTs : Nat → Option Nat := fun _ => none
  aggregator : Aggregator := initializeMetricsAggregator
  submitted : List Metrics := []

/-- `HASH_FIND` for the arriving timestamp, then `HASH_ADD` or `found->count++`. -/
def OwnState.receive (s : OwnState) (ts : Nat) : OwnState :=
  { s with hashTs := Function.update s.hashTs ts (some ((s.hashTs ts).getD 0 + 1)) }

/-- `EVsubmit`, `++counter` and `HASH_DEL` of the entry that was found. -/
def OwnState.submit (s : OwnState) : OwnState :=
  { s with
    submitted := s.submitted ++ [s.data]
    counter := s.counter + 1
    hashTs := Function.update s.hashTs s.counter none }

/-- The calls of `get_metrics_values`, for the value of `counter`. -/
def OwnState.sample (s : OwnState) (T : Topology) (rank : Nat) (E : Nat → When → Sampling) (w : When)
    (event : Metrics) : Except Halt OwnState :=
  match getMetricsValues T rank (E s.counter w) s.aggregator event s.counter s.data with
  | .error e => .error e
  | .ok (agg, data) => .ok { s with aggregator := agg, data := data }

/-- The branch taken when `counter` has been received from every child. -/
def submitOwn (T : Topology) (rank : Nat) (E : Nat → When → Sampling) (event : Metrics) (s : OwnState) :
    Except Halt OwnState :=
  let sampled :=
    if s.firstPulse ∨ event.updateFile ≠ 0 ∨ event.quit ≠ 0 then
      { s with firstPulse := false }.sample T rank E .current event
    else .ok s
  match sampled with
  | .error e => .error e
  | .ok s => if event.quit ≠ 0 then .ok s.submit else s.submit.sample T rank E .next event

def computeOwnMetrics (T : Topology) (rank : Nat) (E : Nat → When → Sampling) (s : OwnState) (event : Metrics) :
    Except Halt OwnState :=
  let s := s.receive event.timestamp
  match s.hashTs s.counter with
  | none => .error .nullFound
  | some countTs => if countTs = T.getDegreeNode rank then submitOwn T rank E event s else .ok s

def handleAll (T : Topology) (rank : Nat) (E : Nat → When → Sampling) (es : List Metrics) : Except Halt OwnState :=
  es.foldlM (computeOwnMetrics T rank E) {}

def QuitLast (l : List Metrics) : Prop := ∀ k x, l[k]? = some x → x.quit ≠ 0 → l.length ≤ k + 1

instance (l : List Metrics) : Decidable (QuitLast l) :=
  decidable_of_iff (∀ k : Fin l.length, (l.get k).quit ≠ 0 → l.length ≤ k + 1) <| by
    refine ⟨?_, ?_⟩
    · intro h k x hk hx
      obtain ⟨hlt, rfl⟩ := List.getElem?_eq_some_iff.mp hk
      exact h ⟨k, hlt⟩ hx
    · intro h k hx
      exact h k _ (List.getElem?_eq_getElem k.2) hx

/-- The header that the own events of `rank` carry. -/
structure Announces (T : Topology) (rank : Nat) (e : Metrics) : Prop where
  parentRank : e.parentRank = T.getParent rank
  maxDegree : e.maxDegree = T.maxDegree
  nprocs : e.nprocs = T.nprocs

section
variable (s : OwnState) (ts : Nat)

@[simp] theorem receive_counter : (s.receive ts).counter = s.counter := rfl
@[simp] theorem receive_firstPulse : (s.receive ts).firstPulse = s.firstPulse := rfl
@[simp] theorem receive_data : (s.receive ts).data = s.data := rfl
@[simp] theorem receive_aggregator : (s.receive ts).aggregator = s.aggregator := rfl
@[simp] theorem receive_submitted : (s.receive ts).submitted = s.submitted := rfl
@[simp] theorem receive_hashTs :
    (s.receive ts).hashTs = Function.update s.hashTs ts (some ((s.hashTs ts).getD 0 + 1)) := rfl

end

/-! ## What one handler call can do -/

section
variable {T : Topology} {r : Nat} {E : Nat → When → Sampling}

theorem quitLast_of_le {l m : List Metrics} (hp : l <+: m) (h : QuitLast m) : QuitLast l := by
  obtain ⟨r, rfl⟩ := hp
  intro k x hk hx
  have hlt := (List.getElem?_eq_some_iff.mp hk).1
  have := h k x (by rw [List.getElem?_append_left hlt]; exact hk) hx
  rw [List.length_append] at this
  omega

theorem getMetricsValues_cases {S : Sampling} {agg agg' : Aggregator} {e d d' : Metrics} {c : Nat}
    (h : getMetricsValues T r S agg e c d = .ok (agg', d')) :
    (Announces T r d' ∧ d'.timestamp = c ∧ d'.quit = e.quit ∧ d'.updateFile = e.updateFile) ∧
      ((e.updateFile ≠ 0 ∧ ∃ b, sampleFile S agg d.metricsNr = .ok (agg', d'.metricsNr, d'.gatherInfo, b)) ∨
        e.updateFile = 0 ∧ agg' = agg ∧ sampleMemory S agg d.gatherInfo = .ok (d'.metricsNr, d'.gatherInfo)) := by
  unfold getMetricsValues at h
  simp only at h
  by_cases hu : e.updateFile ≠ 0
  · rw [if_pos hu] at h
    cases hs : sampleFile S agg d.metricsNr with
    | error _ => rw [hs] at h; cases h
    | ok x =>
      rw [hs] at h
      cases h
      exact ⟨⟨⟨rfl, rfl, rfl⟩, rfl, rfl, rfl⟩, Or.inl ⟨hu, _, rfl⟩⟩
  · rw [if_neg hu] at h
    cases hs : sampleMemory S agg d.gatherInfo with
    | error _ => rw [hs] at h; cases h
    | ok x =>
      rw [hs] at h
      cases h
      exact ⟨⟨⟨rfl, rfl, rfl⟩, rfl, rfl, rfl⟩, Or.inr ⟨not_not.mp hu, rfl, rfl⟩⟩

theorem getMetricsValues_ok {S : Sampling} {agg agg' : Aggregator} {e d d' : Metrics} {c : Nat}
    (h : getMetricsValues T r S agg e c d = .ok (agg', d')) :
    Announces T r d' ∧ d'.timestamp = c ∧ d'.quit = e.quit ∧ d'.updateFile = e.updateFile :=
  (getMetricsValues_cases h).1

theorem getMetricsValues_halt {S : Sampling} {agg : Aggregator} {e d : Metrics} {c : Nat} {h : Halt}
    (he : getMetricsValues T r S agg e c d = .error h) : h ≠ .nullFound := by
  unfold getMetricsValues at he
  simp only at he
  split at he
  · cases hs : sampleFile S agg d.metricsNr with
    | error _ => rw [hs] at he; cases he; exact sampleFile_halt hs
    | ok x => rw [hs] at he; cases he
  · cases hs : sampleMemory S agg d.gatherInfo with
    | error _ => rw [hs] at he; cases he; exact sampleMemory_halt hs
    | ok x => rw [hs] at he; cases he

theorem sample_halt {s : OwnState} {w : When} {e : Metrics} {h : Halt} (he : s.sample T r E w e = .error h) :
    h ≠ .nullFound := by
  unfold OwnState.sample at he
  cases hg : getMetricsValues T r (E s.counter w) s.aggregator e s.counter s.data with
  | error _ => rw [hg] at he; cases he; exact getMetricsValues_halt hg
  | ok x => rw [hg] at he; cases he

theorem sample_ok {s s' : OwnState} {w : When} {e : Metrics} (h : s.sample T r E w e = .ok s') :
    ∃ agg d, getMetricsValues T r (E s.counter w) s.aggregator e s.counter s.data = .ok (agg, d) ∧
      s' = { s with aggregator := agg, data := d } := by
  unfold OwnState.sample at h
  cases hg : getMetricsValues T r (E s.counter w) s.aggregator e s.counter s.data with
  | error _ => rw [hg] at h; cases h
  | ok x => rw [hg] at h; cases h; exact ⟨x.1, x.2, rfl, rfl⟩

theorem submitOwn_halt {e : Metrics} {s : OwnState} {h : Halt} (he : submitOwn T r E e s = .error h) :
    h ≠ .nullFound := by
  unfold submitOwn at he
  simp only at he
  split at he
  · rename_i hs
    cases he
    split at hs
    · exact sample_halt hs
    · cases hs
  · split at he
    · cases he
    · exact sample_halt he

/-- All that a call which completes a timestamp does: `o` is the event submitted,
`agg` the aggregator at that time. -/
structure Submits (T : Topology) (r : Nat) (E : Nat → When → Sampling) (e : Metrics) (s s' : OwnState) (o : Metrics)
    (agg : Aggregator) : Prop where
  submitted : s'.submitted = s.submitted ++ [o]
  counter : s'.counter = s.counter + 1
  hashTs : s'.hashTs = Function.update s.hashTs s.counter none
  firstPulse : s'.firstPulse = false
  anew : s.firstPulse ∨ e.updateFile ≠ 0 ∨ e.quit ≠ 0 →
    getMetricsValues T r (E s.counter .current) s.aggregator e s.counter s.data = .ok (agg, o)
  kept : ¬ (s.firstPulse ∨ e.updateFile ≠ 0 ∨ e.quit ≠ 0) → agg = s.aggregator ∧ o = s.data
  stop : e.quit ≠ 0 → s'.data = o ∧ s'.aggregator = agg
  next : e.quit = 0 →
    getMetricsValues T r (E (s.counter + 1) .next) agg e (s.counter + 1) o = .ok (s'.aggregator, s'.data)

theorem submitOwn_submits {e : Metrics} {s s' : OwnState} (h : submitOwn T r E e s = .ok s') :
    ∃ o agg, Submits T r E e s s' o agg := by
  unfold submitOwn at h
  simp only at h
  by_cases hc : s.firstPulse ∨ e.updateFile ≠ 0 ∨ e.quit ≠ 0
  · rw [if_pos hc] at h
    cases hg : ({ s with firstPulse := false } : OwnState).sample T r E .current e with
    | error _ => rw [hg] at h; cases h
    | ok s₁ =>
      obtain ⟨agg, o, hnow, rfl⟩ := sample_ok hg
      simp only [hg] at h
      by_cases hq : e.quit ≠ 0
      · rw [if_pos hq] at h
        cases h
        exact ⟨o, agg, rfl, rfl, rfl, rfl, fun _ => hnow, fun hn => absurd hc hn, fun _ => ⟨rfl, rfl⟩,
          fun hz => absurd hz hq⟩
      · rw [if_neg hq] at h
        obtain ⟨agg', d, hnext, rfl⟩ := sample_ok h
        exact ⟨o, agg, rfl, rfl, rfl, rfl, fun _ => hnow, fun hn => absurd hc hn, fun hz => absurd hz hq,
          fun _ => hnext⟩
  · have hf : s.firstPulse = false := by
      cases hs : s.firstPulse with
      | false => rfl
      | true => exact absurd (Or.inl hs) hc
    have hq : ¬ e.quit ≠ 0 := fun hq => hc (Or.inr (Or.inr hq))
    simp only [if_neg hc, if_neg hq] at h
    obtain ⟨agg', d, hnext, rfl⟩ := sample_ok h
    exact ⟨s.data, s.aggregator, rfl, rfl, rfl, hf, fun hp => absurd hp hc, fun _ => ⟨rfl, rfl⟩,
      fun hz => absurd hz hq, fun _ => hnext⟩

theorem handleAll_snoc (es : List Metrics) (e : Metrics) :
    handleAll T r E (es ++ [e]) = (handleAll T r E es).bind fun s => computeOwnMetrics T r E s e :=
  Transition.foldlM_snoc _ _ es e

theorem computeOwnMetrics_ok {e : Metrics} {s s' : OwnState} (h : computeOwnMetrics T r E s e = .ok s') :
    s' = s.receive e.timestamp ∨ submitOwn T r E e (s.receive e.timestamp) = .ok s' := by
  unfold computeOwnMetrics at h
  simp only at h
  split at h
  · cases h
  · split at h
    · exact Or.inr h
    · cases h; exact Or.inl rfl

theorem computeOwnMetrics_submitted {e : Metrics} {s s' : OwnState} (h : computeOwnMetrics T r E s e = .ok s') :
    s.submitted <+: s'.submitted := by
  cases computeOwnMetrics_ok h with
  | inl h => rw [h, receive_submitted]
  | inr h =>
    obtain ⟨o, agg, hs⟩ := submitOwn_submits h
    rw [hs.submitted]
    exact List.prefix_append _ _

end

end Clarisse
