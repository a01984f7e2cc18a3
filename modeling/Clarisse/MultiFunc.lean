import Clarisse.Interleave
import Clarisse.Sampling
import Clarisse.Topology
import Mathlib.Algebra.Order.Ring.Unbundled.Rat

/-!
# The CoD script of the multi stone

`multi_func` of cod.h, in both builds: its static variables, the queue of the
stone and what it has submitted on port 0. The script runs once for each event
that is enqueued; one pass goes from the label `start` to the end of the script
or to its `goto start`.
-/

namespace Clarisse

open Interleave

/-- `aggregated_event`, with a `gather_info` that grows on write. -/
structure AggregatedEvent where
  header : Metrics
  gatherInfo : Nat → Aggregators

instance : Inhabited AggregatedEvent := ⟨⟨default, fun _ => default⟩⟩

def Aggregators.merge (g a : Aggregators) : Aggregators where
  min := if g.min > a.min then a.min else g.min
  max := if g.max < a.max then a.max else g.max
  sum := g.sum + a.sum

def Metrics.column (a : Metrics) (j : Nat) : Aggregators := a.gatherInfo.getD j default

def Metrics.degree (a : Metrics) : Nat := degreeLoop a.parentRank a.maxDegree a.nprocs

def AggregatedEvent.first (pulse : Nat) (a : Metrics) (acc : AggregatedEvent) : AggregatedEvent where
  header :=
    { metricsNr := a.metricsNr
      gatherInfo := []
      maxDegree := a.maxDegree
      updateFile := a.updateFile
      timestamp := pulse
      parentRank := (a.parentRank - 1).tdiv a.maxDegree
      nprocs := a.nprocs
      startTime := a.startTime
      quit := a.quit
      contributions := a.contributions }
  gatherInfo j := if (j : Int) < a.metricsNr then a.column j else acc.gatherInfo j

/-- A later event of the pulse is merged column by column; the benchmarking
build updates `start_time` inside that loop, so only when there is a column. -/
def AggregatedEvent.merge (benchmarking : Bool) (acc : AggregatedEvent) (a : Metrics) : AggregatedEvent where
  header :=
    { acc.header with
      startTime :=
        if benchmarking ∧ 0 < a.metricsNr ∧ a.startTime ≠ -1 ∧ a.startTime < acc.header.startTime then a.startTime
        else acc.header.startTime
      contributions := acc.header.contributions ++ a.contributions }
  gatherInfo j := if (j : Int) < a.metricsNr then (acc.gatherInfo j).merge (a.column j) else acc.gatherInfo j

def AggregatedEvent.event (acc : AggregatedEvent) : Metrics :=
  { acc.header with gatherInfo := (List.range acc.header.metricsNr.toNat).map acc.gatherInfo }

/-- The static variables of the script, the queue of its stone, and the events
submitted on port 0. -/
structure MultiState where
  maxDegree : Int := -1
  firstFoundIndex : Int := -1
  aggregatedEvent : AggregatedEvent := default
  currentNodeDegree : Nat := 0
  pulseTimestamp : Nat := 0
  count : Nat := 0
  queue : List Metrics := []
  submitted : List Metrics := []

/-- The loop over the queue from index `i` on, up to the first event of `pulse`. -/
def findFrom (pulse i : Nat) (queue : List Metrics) : Option Nat :=
  ((queue.drop i).findIdx? fun a => a.timestamp = pulse).map (· + i)

/-- `EVdiscard_metrics_t(i)`; there is no event at a negative index. -/
def discard (queue : List Metrics) (i : Int) : List Metrics :=
  if i < 0 then queue else queue.eraseIdx i.toNat

/-- The branch for `first_found_index == -1`. When the loop finds nothing, `a` is
left at the last event of the queue. -/
def openPulse (s : MultiState) : MultiState :=
  match findFrom s.pulseTimestamp 0 s.queue with
  | some i =>
    let a := s.queue.getD i default
    { s with
      aggregatedEvent := s.aggregatedEvent.first s.pulseTimestamp a
      maxDegree := a.maxDegree
      firstFoundIndex := i
      currentNodeDegree := degreeLoop a.parentRank a.maxDegree a.nprocs
      count := 1
      queue := discard s.queue i }
  | none =>
    let a := s.queue.getLast?.getD default
    { s with
      currentNodeDegree := degreeLoop a.parentRank s.maxDegree a.nprocs
      count := 1
      queue := discard s.queue s.firstFoundIndex }

/-- The branch for `count < current_node_degree + 1`. -/
def mergeNext (benchmarking : Bool) (s : MultiState) : MultiState :=
  match findFrom s.pulseTimestamp s.firstFoundIndex.toNat s.queue with
  | some i =>
    { s with
      aggregatedEvent := s.aggregatedEvent.merge benchmarking (s.queue.getD i default)
      count := s.count + 1
      firstFoundIndex := i
      queue := discard s.queue i }
  | none => s

def closePulse (s : MultiState) : MultiState :=
  { s with
    submitted := s.submitted ++ [s.aggregatedEvent.event]
    pulseTimestamp := s.pulseTimestamp + 1
    firstFoundIndex := -1
    count := 0 }

def takeEvent (benchmarking : Bool) (s : MultiState) : MultiState :=
  if s.firstFoundIndex = -1 then openPulse s
  else if s.count < s.currentNodeDegree + 1 then mergeNext benchmarking s
  else s

/-- One pass, and whether it ends in `goto start`. -/
def pass (benchmarking : Bool) (s : MultiState) : MultiState × Bool :=
  let s := takeEvent benchmarking s
  if s.count = s.currentNodeDegree + 1 then
    let s := closePulse s
    (s, s.queue.any fun a => a.timestamp = s.pulseTimestamp)
  else (s, false)

/-- The states after each pass of one run, for at most `k` passes. -/
def passes (benchmarking : Bool) : Nat → MultiState → List MultiState
  | 0, _ => []
  | k + 1, s =>
    let r := pass benchmarking s
    r.1 :: if r.2 then passes benchmarking k r.1 else []

/-- Every `goto start` finds an event to discard, so there are at most as many as
events in the queue (`passes_iff_runPasses`). -/
def runPasses (benchmarking : Bool) (s : MultiState) : List MultiState :=
  passes benchmarking (s.queue.length + 1) s

def multiFunc (benchmarking : Bool) (s : MultiState) : MultiState :=
  (runPasses benchmarking s).getLastD s

def MultiState.push (s : MultiState) (e : Metrics) : MultiState := { s with queue := s.queue ++ [e] }

def enqueue (benchmarking : Bool) (s : MultiState) (e : Metrics) : MultiState :=
  multiFunc benchmarking (s.push e)

def feed (benchmarking : Bool) (es : List Metrics) : MultiState :=
  es.foldl (enqueue benchmarking) {}

section
variable (s : MultiState) (e : Metrics)

@[simp] theorem push_queue : (s.push e).queue = s.queue ++ [e] := rfl
@[simp] theorem push_pulse : (s.push e).pulseTimestamp = s.pulseTimestamp := rfl
@[simp] theorem push_count : (s.push e).count = s.count := rfl
@[simp] theorem push_index : (s.push e).firstFoundIndex = s.firstFoundIndex := rfl
@[simp] theorem push_degree : (s.push e).currentNodeDegree = s.currentNodeDegree := rfl
@[simp] theorem push_submitted : (s.push e).submitted = s.submitted := rfl
@[simp] theorem push_aggregated : (s.push e).aggregatedEvent = s.aggregatedEvent := rfl

@[simp] theorem closePulse_pulse : (closePulse s).pulseTimestamp = s.pulseTimestamp + 1 := rfl
@[simp] theorem closePulse_count : (closePulse s).count = 0 := rfl
@[simp] theorem closePulse_index : (closePulse s).firstFoundIndex = -1 := rfl
@[simp] theorem closePulse_queue : (closePulse s).queue = s.queue := rfl
@[simp] theorem closePulse_degree : (closePulse s).currentNodeDegree = s.currentNodeDegree := rfl
@[simp] theorem closePulse_submitted :
    (closePulse s).submitted = s.submitted ++ [s.aggregatedEvent.event] := rfl

end

/-! ## Nothing submitted is taken back -/

theorem takeEvent_submitted (b : Bool) (s : MultiState) : (takeEvent b s).submitted = s.submitted := by
  unfold takeEvent
  split
  · unfold openPulse
    cases findFrom s.pulseTimestamp 0 s.queue <;> rfl
  · split
    · unfold mergeNext
      cases findFrom s.pulseTimestamp s.firstFoundIndex.toNat s.queue <;> rfl
    · rfl

theorem pass_submitted (b : Bool) (s : MultiState) : s.submitted <+: (pass b s).1.submitted := by
  unfold pass
  simp only
  split
  · rw [closePulse_submitted, takeEvent_submitted]
    exact List.prefix_append _ _
  · rw [takeEvent_submitted]

theorem passes_submitted (b : Bool) : ∀ (k : Nat) (s : MultiState),
    ∀ x ∈ passes b k s, s.submitted <+: x.submitted
  | 0, _, x, hx => by cases hx
  | k + 1, s, x, hx => by
    rw [passes, List.mem_cons] at hx
    have hp := pass_submitted b s
    cases hx with
    | inl hx => rw [hx]; exact hp
    | inr hx =>
      split at hx
      · exact hp.trans (passes_submitted b k _ x hx)
      · cases hx

theorem enqueue_submitted (b : Bool) (s : MultiState) (e : Metrics) :
    s.submitted <+: (enqueue b s e).submitted := by
  rw [enqueue, multiFunc, List.getLastD_eq_getLast?]
  cases hl : (runPasses b (s.push e)).getLast? with
  | none => exact List.prefix_refl _
  | some x => exact passes_submitted b _ (s.push e) x (List.mem_of_mem_getLast? hl)

/-! ## Merging the events of one pulse -/

def accumulate (benchmarking : Bool) (pulse : Nat) : List Metrics → AggregatedEvent → AggregatedEvent
  | [], acc => acc
  | a :: rest, acc => rest.foldl (AggregatedEvent.merge benchmarking) (acc.first pulse a)

def aggregate (benchmarking : Bool) (pulse : Nat) (l : List Metrics) : Metrics :=
  (accumulate benchmarking pulse l default).event

section
variable (b : Bool) (pulse : Nat)

theorem accumulate_snoc {l : List Metrics} (hl : l ≠ []) (a : Metrics) (acc : AggregatedEvent) :
    accumulate b pulse (l ++ [a]) acc = (accumulate b pulse l acc).merge b a := by
  cases l with
  | nil => exact absurd rfl hl
  | cons x l => simp [accumulate, List.foldl_append]

/-- The header of the aggregated event and the columns it submits do not depend
on what `aggregated_event` held before. -/
theorem accumulate_event {l : List Metrics} (hl : l ≠ []) (acc acc' : AggregatedEvent) :
    (accumulate b pulse l acc).event = (accumulate b pulse l acc').event := by
  have key : ∀ (rest : List Metrics) (x y : AggregatedEvent), x.header = y.header →
      (∀ j : Nat, (j : Int) < x.header.metricsNr → x.gatherInfo j = y.gatherInfo j) →
      (rest.foldl (AggregatedEvent.merge b) x).event = (rest.foldl (AggregatedEvent.merge b) y).event := by
    intro rest
    induction rest with
    | nil =>
      intro x y hh hg
      simp only [List.foldl_nil, AggregatedEvent.event, ← hh]
      congr 1
      apply List.map_congr_left
      intro j hj
      exact hg j (by rw [List.mem_range] at hj; omega)
    | cons a rest ih =>
      intro x y hh hg
      apply ih
      · simp only [AggregatedEvent.merge, hh]
      · intro j hj
        simp only [AggregatedEvent.merge, hg j hj]
  cases l with
  | nil => exact absurd rfl hl
  | cons a rest =>
    refine key rest _ _ rfl fun j hj => ?_
    simp only [AggregatedEvent.first] at hj ⊢
    rw [if_pos hj, if_pos hj]

theorem accumulate_header (a : Metrics) (rest : List Metrics) (acc : AggregatedEvent) :
    (accumulate b pulse (a :: rest) acc).header =
      { (acc.first pulse a).header with
        startTime := (accumulate b pulse (a :: rest) acc).header.startTime
        contributions := a.contributions ++ rest.flatMap Metrics.contributions } := by
  have key : ∀ (l : List Metrics) (x : AggregatedEvent),
      (l.foldl (AggregatedEvent.merge b) x).header =
        { x.header with
          startTime := (l.foldl (AggregatedEvent.merge b) x).header.startTime
          contributions := x.header.contributions ++ l.flatMap Metrics.contributions } := by
    intro l
    induction l with
    | nil => intro x; simp
    | cons y l ih =>
      intro x
      rw [List.foldl_cons, ih]
      simp [AggregatedEvent.merge]
  exact key rest _

theorem accumulate_column (a : Metrics) (rest : List Metrics) (acc : AggregatedEvent) (j : Nat)
    (hj : ∀ x ∈ a :: rest, (j : Int) < x.metricsNr) :
    (accumulate b pulse (a :: rest) acc).gatherInfo j =
      rest.foldl (fun g x => g.merge (x.column j)) (a.column j) := by
  have key : ∀ (l : List Metrics) (x : AggregatedEvent), (∀ y ∈ l, (j : Int) < y.metricsNr) →
      (l.foldl (AggregatedEvent.merge b) x).gatherInfo j =
        l.foldl (fun g y => g.merge (y.column j)) (x.gatherInfo j) := by
    intro l
    induction l with
    | nil => intro x _; rfl
    | cons y l ih =>
      intro x hl
      rw [List.foldl_cons, List.foldl_cons, ih _ fun z hz => hl z (List.mem_cons_of_mem _ hz)]
      simp [AggregatedEvent.merge, hl y (List.mem_cons_self ..)]
  rw [accumulate, key rest _ fun y hy => hj y (List.mem_cons_of_mem _ hy)]
  simp [AggregatedEvent.first, hj a (List.mem_cons_self ..)]

end

end Clarisse
