import Clarisse.Network

/-!
# The start times decide nothing

The script copies and compares start times but takes no other decision on them,
so it does the same, in either build, to events that differ in nothing else.
-/

namespace Clarisse

open Interleave

def Metrics.untimed (e : Metrics) : Metrics := { e with startTime := 0 }

def AggregatedEvent.untimed (acc : AggregatedEvent) : AggregatedEvent := { acc with header := acc.header.untimed }

def MultiState.untimed (s : MultiState) : MultiState :=
  { s with
    aggregatedEvent := s.aggregatedEvent.untimed
    queue := s.queue.map Metrics.untimed
    submitted := s.submitted.map Metrics.untimed }

section
variable (b b' : Bool) (s : MultiState)

theorem findFrom_untimed (p i : Nat) (q : List Metrics) :
    findFrom p i (q.map Metrics.untimed) = findFrom p i q := by
  unfold findFrom
  rw [← List.map_drop, List.findIdx?_map]
  rfl

theorem discard_untimed (q : List Metrics) (i : Int) :
    discard (q.map Metrics.untimed) i = (discard q i).map Metrics.untimed := by
  unfold discard
  split
  · rfl
  · rw [List.eraseIdx_map]

theorem getD_untimed (q : List Metrics) (i : Nat) :
    (q.map Metrics.untimed).getD i default = (q.getD i default).untimed := by
  rw [List.getD_eq_getElem?_getD, List.getElem?_map, List.getD_eq_getElem?_getD]
  cases q[i]? <;> rfl

theorem first_untimed (p : Nat) (a : Metrics) (acc : AggregatedEvent) :
    AggregatedEvent.first p a.untimed acc.untimed = (AggregatedEvent.first p a acc).untimed := rfl

theorem merge_untimed (acc : AggregatedEvent) (a : Metrics) :
    acc.untimed.merge b a.untimed = (acc.merge b' a).untimed := by
  simp [AggregatedEvent.merge, AggregatedEvent.untimed, Metrics.untimed, Metrics.column]

theorem openPulse_untimed : openPulse s.untimed = (openPulse s).untimed := by
  unfold openPulse
  simp only [MultiState.untimed, findFrom_untimed]
  cases findFrom s.pulseTimestamp 0 s.queue with
  | none =>
    simp only [discard_untimed, List.getLast?_map]
    cases s.queue.getLast? <;> rfl
  | some i =>
    simp only [getD_untimed, discard_untimed, first_untimed]
    rfl

theorem mergeNext_untimed : mergeNext b s.untimed = (mergeNext b' s).untimed := by
  unfold mergeNext
  simp only [MultiState.untimed, findFrom_untimed]
  cases findFrom s.pulseTimestamp s.firstFoundIndex.toNat s.queue with
  | none => rfl
  | some i =>
    simp only [getD_untimed, discard_untimed]
    rw [merge_untimed b b']

theorem takeEvent_untimed : takeEvent b s.untimed = (takeEvent b' s).untimed := by
  unfold takeEvent
  rw [openPulse_untimed, mergeNext_untimed b b']
  simp only [show s.untimed.firstFoundIndex = s.firstFoundIndex from rfl,
    show s.untimed.count = s.count from rfl, show s.untimed.currentNodeDegree = s.currentNodeDegree from rfl]
  split
  · rfl
  · split <;> rfl

theorem closePulse_untimed : closePulse s.untimed = (closePulse s).untimed := by
  simp [closePulse, MultiState.untimed]
  rfl

theorem pass_untimed : pass b s.untimed = ((pass b' s).1.untimed, (pass b' s).2) := by
  unfold pass
  simp only [takeEvent_untimed b b', closePulse_untimed]
  generalize takeEvent b' s = t
  simp only [show t.untimed.count = t.count from rfl,
    show t.untimed.currentNodeDegree = t.currentNodeDegree from rfl]
  split
  · refine Prod.ext rfl ?_
    show List.any (List.map _ _) _ = _
    rw [List.any_map]
    rfl
  · rfl

theorem passes_untimed (k : Nat) : passes b k s.untimed = (passes b' k s).map MultiState.untimed := by
  induction k generalizing s with
  | zero => rfl
  | succ k ih =>
    unfold passes
    simp only [pass_untimed b b', List.map_cons]
    cases (pass b' s).2 with
    | false => rfl
    | true => simp only [ite_true, ih]

theorem enqueue_untimed (e : Metrics) : enqueue b s.untimed e.untimed = (enqueue b' s e).untimed := by
  have hpush : s.untimed.push e.untimed = (s.push e).untimed := by
    simp [MultiState.push, MultiState.untimed]
  unfold enqueue multiFunc runPasses
  rw [hpush, passes_untimed b b',
    show (s.push e).untimed.queue.length = (s.push e).queue.length from List.length_map ..,
    List.getLastD_eq_getLast?, List.getLastD_eq_getLast?, List.getLast?_map]
  cases (passes b' ((s.push e).queue.length + 1) (s.push e)).getLast? <;> rfl

end

def LeafState.untimed (s : LeafState) : LeafState :=
  { s with data := s.data.untimed, submitted := s.submitted.map Metrics.untimed }

theorem untimed_getElem {l m : List Metrics} (h : l.map Metrics.untimed = m.map Metrics.untimed) {k : Nat}
    {e : Metrics} (he : l[k]? = some e) : ∃ e', m[k]? = some e' ∧ e.untimed = e'.untimed := by
  have hk : (m.map Metrics.untimed)[k]? = some e.untimed := by rw [← h, List.getElem?_map, he]; rfl
  rw [List.getElem?_map, Option.map_eq_some_iff] at hk
  obtain ⟨e', he', hu⟩ := hk
  exact ⟨e', he', hu.symm⟩

structure SameFields (e e' : Metrics) : Prop where
  metricsNr : e.metricsNr = e'.metricsNr
  updateFile : e.updateFile = e'.updateFile
  timestamp : e.timestamp = e'.timestamp
  quit : e.quit = e'.quit

theorem sameFields {e e' : Metrics} (h : e.untimed = e'.untimed) : SameFields e e' where
  metricsNr := show e.untimed.metricsNr = e'.untimed.metricsNr by rw [h]
  updateFile := show e.untimed.updateFile = e'.untimed.updateFile by rw [h]
  timestamp := show e.untimed.timestamp = e'.untimed.timestamp by rw [h]
  quit := show e.untimed.quit = e'.untimed.quit by rw [h]

/-- The fields that `start_communication` fills in. -/
def Metrics.filled (d : Metrics) (quit : Int) (t : Nat) (nr : Int) (values : List Aggregators) (updateFile : Int)
    (names : List (List Alias)) : Metrics :=
  { d with
    quit := quit
    timestamp := t
    metricsNr := nr
    gatherInfo := values
    updateFile := updateFile
    contributions := names }

theorem untimed_filled {d d' : Metrics} (h : d.untimed = d'.untimed) (quit : Int) (t : Nat) (nr : Int)
    (values : List Aggregators) (updateFile : Int) (names : List (List Alias)) :
    (d.filled quit t nr values updateFile names).untimed =
      (d'.filled quit t nr values updateFile names).untimed := by
  cases d
  cases d'
  simp only [Metrics.untimed, Metrics.filled, Metrics.mk.injEq] at h ⊢
  tauto

end Clarisse
