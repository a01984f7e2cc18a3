import Clarisse.Finishing
import Clarisse.Latency

/-!
# The times that the benchmarking build records

The logs of the benchmarking build with their start times. The start time of a
pulse comes up the tree as the earliest one of its leaves, and `final_result`
records the time from it to its own reading of the clock.
-/

namespace Clarisse.Benchmark

open Interleave

/-! ## The logs, with times -/

structure OwnTimed (s : Clarisse.OwnState) : Prop where
  submitted : ∀ e ∈ s.submitted, e.startTime = -1
  data : s.firstPulse = false → s.data.startTime = -1

section
variable {T : Topology} {r maxTimestamps : Nat} {E : Nat → When → Sampling} {e : Metrics}

theorem getMetricsValues_start {S : Sampling} {agg agg' : Aggregator} {d d' : Metrics} {k : Nat}
    (h : getMetricsValues T r S agg e k d = .ok (agg', d')) : d'.startTime = -1 := by
  unfold getMetricsValues at h
  simp only at h
  split at h
  · split at h
    · cases h
    · cases h
      rfl
  · split at h
    · cases h
    · cases h
      rfl

theorem ownTimed_sample {s s' : Clarisse.OwnState} {w : When} (h : ∀ x ∈ s.submitted, x.startTime = -1)
    (hs : s.sample T r E w e = .ok s') : OwnTimed s' ∧ s'.data.startTime = -1 := by
  obtain ⟨agg, d, hg, rfl⟩ := sample_ok hs
  have hd := getMetricsValues_start hg
  exact ⟨⟨h, fun _ => hd⟩, hd⟩

theorem OwnTimed.submit {s : Clarisse.OwnState} (h : OwnTimed s) (hd : s.data.startTime = -1) :
    OwnTimed (Benchmark.submit s) where
  submitted x hx := by
    rw [Benchmark.submit, List.mem_append, List.mem_singleton] at hx
    cases hx with
    | inl hx => exact h.submitted x hx
    | inr hx => rw [hx, hd]
  data _ := hd

theorem OwnTimed.submitOwn {s s' : Clarisse.OwnState} (h : OwnTimed s)
    (hs : Benchmark.submitOwn T r maxTimestamps E e s = .ok s') :
    OwnTimed s' ∧ s.submitted <+: s'.submitted := by
  unfold Benchmark.submitOwn at hs
  simp only at hs
  split at hs
  · cases hs
  · rename_i m hm
    have hm' : OwnTimed m ∧ m.data.startTime = -1 ∧ m.submitted = s.submitted := by
      split at hm
      · obtain ⟨hm', hd⟩ := ownTimed_sample (s := { s with firstPulse := false }) h.submitted hm
        obtain ⟨agg, d, -, rfl⟩ := sample_ok hm
        exact ⟨hm', hd, rfl⟩
      · rename_i hno
        cases hm
        exact ⟨h, h.data (by simpa using fun hf => hno (Or.inl hf)), rfl⟩
    obtain ⟨ht, hd, hsub⟩ := hm'
    have hsubmit := ht.submit hd
    have hle : s.submitted <+: (Benchmark.submit m).submitted := by
      rw [← hsub]
      exact List.prefix_append _ _
    split at hs
    · cases hs
      exact ⟨hsubmit, hle⟩
    · have hs' := (ownTimed_sample hsubmit.submitted hs).1
      obtain ⟨agg, d, -, rfl⟩ := sample_ok hs
      exact ⟨hs', hle⟩

theorem OwnTimed.step {s s' : OwnState} (h : OwnTimed s.toOwnState)
    (hs : Benchmark.computeOwnMetrics T r maxTimestamps E s e = .ok s') :
    OwnTimed s'.toOwnState ∧ s.submitted <+: s'.submitted := by
  unfold Benchmark.computeOwnMetrics at hs
  simp only at hs
  split at hs
  · split at hs
    · cases hs
    · rename_i own hown
      cases hs
      exact OwnTimed.submitOwn (s := s.toOwnState) h hown
  · cases hs
    exact ⟨h, List.prefix_refl _⟩

theorem leafPulse_start {t : Rat} {s s' : LeafState} (h : Benchmark.leafPulse maxTimestamps E t s = .ok s') :
    s'.counter = s.counter + 1 ∧ ∃ x, s'.submitted = s.submitted ++ [x] ∧ x.startTime = t := by
  unfold Benchmark.leafPulse at h
  simp only at h
  split at h
  · cases h
  · cases h
    exact ⟨rfl, _, rfl, rfl⟩

end

def readings (as : List Act) : List Rat :=
  as.filterMap fun a =>
    match a with
    | .leaf _ t => some t
    | .final t => some t
    | _ => none

/-- What is in the logs of a state that a run has led to. -/
structure Logs (T : Topology) (as : List Act) (σ : Net) : Prop where
  leaf : ∀ l, ∀ e ∈ (σ.leaf l).submitted, e.startTime ∈ readings as
  arrivedLe : ∀ r, ∀ c ∈ T.children r, stream (some c) (σ.node r).arrived <+: σ.out T c
  arrivedOwn : ∀ r, stream none (σ.node r).arrived <+: (σ.node r).own.submitted
  own : ∀ r, OwnTimed (σ.node r).own.toOwnState
  multi : ∀ r, (σ.node r).multi = feed true ((σ.node r).arrived.map Prod.snd)

section
variable {T : Topology} {maxTimestamps : Nat} {E : Nat → Nat → When → Sampling} {σ σ' : Net} {as : List Act} {a : Act}
  {r : Nat}

theorem logs_init : Logs T [] (netInit T maxTimestamps) where
  leaf _ e he := by cases he
  arrivedLe _ _ _ := List.nil_prefix
  arrivedOwn _ := List.nil_prefix
  own _ := ⟨(fun e he => by cases he), (fun h => by cases h)⟩
  multi _ := rfl

theorem netStep_out (hs : netStep T maxTimestamps E σ a = some σ') (q : Nat) : σ.out T q <+: σ'.out T q := by
  cases (netStep_steps hs).2 with
  | leafHalt r t d hp hr hl hq => exact List.prefix_refl _
  | ownHalt c r e d hc he ho => exact List.prefix_refl _
  | final t e he => exact List.prefix_refl _
  | leaf r t l hr hl hq hp =>
    obtain ⟨-, x, hsub, -⟩ := leafPulse_start hp
    exact out_setLeaf (by rw [hsub]; exact List.prefix_append _ _) q
  | terminal c r e own hc he ho => exact out_setNode (n := (σ.node r).handle c e own) (List.prefix_refl _) q
  | multi c r e hc he => exact out_setNode (enqueue_submitted true _ e) q
  | own r e hr hl he => exact out_setNode (enqueue_submitted true _ e) q

theorem readings_snoc : readings as <+: readings (as ++ [a]) := by
  unfold readings
  rw [List.filterMap_append]
  exact List.prefix_append _ _

theorem Logs.enqueue (h : Logs T as σ) {i : Option Nat} {e : Metrics}
    (hchild : ∀ c, i = some c → (σ.out T c)[(stream i (σ.node r).arrived).length]? = some e)
    (hown : i = none → (σ.node r).own.submitted[(stream i (σ.node r).arrived).length]? = some e) :
    Logs T (as ++ [a]) (σ.setNode r ((σ.node r).enqueue true i e)) := by
  have hout : ∀ q, σ.out T q <+: (σ.setNode r ((σ.node r).enqueue true i e)).out T q :=
    out_setNode (enqueue_submitted true _ e)
  constructor
  · exact fun l x hx => readings_snoc.subset (h.leaf l x hx)
  · intro q d hd
    refine List.IsPrefix.trans ?_ (hout d)
    revert d
    apply setNode_forall (P := fun q n => ∀ d ∈ T.children q, stream (some d) n.arrived <+: σ.out T d) h.arrivedLe
    intro d hd
    by_cases hid : i = some d
    · subst hid
      exact stream_deliver (h.arrivedLe r d hd) (hchild d rfl)
    · rw [NodeOf.enqueue, stream_snoc, if_neg hid, List.append_nil]
      exact h.arrivedLe r d hd
  · apply setNode_forall (P := fun _ (n : Node) => stream none n.arrived <+: n.own.submitted) h.arrivedOwn
    by_cases hid : i = none
    · subst hid
      exact stream_deliver (h.arrivedOwn r) (hown rfl)
    · rw [NodeOf.enqueue, stream_snoc, if_neg hid, List.append_nil]
      exact h.arrivedOwn r
  · exact setNode_forall (P := fun _ (n : Node) => OwnTimed n.own.toOwnState) h.own (h.own r)
  · apply setNode_forall (P := fun _ n => n.multi = feed true (n.arrived.map Prod.snd)) h.multi
    rw [NodeOf.enqueue, List.map_append, List.map_singleton, feed_snoc, h.multi r]

theorem Logs.step (h : Logs T as σ) (hs : netStep T maxTimestamps E σ a = some σ') : Logs T (as ++ [a]) σ' := by
  have hread : ∀ l, ∀ e ∈ (σ.leaf l).submitted, e.startTime ∈ readings (as ++ [a]) :=
    fun l e he => readings_snoc.subset (h.leaf l e he)
  cases (netStep_steps hs).2 with
  | leafHalt r t d hp hr hl hq => exact ⟨hread, h.arrivedLe, h.arrivedOwn, h.own, h.multi⟩
  | ownHalt c r e d hc he ho => exact ⟨hread, h.arrivedLe, h.arrivedOwn, h.own, h.multi⟩
  | final t e he => exact ⟨hread, h.arrivedLe, h.arrivedOwn, h.own, h.multi⟩
  | leaf r t l hr hl hq hp =>
    obtain ⟨-, x, hsub, ht⟩ := leafPulse_start hp
    refine ⟨?_, fun q d hd => (h.arrivedLe q d hd).trans (netStep_out hs d), h.arrivedOwn, h.own, h.multi⟩
    refine setLeaf_forall (P := fun _ m => ∀ e ∈ m.submitted, e.startTime ∈ readings (as ++ [.leaf r t])) hread ?_
    intro e he
    rw [hsub, List.mem_append, List.mem_singleton] at he
    rcases he with he | rfl
    · exact hread r e he
    · simp [readings, ht]
  | terminal c r e own hc he ho =>
    obtain ⟨howned, hle⟩ := (h.own r).step ho
    constructor
    · exact hread
    · intro q d hd
      refine List.IsPrefix.trans ?_ (netStep_out hs d)
      revert d
      apply setNode_forall (P := fun q n => ∀ d ∈ T.children q, stream (some d) n.arrived <+: σ.out T d) h.arrivedLe
      exact h.arrivedLe r
    · exact setNode_forall (P := fun _ (n : Node) => stream none n.arrived <+: n.own.submitted) h.arrivedOwn
        ((h.arrivedOwn r).trans hle)
    · exact setNode_forall (P := fun _ (n : Node) => OwnTimed n.own.toOwnState) h.own howned
    · exact setNode_forall (P := fun _ n => n.multi = feed true (n.arrived.map Prod.snd)) h.multi (h.multi r)
  | multi c r e hc he =>
    refine h.enqueue (fun d hd => ?_) (fun hn => by cases hn)
    cases hd
    exact he
  | own r e hr hl he => exact h.enqueue (fun d hd => by cases hd) fun _ => he

theorem logs_exec {as : List Act}
    (hs : Transition.exec (netStep T maxTimestamps E) (netInit T maxTimestamps) as = some σ) :
    Logs T as σ := by
  induction as using List.reverseRecOn generalizing σ with
  | nil =>
    cases hs
    exact logs_init
  | append_singleton as a ih =>
    obtain ⟨m, hm, ha⟩ := Transition.exec_snoc _ hs
    exact (ih hm).step ha

/-! ## The same arrivals without times -/

variable {w w' : List (Option Nat × Metrics)}

theorem mem_untimedLog {i : Option Nat} {e : Metrics} (h : untimedLog w = untimedLog w') (he : (i, e) ∈ w) :
    ∃ e', (i, e') ∈ w' ∧ e.untimed = e'.untimed := by
  have hmem : (i, e.untimed) ∈ untimedLog w' := by
    rw [← h]
    exact List.mem_map_of_mem (f := fun x : Option Nat × Metrics => (x.1, x.2.untimed)) he
  obtain ⟨⟨j, e'⟩, he', heq⟩ := List.mem_map.mp hmem
  simp only [Prod.mk.injEq] at heq
  obtain ⟨rfl, hu⟩ := heq
  exact ⟨e', he', hu.symm⟩

theorem map_stream_untimed (i : Option Nat) (w : List (Option Nat × Metrics)) :
    (stream i w).map Metrics.timestamp = (stream i (untimedLog w)).map Metrics.timestamp := by
  rw [stream, stream, untimedLog, List.filter_map, List.map_map, List.map_map, List.map_map]
  rfl

theorem arrivals_untimed (h : untimedLog w = untimedLog w') (ha : Arrivals T r w') : Arrivals T r w where
  inOrder := by
    refine ⟨fun x hx => ?_, fun i hi => ?_⟩
    · obtain ⟨e', he', -⟩ := mem_untimedLog (i := x.1) (e := x.2) h hx
      exact ha.inOrder.tag (x.1, e') he'
    · have := ha.inOrder.order i hi
      rw [InOrder, map_stream_untimed] at this ⊢
      rw [h, this, stream_length_untimed h]
  header x hx := by
    obtain ⟨e', he', hu⟩ := mem_untimedLog (i := x.1) (e := x.2) h hx
    obtain ⟨h1, h2, h3⟩ := ha.header _ he'
    refine ⟨?_, ?_, ?_⟩
    · exact (congrArg Metrics.parentRank hu).trans h1
    · exact (congrArg Metrics.maxDegree hu).trans h2
    · exact (congrArg Metrics.nprocs hu).trans h3

theorem ownLast_untimed (h : untimedLog w = untimedLog w') (ho : OwnLast T r w) : OwnLast T r w' := by
  intro u' e' v' hw' c hc
  have hmap : untimedLog w = untimedLog u' ++ (none, e'.untimed) :: untimedLog v' := by
    rw [h, hw', untimedLog, List.map_append]
    rfl
  obtain ⟨u, x, rfl, hu, hx⟩ := List.map_eq_append_iff.mp hmap
  obtain ⟨⟨i, e⟩, v, rfl, hie, -⟩ := List.map_eq_cons_iff.mp hx
  simp only [Prod.mk.injEq] at hie
  obtain ⟨rfl, heu⟩ := hie
  obtain ⟨y, hy, ht⟩ := ho u e v rfl c hc
  obtain ⟨y', hy', hyu⟩ := mem_untimedLog hu hy
  refine ⟨y', hy', ?_⟩
  rw [← (sameFields hyu).timestamp, ht, (sameFields heu).timestamp]

end

end Clarisse.Benchmark
