import Clarisse.Crawler

/-!
# Releasing the metric names

`destroy_metrics_aggregator` frees `old_nr_of_metrics` names, and the crawler frees
the old names, as many as `total_metrics`, before it reads a new count.
-/

namespace Clarisse

/-- `for (i = 0; i < bound; ++i)`, which frees `desired_metrics[i]` and sets it to null:
the indices it visits, and the entries it leaves. -/
def releaseLoop (bound : Int) (desired : List Alias) : List Nat × List Alias :=
  (List.range bound.toNat).foldl (fun x i => (x.1 ++ [i], x.2.set i none)) ([], desired)

def release (bound : Int) (desired : Option (List Alias)) : List Nat :=
  match desired with
  | none => []
  | some desired => (releaseLoop bound desired).1

/-- The indices that are freed, and the aggregator after that. -/
def destroyMetricsAggregator (agg : Aggregator) : List Nat × Aggregator :=
  (release agg.oldNrOfMetrics agg.desiredMetrics, { agg with desiredMetrics := none })

/-- The indices that `initialize_metrics_crawler_number_from_file` frees, after it has
set `old_nr_of_metrics` to `total_metrics`. -/
def releaseBeforeRead (agg : Aggregator) : List Nat := release agg.totalMetrics agg.desiredMetrics

/-! ## Histories of samplings -/

inductive Reading where
  | file (S : Sampling) (count : Nat)
  | memory (S : Sampling)

def Reading.Finds : Reading → Prop
  | .file S count => ∃ f, S.file = some f ∧ f.number = .value count
  | .memory _ => True

def Reading.count : Reading → Option Nat
  | .file _ count => some count
  | .memory _ => none

structure CrawlerState where
  aggregator : Aggregator
  nr : Int
  values : List Aggregators

def readingStep (x : CrawlerState) : Reading → Except Halt CrawlerState
  | .file S _ =>
    match sampleFile S x.aggregator x.nr with
    | .error e => .error e
    | .ok (agg, nr, values, _) => .ok ⟨agg, nr, values⟩
  | .memory S =>
    match sampleMemory S x.aggregator x.values with
    | .error e => .error e
    | .ok (nr, values) => .ok ⟨x.aggregator, nr, values⟩

def sampleHistory (nr : Int) (values : List Aggregators) (readings : List Reading) : Except Halt CrawlerState :=
  readings.foldlM readingStep ⟨initializeMetricsAggregator, nr, values⟩

def counts (readings : List Reading) : List Nat := readings.filterMap Reading.count

def lastCount (ns : List Nat) : Nat := ns.getLast?.getD 0

def previousCount (ns : List Nat) : Nat := lastCount ns.dropLast

structure Sized (agg : Aggregator) (ns : List Nat) : Prop where
  total : agg.totalMetrics = lastCount ns
  old : agg.oldNrOfMetrics = previousCount ns
  desired : ns ≠ [] → ∃ desired, agg.desiredMetrics = some desired ∧ desired.length = lastCount ns
  unread : ns = [] → agg.desiredMetrics = none

section
variable {agg : Aggregator} {ns : List Nat} {nr : Int} {values : List Aggregators} {x : CrawlerState}

theorem releaseLoop_visited (bound : Int) (desired : List Alias) :
    (releaseLoop bound desired).1 = List.range bound.toNat := by
  have key : ∀ (l visited : List Nat) (d : List Alias),
      (l.foldl (fun x i => (x.1 ++ [i], x.2.set i none)) (visited, d)).1 = visited ++ l := by
    intro l
    induction l with
    | nil => simp
    | cons i l ih =>
      intro visited d
      rw [List.foldl_cons, ih, List.append_assoc]
      rfl
  rw [releaseLoop, key, List.nil_append]

theorem sized_init : Sized initializeMetricsAggregator [] where
  total := rfl
  old := rfl
  desired h := absurd rfl h
  unread _ := rfl

theorem readingStep_memory {S : Sampling} {y : CrawlerState} (hs : readingStep x (.memory S) = .ok y) :
    y.aggregator = x.aggregator := by
  unfold readingStep at hs
  cases hm : sampleMemory S x.aggregator x.values with
  | error _ => simp only [hm] at hs; cases hs
  | ok z =>
    simp only [hm] at hs
    cases hs
    rfl

theorem readingStep_file {S : Sampling} {count : Nat} {y : CrawlerState} (hf : (Reading.file S count).Finds)
    (hs : readingStep x (.file S count) = .ok y) :
    y.aggregator.totalMetrics = count ∧ y.aggregator.oldNrOfMetrics = x.aggregator.totalMetrics ∧
      ∃ desired, y.aggregator.desiredMetrics = some desired ∧ desired.length = count := by
  obtain ⟨f, hfile, hnumber⟩ := hf
  unfold readingStep at hs
  cases hm : sampleFile S x.aggregator x.nr with
  | error _ => simp only [hm] at hs; cases hs
  | ok z =>
    obtain ⟨agg', nr', values', b⟩ := z
    simp only [hm] at hs
    cases hs
    obtain ⟨desired, rfl, -, hlen⟩ := sampleFile_ok hm
    have hnr : nr' = count := sampleFile_count hm hfile hnumber
    have hc : callocNames nr' = some (List.replicate count none) := by
      rw [hnr]
      simp [callocNames]
    rw [Aggregator.resize, hc] at hlen
    refine ⟨hnr, rfl, desired, ?_, ?_⟩
    · simp [Aggregator.resize, hc]
    · rw [hlen]
      simp

theorem Sized.step {y : CrawlerState} {reading : Reading} (h : Sized x.aggregator ns) (hf : reading.Finds)
    (hs : readingStep x reading = .ok y) : Sized y.aggregator (ns ++ reading.count.toList) := by
  cases reading with
  | memory S =>
    rw [readingStep_memory hs]
    simpa [Reading.count] using h
  | file S count =>
    change Sized y.aggregator (ns ++ [count])
    obtain ⟨htotal, hold, desired, hd, hlen⟩ := readingStep_file hf hs
    have hlast : lastCount (ns ++ [count]) = count := by simp [lastCount]
    have hprev : previousCount (ns ++ [count]) = lastCount ns := by simp [previousCount]
    refine ⟨?_, ?_, fun _ => ⟨desired, hd, ?_⟩, fun hn => ?_⟩
    · rw [htotal, hlast]
    · rw [hold, h.total, hprev]
    · rw [hlen, hlast]
    · simp at hn

theorem sized_history {readings : List Reading} (hf : ∀ reading ∈ readings, reading.Finds)
    (h : sampleHistory nr values readings = .ok x) : Sized x.aggregator (counts readings) := by
  induction readings using List.reverseRecOn generalizing x with
  | nil =>
    cases h
    exact sized_init
  | append_singleton readings reading ih =>
    rw [sampleHistory, Transition.foldlM_snoc] at h
    cases hm : readings.foldlM readingStep ⟨initializeMetricsAggregator, nr, values⟩ with
    | error _ => rw [hm] at h; cases h
    | ok y =>
      rw [hm] at h
      have hy := ih (fun r hr => hf r (List.mem_append_left _ hr)) hm
      have hc : counts (readings ++ [reading]) = counts readings ++ reading.count.toList := by
        cases reading <;> simp [counts, Reading.count]
      rw [hc]
      exact hy.step (hf reading (by simp)) h

theorem Sized.destroy_visits (h : Sized agg ns) (hns : ns ≠ []) :
    (destroyMetricsAggregator agg).1 = List.range (previousCount ns) := by
  obtain ⟨desired, hd, -⟩ := h.desired hns
  unfold destroyMetricsAggregator release
  rw [hd]
  simp only [releaseLoop_visited, h.old, Int.toNat_natCast]

/-- The crawler frees all the names it has, whatever was read before. -/
theorem releaseBeforeRead_all {readings : List Reading} (hf : ∀ reading ∈ readings, reading.Finds)
    (h : sampleHistory nr values readings = .ok x) :
    releaseBeforeRead x.aggregator = List.range (x.aggregator.desiredMetrics.getD []).length := by
  have hs := sized_history hf h
  unfold releaseBeforeRead release
  by_cases hk : counts readings = []
  · rw [hs.unread hk]
    rfl
  · obtain ⟨desired, hd, hl⟩ := hs.desired hk
    rw [hd]
    simp only [releaseLoop_visited, hs.total, Option.getD_some, hl, Int.toNat_natCast]

end

/-- `destroy_metrics_aggregator` frees the names that exist exactly when the last two
counts are the same, where the count before the first is 0. -/
theorem destroyMetricsAggregator_releases_iff (nr : Int) (values : List Aggregators) (readings : List Reading)
    (x : CrawlerState) (hf : ∀ reading ∈ readings, reading.Finds) (hk : counts readings ≠ [])
    (h : sampleHistory nr values readings = .ok x) :
    ((x.aggregator.desiredMetrics.getD []).length = lastCount (counts readings) ∧
        (destroyMetricsAggregator x.aggregator).1 = List.range (lastCount (counts readings))) ↔
      lastCount (counts readings) = previousCount (counts readings) := by
  have hs := sized_history hf h
  obtain ⟨desired, hd, hl⟩ := hs.desired hk
  rw [hs.destroy_visits hk, hd, Option.getD_some]
  constructor
  · rintro ⟨-, hr⟩
    have := congrArg List.length hr
    simpa using this.symm
  · intro he
    exact ⟨hl, by rw [he]⟩

def oneName : Reading := .file (Sampling.constant ["a"] 1) 1

theorem finds_oneName : oneName.Finds := ⟨_, rfl, rfl⟩

theorem destroyMetricsAggregator_releases_iff_stable :
    ∃ x, sampleHistory 0 [] [oneName, .memory (Sampling.constant ["a"] 1), oneName] = .ok x ∧
      (((x.aggregator.desiredMetrics.getD []).length = 1 ∧ (destroyMetricsAggregator x.aggregator).1 = List.range 1) ↔
        1 = 1) :=
  ⟨_, rfl, destroyMetricsAggregator_releases_iff 0 [] [oneName, .memory (Sampling.constant ["a"] 1), oneName] _
    (by
      intro reading hr
      simp only [List.mem_cons, List.not_mem_nil, or_false] at hr
      rcases hr with rfl | rfl | rfl
      · exact finds_oneName
      · trivial
      · exact finds_oneName) (by decide) rfl⟩

theorem destroyMetricsAggregator_leaks : ¬ ∀ (nr : Int) (values : List Aggregators) (readings : List Reading)
    (x : CrawlerState), (∀ reading ∈ readings, reading.Finds) → counts readings ≠ [] →
      sampleHistory nr values readings = .ok x →
      (x.aggregator.desiredMetrics.getD []).length = lastCount (counts readings) ∧
        (destroyMetricsAggregator x.aggregator).1 = List.range (lastCount (counts readings)) := by
  intro h
  have := h 0 [] [oneName] _ (fun reading hr => by rw [List.mem_singleton.mp hr]; exact finds_oneName) (by decide) rfl
  exact absurd this.2 (by decide)

end Clarisse
