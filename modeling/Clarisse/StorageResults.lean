import Clarisse.Aggregation
import Clarisse.Storage
import Mathlib.Algebra.Order.Ring.Rat
import Mathlib.Tactic.Ring

/-!
# The results for the metrics the system knows

When the metrics file lists custom metrics only, each rank measures its own rank,
its uptime and one. Every event on the way up digests what the ranks below it put
into their own events, so the root is told the least and the greatest rank.
-/

namespace Clarisse

open UtHash Interleave

/-- The events that a rank makes from its own samplings. -/
def Net.made (T : Topology) (σ : Net) (r : Nat) : List Metrics :=
  if T.isLeaf r then σ.out T r else (σ.node r).own.submitted

/-- What the event of pulse `k` that rank `r` has made says of metric `j`. -/
def Net.reading (T : Topology) (σ : Net) (r k j : Nat) : Int :=
  ((((σ.made T r)[k]?).getD default).column j).min

/-- `n` columns, with one measured value in each. -/
def Single (n : Nat) (names : List String) (values : List Aggregators) : Prop :=
  names.length = n ∧ ∃ v : Nat → Int, values = (List.range n).map fun j => single (v j)

section
variable {T : Topology} {E : Nat → Nat → When → Sampling} {n : Nat} {σ σ' : Net} {clear : Nat → Prop}
variable {now : Nat → Nat → List String → List Aggregators → Prop}

theorem Healthy.made (h : Healthy T E clear now σ) (h2 : 2 ≤ T.nprocs)
    (hE : ∀ r, Samples (E r) clear (now r) (now r)) {r k : Nat} {e : Metrics} (he : (σ.made T r)[k]? = some e) :
    e.timestamp = k ∧ Sampled (now r k) e := by
  unfold Net.made at he
  cases hleaf : T.isLeaf r with
  | true =>
    rw [hleaf, if_pos rfl, NetOf.out, hleaf, if_pos rfl] at he
    exact ⟨inOrder_get _ (h.leaf r).stamped he, ((h.leafContent r).submitted _ e he).1⟩
  | false =>
    rw [hleaf, if_neg (by decide)] at he
    exact ⟨inOrder_get _ (h.inner h2 hleaf).own.stamped he, ((h.ownContent h2 hE hleaf).submitted _ e he).1⟩

theorem Healthy.made_digests (h : Healthy T E clear now σ) (h2 : 2 ≤ T.nprocs)
    (hE : ∀ r, Samples (E r) clear (now r) (now r))
    (hv : ∀ r k names values, now r k names values → Single n names values)
    {r k : Nat} {e : Metrics} (he : (σ.made T r)[k]? = some e) : Digests n (σ.reading T) {r} e := by
  obtain ⟨ht, names, hne, hnr, -, hp⟩ := h.made h2 hE he
  obtain ⟨hlen, v, hvals⟩ := hv _ _ _ _ hp
  have hcol : ∀ j < n, e.column j = single (v j) := by
    intro j hj
    rw [Metrics.column, hvals, List.getD_eq_getElem?_getD, List.getElem?_map, List.getElem?_range hj]
    rfl
  refine ⟨by rw [hnr, hlen], fun j hj => ?_⟩
  have hread : σ.reading T r e.timestamp j = v j := by
    rw [Net.reading, ht, he, Option.getD_some, hcol j hj]
    rfl
  have hd : Digest.Of (fun r => σ.reading T r e.timestamp j) {r} (single (σ.reading T r e.timestamp j)).digest :=
    Digest.Of.single r
  rwa [hread, ← hcol j hj] at hd

theorem Healthy.out_digests (h : Healthy T E clear now σ) (h2 : 2 ≤ T.nprocs)
    (hE : ∀ r, Samples (E r) clear (now r) (now r))
    (hv : ∀ r k names values, now r k names values → Single n names values) :
    ∀ r < T.nprocs, ∀ e ∈ σ.out T r, Digests n (σ.reading T) (T.subtree r) e := by
  refine T.child_induction fun r hr ih e he => ?_
  have hk := getElem?_of_mem (h.sent h2 r hr).inOrder he
  cases hleaf : T.isLeaf r with
  | true =>
    rw [T.subtree_leaf h2 hr hleaf]
    exact h.made_digests h2 hE hv (k := e.timestamp) (by rw [Net.made, hleaf, if_pos rfl, hk])
  | false =>
    rw [NetOf.out, hleaf, if_neg (by decide)] at hk
    have hn := h.inner h2 hleaf
    obtain ⟨he, hlen⟩ := hn.settled.submitted_at hk
    rw [eventsAt_length, ← card_sources] at hlen
    rw [he]
    refine digests_aggregate hn.arrived hr hlen fun x hx => ?_
    obtain ⟨i, a⟩ := x
    have hi := (hn.arrived.mem_level hx).1
    have hw := (List.mem_filter.mp hx).1
    cases i with
    | some c => exact ih c (mem_sources.mp hi) a ((h.arrivedLe r c (mem_sources.mp hi)).subset (mem_stream.mpr hw))
    | none =>
      have hmem := (h.arrivedOwn r).subset (mem_stream.mpr hw)
      refine h.made_digests h2 hE hv (k := a.timestamp) ?_
      rw [Net.made, hleaf, if_neg (by decide)]
      exact getElem?_of_mem hn.own.stamped hmem

theorem History.out_made (h : History T E σ) (h2 : 2 ≤ T.nprocs) :
    ∀ r < T.nprocs, ∀ e ∈ σ.out T r, ∀ x ∈ T.subtree r, ∃ o, (σ.made T x)[e.timestamp]? = some o := by
  refine T.child_induction fun r hr ih e he x hx => ?_
  have hk := getElem?_of_mem (h.sent h2 r hr).inOrder he
  cases hleaf : T.isLeaf r with
  | true =>
    rw [T.subtree_leaf h2 hr hleaf, Finset.mem_singleton] at hx
    rw [hx, Net.made, hleaf, if_pos rfl]
    exact ⟨e, hk⟩
  | false =>
    have hk' := hk
    rw [NetOf.out, hleaf, if_neg (by decide)] at hk'
    have hn := h.inner h2 hleaf
    obtain ⟨-, hlen⟩ := hn.settled.submitted_at hk'
    rw [eventsAt_length, ← card_sources] at hlen
    have hperm := hn.arrived.full_perm hlen
    -- every source of the node has an event of this pulse
    have hsource : ∀ i ∈ sources T r, ∃ a, (i, a) ∈ level Metrics.timestamp e.timestamp (σ.node r).arrived := by
      intro i hi
      obtain ⟨y, hy, rfl⟩ := List.mem_map.mp (hperm.mem_iff.mpr (Finset.mem_toList.mpr hi))
      exact ⟨y.2, hy⟩
    have hmem : ∀ {i a}, (i, a) ∈ level Metrics.timestamp e.timestamp (σ.node r).arrived →
        a ∈ stream i (σ.node r).arrived ∧ a.timestamp = e.timestamp := by
      intro i a ha
      obtain ⟨hw, ht⟩ := List.mem_filter.mp ha
      exact ⟨mem_stream.mpr hw, by simpa using ht⟩
    rw [Topology.subtree_eq hr, Finset.mem_insert, Finset.mem_biUnion] at hx
    rcases hx with rfl | ⟨c, hc, hx⟩
    · obtain ⟨a, ha⟩ := hsource none Finset.none_mem_insertNone
      obtain ⟨hw, ht⟩ := hmem ha
      refine ⟨a, ?_⟩
      rw [Net.made, hleaf, if_neg (by decide), ← ht]
      exact getElem?_of_mem hn.own.stamped ((h.arrivedOwn x).subset hw)
    · obtain ⟨a, ha⟩ := hsource (some c) (mem_sources.mpr hc)
      obtain ⟨hw, ht⟩ := hmem ha
      rw [← ht]
      exact ih c hc a ((h.arrivedLe r c hc).subset hw) x hx

/-- What `final_result` stores in its call for pulse `k` is the minimum, the maximum and the
average of the readings in the events that all ranks have made for it. -/
theorem finalResult_readings (h2 : 2 ≤ T.nprocs) (hE : ∀ r, Samples (E r) clear (now r) (now r))
    (hv : ∀ r k names values, now r k names values → Single n names values) {as : List Act}
    (hs : Transition.exec (netStep T E) (netInit T) (as ++ [.final]) = some σ) :
    ∃ m, Transition.exec (netStep T E) (netInit T) as = some m ∧ σ.root.monitoringResults.length = n ∧
      (∀ r < T.nprocs, ∃ o, (m.made T r)[as.count .final]? = some o ∧ Sampled (now r (as.count .final)) o) ∧
      ∀ j < n, ∃ metric, σ.root.monitoringResults[j]? = some metric ∧
        IsLeast ((fun r => m.reading T r (as.count .final) j) '' Finset.range T.nprocs) metric.min ∧
        IsGreatest ((fun r => m.reading T r (as.count .final) j) '' Finset.range T.nprocs) metric.max ∧
        metric.avg = (∑ r ∈ Finset.range T.nprocs, (m.reading T r (as.count .final) j : Rat)) / T.nprocs := by
  obtain ⟨m, hm, hstep⟩ := Transition.exec_snoc _ hs
  have h := Reachable.healthy ⟨as, hm⟩ h2 hE
  have hdig := h.out_digests h2 hE hv 0 (by omega)
  have hpulse := pulse_eq_count hm
  refine ⟨m, hm, ?_⟩
  cases (netStep_steps hstep).2 with
  | final _ e he =>
    have hmem := List.mem_of_getElem? he
    have ht : e.timestamp = as.count .final :=
      (inOrder_get _ (h.sent h2 0 (by omega)).inOrder he).trans hpulse
    have hlen : m.root.pulse ≠ 0 → m.root.monitoringResults.length = n := by
      intro h0
      have hnr : ∀ x ∈ (m.out T 0).take m.root.pulse, x.metricsNr = n := fun x hx =>
        (hdig x (List.mem_of_mem_take hx)).metricsNr
      have hfold := foldl_results T.nprocs hnr
      rw [← h.root, List.length_take, Nat.min_eq_left h.rootLe] at hfold
      exact hfold h0
    have hres := finalResult_results T.nprocs hlen (hdig e hmem).metricsNr
    refine ⟨by rw [hres, List.length_map, List.length_range], fun r hr => ?_, fun j hj => ?_⟩
    · have hr0 : r ∈ T.subtree 0 := Topology.mem_subtree.mpr ⟨hr, Topology.below_zero r⟩
      obtain ⟨o, ho⟩ := h.toHistory.out_made h2 0 (by omega) e hmem r hr0
      rw [ht] at ho
      exact ⟨o, ho, (h.made h2 hE ho).2⟩
    · refine ⟨(e.column j).result T.nprocs, by rw [hres, List.getElem?_map, List.getElem?_range hj]; rfl, ?_⟩
      have hd := (hdig e hmem).column j hj
      rw [T.subtree_zero, ht] at hd
      exact Aggregators.result_digest hd T.nprocs

end

/-! ## Custom metrics -/

def stored (rank : Nat) (uptime : Nat → When → Nat → Nat × Nat) (names : List String) (k : Nat) (w : When) (j : Nat) :
    Int :=
  (((names[j]?).bind known).map fun func =>
    func.call rank 100 (0, 0) (procUptime (uptime k w j).1 (uptime k w j).2 [' '])).getD 0

/-- The rank finds the list of names in the file each time and looks its metrics up in its
table; `uptime` is what `/proc/uptime` gives each time that it is read. -/
structure UsesStorage {P : Type} (s : Storage P) (rank : Nat) (uptime : Nat → When → Nat → Nat × Nat)
    (names : List String) (E : Nat → When → Sampling) : Prop where
  lists : ∀ k w, (E k w).Lists names
  getValue : ∀ k w j name, (E k w).probe.getValue j name = ((getValue s name).join).map fun func =>
    func.call rank 100 (0, 0) (procUptime (uptime k w j).1 (uptime k w j).2 [' '])

def Stored (rank : Nat) (uptime : Nat → When → Nat → Nat × Nat) (names : List String) (k : Nat)
    (names' : List String) (values : List Aggregators) : Prop :=
  names' = names ∧ ∃ w, values = (List.range names.length).map fun j => single (stored rank uptime names k w j)

section
variable {P : Type} {s : Storage P} {l : List P} {rank : Nat} {uptime : Nat → When → Nat → Nat × Nat}
  {names : List String} {E : Nat → When → Sampling}

theorem UsesStorage.measure (h : UsesStorage s rank uptime names E) (hs : Represents hashStr s l known)
    (hk : ∀ name ∈ names, known name ≠ none) (k : Nat) (w : When) {j : Nat} (hj : j < names.length) :
    (E k w).probe.measure j (names.get ⟨j, hj⟩) = some (stored rank uptime names k w j) := by
  have hname : names[j]? = some (names.get ⟨j, hj⟩) := List.getElem?_eq_getElem hj
  obtain ⟨func, hf⟩ := Option.ne_none_iff_exists'.mp (hk _ (names.get_mem ⟨j, hj⟩))
  have hget : Clarisse.getValue s (names.get ⟨j, hj⟩) = some (some func) := by
    rw [Clarisse.getValue, hs.get, hf]
  rw [Probe.measure, h.getValue, hget, stored, hname, Option.bind_some, hf]
  rfl

theorem UsesStorage.samples (h : UsesStorage s rank uptime names E) (hs : Represents hashStr s l known)
    (hk : ∀ name ∈ names, known name ≠ none) (hne : names ≠ []) :
    Samples E (0 < ·) (Stored rank uptime names) (Stored rank uptime names) := by
  have hvalues : ∀ k w (g : List Aggregators), g.length = names.length →
      computeMetric (E k w).probe (names.map some) g names.length =
        .ok ((List.range names.length).map fun j => single (stored rank uptime names k w j)) := by
    intro k w g hg
    have hrun := computeMetricFrom_values (E k w).probe (names.map some) (stored rank uptime names k w)
      names.length 0 g (fun j _ hj => ⟨_, getD_map_some (by omega), h.measure hs hk k w (by omega)⟩) (by omega)
    rw [computeMetric, Int.toNat_natCast, hrun]
    simp [List.range_eq_range']
  have hfile : ∀ k w agg nr, sampleFile (E k w) agg nr = .ok (⟨some (names.map some), names.length, agg.totalMetrics⟩,
      names.length, (List.range names.length).map fun j => single (stored rank uptime names k w j),
      decide ((names.length : Int) ≠ agg.totalMetrics) && !names.isEmpty) := by
    intro k w agg nr
    rw [sampleFile_eq (h.lists k w), hvalues k w _ (by simp [Sampling.malloc])]
  have hmemory : ∀ k w (agg : Aggregator) values, agg.Holds names → values.length = names.length →
      sampleMemory (E k w) agg values = .ok (names.length,
        (List.range names.length).map fun j => single (stored rank uptime names k w j)) := by
    intro k w agg values hh hl
    unfold sampleMemory metricsCrawlerResultsMemory initializeMetricsCrawlerNumberFromMemory
    rw [hh.desired, hh.total, Option.getD_some, hvalues k w values hl]
  refine ⟨?_, ?_, fun _ _ _ _ h => h, ?_, ?_, Nat.lt_irrefl 0, fun k _ _ _ _ _ _ _ => Nat.succ_pos k⟩
  · exact fun k agg nr => ⟨names, _, hne, ⟨rfl, .current, rfl⟩, hfile k .current agg nr⟩
  · exact fun k agg nr => ⟨names, _, _, hne, ⟨rfl, .next, rfl⟩, hfile k .next agg nr⟩
  · intro k agg names' values hh hp
    obtain ⟨rfl, w, rfl⟩ := hp
    exact ⟨_, hmemory k .current agg _ hh (by simp), rfl, .current, rfl⟩
  · intro k agg names' values _ hh hp
    obtain ⟨rfl, w, rfl⟩ := hp
    exact ⟨_, hmemory (k + 1) .next agg _ hh (by simp), rfl, .next, rfl⟩

theorem Stored.single {k : Nat} {names' : List String} {values : List Aggregators}
    (h : Stored rank uptime names k names' values) : Single names.length names' values := by
  obtain ⟨rfl, w, rfl⟩ := h
  exact ⟨rfl, _, rfl⟩

end

section
variable {T : Topology} {E : Nat → Nat → When → Sampling} {σ : Net} {names : List String}
  {uptime : Nat → Nat → When → Nat → Nat × Nat}

theorem stored_known {rank k j : Nat} {up : Nat → When → Nat → Nat × Nat} {w : When} {name : String} (func : Callback)
    (hj : names[j]? = some name) (hf : known name = some func) :
    stored rank up names k w j = func.call rank 100 (0, 0) (procUptime (up k w j).1 (up k w j).2 [' ']) := by
  rw [stored, hj, Option.bind_some, hf, Option.map_some, Option.getD_some]

theorem reading_stored {m : Net} {r k j : Nat} {o : Metrics} (ho : (m.made T r)[k]? = some o)
    (hs : Sampled (Stored r (uptime r) names k) o) (hj : j < names.length) :
    ∃ w, m.reading T r k j = stored r (uptime r) names k w j := by
  obtain ⟨names', -, -, -, rfl, w, hv⟩ := hs
  refine ⟨w, ?_⟩
  rw [Net.reading, ho, Option.getD_some, Metrics.column, hv, List.getD_eq_getElem?_getD, List.getElem?_map,
    List.getElem?_range hj]
  rfl

theorem sum_ranks (n : Nat) : (∑ r ∈ Finset.range n, ((r : Int) : Rat)) = (n : Rat) * ((n : Rat) - 1) / 2 := by
  induction n with
  | zero => simp
  | succ n ih =>
    rw [Finset.sum_range_succ, ih]
    push_cast
    ring

/-- For the metrics of `callbacks`, whatever their order in the file and whatever the order
of the steps, the root is told the ranks, ones and the uptimes that the ranks have read. -/
theorem finalResult_storage {P : Type} [DecidableEq P] {malloc : Nat → Nat → Heap P String Callback → P}
    (hm : ∀ r i, Fresh (malloc r i)) {s : Nat → Storage P}
    (hs : ∀ r, initKnownMetrics (malloc r) Hash.empty = some (s r))
    (hE : ∀ r, UsesStorage (s r) r (uptime r) names (E r)) (h2 : 2 ≤ T.nprocs) (hne : names ≠ [])
    (hk : ∀ name ∈ names, known name ≠ none) {as : List Act}
    (hrun : Transition.exec (netStep T E) (netInit T) (as ++ [.final]) = some σ) :
    σ.root.monitoringResults.length = names.length ∧
      ∀ j name, names[j]? = some name → ∃ metric, σ.root.monitoringResults[j]? = some metric ∧
        (name = "rank" → metric = ⟨0, T.nprocs - 1, ((T.nprocs : Rat) - 1) / 2⟩) ∧
        (name = "test" → metric = ⟨1, 1, 1⟩) ∧
        (name = "uptime" → ∃ read : Nat → Int,
          (∀ r < T.nprocs, ∃ w, read r =
            100 * (uptime r (as.count .final) w j).1 + (uptime r (as.count .final) w j).2) ∧
          IsLeast (read '' Finset.range T.nprocs) metric.min ∧
          IsGreatest (read '' Finset.range T.nprocs) metric.max ∧
          metric.avg = (∑ r ∈ Finset.range T.nprocs, (read r : Rat)) / T.nprocs) := by
  have hrep : ∀ r, ∃ l, Represents hashStr (s r) l known := by
    intro r
    obtain ⟨s', l, hs', h⟩ := initKnownMetrics_spec (hm r) (represents_empty hashStr)
    rw [hs r] at hs'
    cases hs'
    exact ⟨l, h⟩
  have hsamples := fun r => (hE r).samples (hrep r).choose_spec hk hne
  obtain ⟨m, -, hlen, hmade, hres⟩ := finalResult_readings h2 hsamples (fun _ _ _ _ h => h.single) hrun
  refine ⟨hlen, fun j name hname => ?_⟩
  have hj : j < names.length := (List.getElem?_eq_some_iff.mp hname).1
  obtain ⟨metric, hmetric, hleast, hgreatest, havg⟩ := hres j hj
  have hread : ∀ r < T.nprocs, ∃ w, m.reading T r (as.count .final) j =
      stored r (uptime r) names (as.count .final) w j := by
    intro r hr
    obtain ⟨o, ho, hso⟩ := hmade r hr
    exact reading_stored ho hso hj
  have hn : (0 : Rat) < T.nprocs := by exact_mod_cast (by omega : 0 < T.nprocs)
  refine ⟨metric, hmetric, fun he => ?_, fun he => ?_, fun he => ?_⟩
  · have hrank : ∀ r ∈ Finset.range T.nprocs, m.reading T r (as.count .final) j = (r : Int) := by
      intro r hr
      obtain ⟨w, hw⟩ := hread r (Finset.mem_range.mp hr)
      rw [hw, stored_known .returnRank (he ▸ hname) rfl]
      rfl
    rw [Set.image_congr fun r hr => hrank r hr] at hleast hgreatest
    rw [Finset.sum_congr rfl fun r hr => by rw [hrank r hr], sum_ranks] at havg
    have hmin : IsLeast ((fun r : Nat => (r : Int)) '' Finset.range T.nprocs) 0 :=
      ⟨⟨0, by simp; omega, rfl⟩, by rintro _ ⟨r, -, rfl⟩; exact Int.natCast_nonneg r⟩
    have hmax : IsGreatest ((fun r : Nat => (r : Int)) '' Finset.range T.nprocs) (T.nprocs - 1) :=
      ⟨⟨T.nprocs - 1, by simp; omega, by simp; omega⟩, by
        rintro _ ⟨r, hr, rfl⟩
        have := Finset.mem_range.mp hr
        simp only
        omega⟩
    have havg' : metric.avg = ((T.nprocs : Rat) - 1) / 2 := by
      rw [havg, div_right_comm, mul_div_cancel_left₀ _ hn.ne']
    change (⟨metric.min, metric.max, metric.avg⟩ : SysMetric) = _
    rw [hleast.unique hmin, hgreatest.unique hmax, havg']
  · have htest : ∀ r ∈ Finset.range T.nprocs, m.reading T r (as.count .final) j = 1 := by
      intro r hr
      obtain ⟨w, hw⟩ := hread r (Finset.mem_range.mp hr)
      rw [hw, stored_known .benchmarkMetric (he ▸ hname) rfl]
      rfl
    rw [Set.image_congr fun r hr => htest r hr] at hleast hgreatest
    rw [Finset.sum_congr rfl fun r hr => by rw [htest r hr]] at havg
    have hone : ∀ x ∈ (fun _ : Nat => (1 : Int)) '' Finset.range T.nprocs, x = 1 := by
      rintro _ ⟨r, -, rfl⟩
      rfl
    have havg' : metric.avg = 1 := by
      rw [havg]
      simp [hn.ne']
    change (⟨metric.min, metric.max, metric.avg⟩ : SysMetric) = _
    rw [hone _ hleast.1, hone _ hgreatest.1, havg']
  · have hspace : ∀ c ∈ [' '].head?, c.isDigit = false := by
      intro c hc
      cases hc
      rfl
    have huptime : ∀ r < T.nprocs, ∃ w, m.reading T r (as.count .final) j =
        100 * (uptime r (as.count .final) w j).1 + (uptime r (as.count .final) w j).2 := by
      intro r hr
      obtain ⟨w, hw⟩ := hread r hr
      refine ⟨w, hw.trans ?_⟩
      rw [stored_known .getUptime (he ▸ hname) rfl]
      exact getUptime_procUptime _ _ (0, 0) hspace
    exact ⟨_, huptime, hleast, hgreatest, havg⟩

end

def knownSamples (rank _k : Nat) (_w : When) : Sampling where
  file := some (listing ["rank", "test"])
  file' := some (listing ["rank", "test"])
  heap _ := default
  probe := ⟨fun _ name => (known name).map fun func => func.call rank 100 (0, 0) (procUptime 7 5 [' ']),
    fun _ _ => none, fun _ _ => false, fun _ _ => none⟩

theorem finalResult_storage_chain :
    ∃ σ, Transition.exec (netStep chain knownSamples) (netInit chain) (chainPulse ++ [.final]) = some σ ∧
      ∃ metric, σ.root.monitoringResults[0]? = some metric ∧ metric = ⟨0, 2, 1⟩ := by
  obtain ⟨s, l, hs, h⟩ := initKnownMetrics_spec (fun _ => firstFree_fresh) (represents_empty (P := Nat) hashStr)
  have hE : ∀ r, UsesStorage s r (fun _ _ _ => (7, 5)) ["rank", "test"] (knownSamples r) := by
    refine fun r => ⟨fun _ _ => ⟨⟨_, rfl, rfl⟩, rfl⟩, fun k w j name => ?_⟩
    rw [getValue, h.get]
    rfl
  obtain ⟨σ, hrun⟩ : ∃ σ, Transition.exec (netStep chain knownSamples) (netInit chain) (chainPulse ++ [.final]) =
    some σ := ⟨_, rfl⟩
  obtain ⟨metric, hm, hrank, -⟩ := (finalResult_storage (fun _ _ => firstFree_fresh) (fun _ => hs) hE (by decide)
    (by decide) (by decide) hrun).2 0 "rank" rfl
  refine ⟨σ, hrun, metric, hm, (hrank rfl).trans ?_⟩
  norm_num [chain]

end Clarisse
