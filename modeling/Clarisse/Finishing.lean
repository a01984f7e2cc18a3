import Clarisse.BenchmarkSound
import Clarisse.Crawler
import Clarisse.ResultBuffer

/-!
# When the root of the benchmarking build finishes

`final_result` prints the table and closes the file when the event is the last, or
carries `quit`, or has no metrics. The first two come true together, at the last
timestamp; the third at every pulse or at none.
-/

namespace Clarisse

open Interleave

/-- Every sampling of every rank finds a well-formed file with `n` names. -/
def Counts (E : Nat → Nat → When → Sampling) (n : Nat) : Prop :=
  ∀ r k w, ∃ names : List String, names.length = n ∧ (E r k w).Lists names

/-! ## The count that the events carry -/

section
variable {T : Topology} {r n : Nat} {E : Nat → Nat → When → Sampling} {σ : Net}

theorem leafPulse_counts (hE : Counts E n) {fin : Bool} {s s' : LeafState} (h : leafPulse (E r) fin s = .ok s') :
    s'.data.metricsNr = n := by
  obtain ⟨agg, nr, values, b, hs, -, -, -, hd⟩ := leafPulse_ok h
  obtain ⟨names, hlen, hl⟩ := hE r s.counter .current
  obtain ⟨values', -, he⟩ := sampleFile_total hl s.aggregator s.data.metricsNr
  rw [hs] at he
  cases he
  rw [hd, ← hlen]

theorem Reachable.leaf_counts (h : Reachable T E σ) (hE : Counts E n) :
    ∀ r, ∀ e ∈ (σ.leaf r).submitted, e.metricsNr = n := by
  have hstep : ∀ (σ : Net) (a : Act) (σ' : Net), (∀ r, ∀ e ∈ (σ.leaf r).submitted, e.metricsNr = n) →
      netStep T E σ a = some σ' → ∀ r, ∀ e ∈ (σ'.leaf r).submitted, e.metricsNr = n := by
    intro σ a σ' hi hs
    cases (netStep_steps hs).2 with
    | leaf r fin l hr hl hq hp =>
      refine setLeaf_forall (P := fun _ l => ∀ e ∈ l.submitted, e.metricsNr = n) hi fun e he => ?_
      obtain ⟨-, -, -, -, -, -, -, hsub, -⟩ := leafPulse_ok hp
      rw [hsub, List.mem_append, List.mem_singleton] at he
      cases he with
      | inl he => exact hi r e he
      | inr he => rw [he, leafPulse_counts hE hp]
    | leafHalt r fin d hp => exact hi
    | ownHalt c r e d hc he ho => exact hi
    | terminal c r e own hc he ho => exact hi
    | multi c r e hc he => exact hi
    | own r e hr hl he => exact hi
    | final _ e he => exact hi
  obtain ⟨as, hs⟩ := h
  exact Transition.exec_invariant (netStep T E) (I := fun σ => ∀ r, ∀ e ∈ (σ.leaf r).submitted, e.metricsNr = n)
    hstep (fun r e he => by cases he) hs

theorem samples_counts (hE : Counts E n) (hn : 0 < n) (r : Nat) :
    Samples (E r) (fun k => 0 < k) (fun _ names _ => names.length = n) (fun _ names _ => names.length = n) := by
  refine samples_of_lists fun k w => ?_
  obtain ⟨names, hlen, hl⟩ := hE r k w
  exact ⟨names, List.ne_nil_of_length_pos (hlen ▸ hn), hlen, hl⟩

structure Empty (s : OwnState) : Prop where
  total : s.aggregator.totalMetrics = 0
  metricsNr : s.data.metricsNr = 0
  submitted : ∀ e ∈ s.submitted, e.metricsNr = 0

theorem getMetricsValues_empty {S : Sampling} (hS : S.Lists []) {agg agg' : Aggregator} {e d d' : Metrics} {k : Nat}
    (h0 : agg.totalMetrics = 0) (h : getMetricsValues T r S agg e k d = .ok (agg', d')) :
    agg'.totalMetrics = 0 ∧ d'.metricsNr = 0 := by
  cases (getMetricsValues_cases h).2 with
  | inl hs =>
    obtain ⟨-, b, hs⟩ := hs
    obtain ⟨values, -, hempty⟩ := sampleFile_total hS agg d.metricsNr
    rw [hs, Except.ok.injEq, Prod.mk.injEq, Prod.mk.injEq] at hempty
    obtain ⟨hagg, hnr, -⟩ := hempty
    rw [hagg, hnr]
    exact ⟨rfl, rfl⟩
  | inr hs =>
    obtain ⟨-, rfl, hs⟩ := hs
    exact ⟨h0, (sampleMemory_ok hs).1.trans h0⟩

theorem Empty.step {E : Nat → When → Sampling} {m s : OwnState} {e : Metrics} (h : Empty m)
    (hE : ∀ k w, (E k w).Lists []) (hs : computeOwnMetrics T r E m e = .ok s) : Empty s := by
  obtain ⟨h1, h2, h3⟩ := h
  cases computeOwnMetrics_ok hs with
  | inl hs => rw [hs]; exact ⟨h1, h2, h3⟩
  | inr hs =>
    obtain ⟨o, agg, hsub⟩ := submitOwn_submits hs
    have ho : agg.totalMetrics = 0 ∧ o.metricsNr = 0 := by
      by_cases hc : (m.receive e.timestamp).firstPulse ∨ e.updateFile ≠ 0 ∨ e.quit ≠ 0
      · exact getMetricsValues_empty (hE _ _) h1 (hsub.anew hc)
      · obtain ⟨rfl, rfl⟩ := hsub.kept hc
        exact ⟨h1, h2⟩
    have hnext : s.aggregator.totalMetrics = 0 ∧ s.data.metricsNr = 0 := by
      by_cases hq : e.quit = 0
      · exact getMetricsValues_empty (hE _ _) ho.1 (hsub.next hq)
      · obtain ⟨hd, ha⟩ := hsub.stop hq
        rw [hd, ha]
        exact ho
    refine ⟨hnext.1, hnext.2, fun x hx => ?_⟩
    rw [hsub.submitted, List.mem_append, List.mem_singleton] at hx
    cases hx with
    | inl hx => exact h3 x hx
    | inr hx => rw [hx]; exact ho.2

theorem handleAll_empty {E : Nat → When → Sampling} (hE : ∀ k w, (E k w).Lists []) {es : List Metrics} {s : OwnState}
    (h : handleAll T r E es = .ok s) : Empty s := by
  induction es using List.reverseRecOn generalizing s with
  | nil =>
    cases h
    exact ⟨rfl, rfl, fun e he => by cases he⟩
  | append_singleton es e ih =>
    rw [handleAll_snoc] at h
    cases hm : handleAll T r E es with
    | error _ => rw [hm] at h; cases h
    | ok m =>
      rw [hm] at h
      exact (ih hm).step hE h

theorem Reachable.own_counts (h : Reachable T E σ) (h2 : 2 ≤ T.nprocs) (hE : Counts E n) (hl : T.isLeaf r = false) :
    ∀ e ∈ (σ.node r).own.submitted, e.metricsNr = n := by
  rcases Nat.eq_zero_or_pos n with rfl | hn
  · have hempty : ∀ k w, (E r k w).Lists [] := by
      intro k w
      obtain ⟨names, hlen, hS⟩ := hE r k w
      rwa [List.length_eq_zero_iff.mp hlen] at hS
    exact (handleAll_empty hempty (h.history.own r)).submitted
  · have hS := samples_counts hE hn
    have hc := (h.healthy h2 hS).ownContent h2 hS hl
    intro e he
    obtain ⟨k, hk⟩ := List.mem_iff_getElem?.mp he
    obtain ⟨names, -, hnr, -, hlen⟩ := (hc.submitted k e hk).1
    rw [hnr, hlen]

theorem Reachable.out_counts (h : Reachable T E σ) (h2 : 2 ≤ T.nprocs) (hE : Counts E n) (hr : r < T.nprocs) :
    ∀ e ∈ σ.out T r, e.metricsNr = n := by
  intro e he
  obtain ⟨p, hp⟩ := List.mem_iff_getElem?.mp he
  obtain ⟨a, ha, hnr, -⟩ := h.history.leads h2 r hr e hp
  rw [hnr]
  clear hp he hnr hr
  induction ha with
  | leaf hl ha => exact h.leaf_counts hE _ _ (List.mem_of_getElem? ha)
  | own hl ha =>
    have hmem := (List.mem_filter.mp (List.mem_of_mem_head? ha)).1
    exact h.own_counts h2 hE hl _ ((h.history.arrivedOwn _).subset (mem_stream.mpr hmem))
  | child hl hx hc ih => exact ih

end

namespace Benchmark

/-! ## The calls of `final_result` -/

def Recorded (T : Topology) (maxTimestamps : Nat) (E : Nat → Nat → When → Sampling) (as : List Act)
    (p : Nat) : Prop :=
  ∃ bs endTime cs m, as = bs ++ ActOf.final endTime :: cs ∧
    Transition.exec (netStep T maxTimestamps E) (netInit T maxTimestamps) bs = some m ∧ m.root.pulse = p

/-- The table is printed and the file closed at most once in the run, and when that
happens every pulse has been recorded. -/
structure FinishesOnce (T : Topology) (maxTimestamps : Nat) (E : Nat → Nat → When → Sampling) (as : List Act)
    (σ : Net) : Prop where
  once : σ.root.printed.length ≤ 1
  recorded : ∀ bs a cs m m', as = bs ++ a :: cs →
    Transition.exec (netStep T maxTimestamps E) (netInit T maxTimestamps) bs = some m →
    netStep T maxTimestamps E m a = some m' → m'.root.printed ≠ m.root.printed →
      ∀ p < maxTimestamps, Recorded T maxTimestamps E (bs ++ [a]) p

section
variable {T : Topology} {maxTimestamps n : Nat} {E : Nat → Nat → When → Sampling} {as bs : List Act} {σ m m' : Net}
  {a : Act}

theorem netStep_root (h : netStep T maxTimestamps E m a = some m') :
    m'.root = m.root ∨ ∃ endTime e, a = .final endTime ∧ (m.out T 0)[m.root.pulse]? = some e ∧
      m'.root = finalResult maxTimestamps endTime m.root e :=
  (NetOf.step_root h).imp id fun ⟨endTime, ha, e, he, hroot⟩ => ⟨endTime, e, ha, he, hroot⟩

theorem netStep_final {endTime : Rat} (h : netStep T maxTimestamps E m (.final endTime) = some m') :
    ∃ e, (m.out T 0)[m.root.pulse]? = some e ∧ m'.root = finalResult maxTimestamps endTime m.root e := by
  cases (netStep_steps h).2 with
  | final _ e he => exact ⟨e, he, rfl⟩

theorem recorded_snoc {p : Nat}
    (hm : Transition.exec (netStep T maxTimestamps E) (netInit T maxTimestamps) as = some m) :
    Recorded T maxTimestamps E (as ++ [a]) p ↔
      Recorded T maxTimestamps E as p ∨ ((∃ endTime, a = .final endTime) ∧ m.root.pulse = p) := by
  constructor
  · rintro ⟨bs, endTime, cs, m₁, has, hm₁, hp⟩
    cases cs using List.reverseRecOn with
    | nil =>
      obtain ⟨rfl, ha⟩ := List.append_inj' has rfl
      rw [hm] at hm₁
      cases hm₁
      exact Or.inr ⟨⟨endTime, List.head_eq_of_cons_eq ha⟩, hp⟩
    | append_singleton cs b =>
      rw [← List.cons_append, ← List.append_assoc] at has
      obtain ⟨rfl, -⟩ := List.append_inj' has rfl
      exact Or.inl ⟨bs, endTime, cs, m₁, rfl, hm₁, hp⟩
  · rintro (⟨bs, endTime, cs, m₁, rfl, hm₁, hp⟩ | ⟨⟨endTime, rfl⟩, hp⟩)
    · exact ⟨bs, endTime, cs ++ [a], m₁, by simp, hm₁, hp⟩
    · exact ⟨as, endTime, [], m, rfl, hm, hp⟩

theorem recorded_iff (hs : Transition.exec (netStep T maxTimestamps E) (netInit T maxTimestamps) as = some σ)
    {p : Nat} :
    Recorded T maxTimestamps E as p ↔ p < σ.root.pulse := by
  induction as using List.reverseRecOn generalizing σ with
  | nil =>
    cases hs
    refine ⟨?_, fun h => absurd h (Nat.not_lt_zero p)⟩
    rintro ⟨bs, endTime, cs, -, h, -, -⟩
    exact absurd h (by simp)
  | append_singleton as a ih =>
    obtain ⟨m, hm, ha⟩ := Transition.exec_snoc _ hs
    rw [recorded_snoc hm, ih hm]
    rcases netStep_root ha with hr | ⟨endTime, e, rfl, -, hr⟩
    · rw [hr]
      refine ⟨?_, Or.inl⟩
      rintro (h | ⟨⟨endTime, rfl⟩, rfl⟩)
      · exact h
      · obtain ⟨e, -, hf⟩ := netStep_final ha
        rw [hr] at hf
        exact absurd (congrArg RootState.pulse hf) (Nat.ne_of_lt (Nat.lt_succ_self _))
    · rw [hr]
      change _ ↔ p < m.root.pulse + 1
      constructor
      · rintro (h | ⟨-, rfl⟩)
        · omega
        · omega
      · intro h
        rcases Nat.lt_or_eq_of_le (Nat.le_of_lt_succ h) with h | h
        · exact Or.inl h
        · exact Or.inr ⟨⟨endTime, rfl⟩, h.symm⟩

theorem final_event (h2 : 2 ≤ T.nprocs) (hmax : 1 ≤ maxTimestamps) (hE : Counts E n)
    (hs : Transition.exec (netStep T maxTimestamps E) (netInit T maxTimestamps) as = some m) {e : Metrics}
    (he : (m.out T 0)[m.root.pulse]? = some e) :
    m.root.pulse < maxTimestamps ∧
      (Finishes maxTimestamps e ↔ m.root.pulse + 1 = maxTimestamps ∨ n = 0) := by
  obtain ⟨τ, hτ, h⟩ := run_follows h2 hmax hs
  have h0 : 0 < T.nprocs := by omega
  obtain ⟨e', he', hu⟩ := untimed_getElem (h.out 0) he
  have hf := sameFields hu
  obtain ⟨hlt, hquit⟩ := h.bound h2 h0 (List.mem_of_getElem? he')
  have ht : e'.timestamp = m.root.pulse := inOrder_get _ (h.history.sent h2 0 h0).inOrder he'
  have hn : e'.metricsNr = n := hτ.out_counts h2 hE h0 e' (List.mem_of_getElem? he')
  rw [ht] at hlt hquit
  refine ⟨hlt, ?_⟩
  unfold Finishes
  rw [hf.timestamp, hf.quit, hf.metricsNr, ht, hn, hquit]
  omega

theorem finalResult_printed (endTime : Rat) (root : RootState) (e : Metrics) :
    (finalResult maxTimestamps endTime root e).printed.length =
      root.printed.length + if Finishes maxTimestamps e then 1 else 0 := by
  unfold finalResult
  split
  · simp
  · rfl

theorem finalResult_printed_ne {endTime : Rat} {root : RootState} {e : Metrics} :
    (finalResult maxTimestamps endTime root e).printed ≠ root.printed ↔ Finishes maxTimestamps e := by
  unfold finalResult
  split
  · simp [*]
  · simp [*]

theorem printed_length (h2 : 2 ≤ T.nprocs) (hmax : 1 ≤ maxTimestamps) (hE : Counts E n)
    (hgood : 0 < n ∨ maxTimestamps = 1)
    (hs : Transition.exec (netStep T maxTimestamps E) (netInit T maxTimestamps) as = some σ) :
    σ.root.printed.length = if σ.root.pulse < maxTimestamps then 0 else 1 := by
  induction as using List.reverseRecOn generalizing σ with
  | nil =>
    cases hs
    exact (if_pos hmax).symm
  | append_singleton as a ih =>
    obtain ⟨m, hm, ha⟩ := Transition.exec_snoc _ hs
    rcases netStep_root ha with hr | ⟨endTime, e, rfl, he, hr⟩
    · rw [hr]
      exact ih hm
    · obtain ⟨hlt, hfin⟩ := final_event h2 hmax hE hm he
      rw [hr, finalResult_printed, ih hm, if_pos hlt, Nat.zero_add]
      change _ = if m.root.pulse + 1 < maxTimestamps then 0 else 1
      by_cases hl : m.root.pulse + 1 < maxTimestamps
      · rw [if_pos hl, if_neg]
        rw [hfin]
        omega
      · rw [if_neg hl, if_pos]
        rw [hfin]
        omega

theorem finishesOnce_of_names (h2 : 2 ≤ T.nprocs) (hmax : 1 ≤ maxTimestamps) (hE : Counts E n)
    (hgood : 0 < n ∨ maxTimestamps = 1)
    (hs : Transition.exec (netStep T maxTimestamps E) (netInit T maxTimestamps) as = some σ) :
    FinishesOnce T maxTimestamps E as σ where
  once := by
    rw [printed_length h2 hmax hE hgood hs]
    split <;> omega
  recorded bs a cs m m' has hm ha hne p hp := by
    rcases netStep_root ha with hr | ⟨endTime, e, rfl, he, hr⟩
    · exact absurd (congrArg RootState.printed hr) hne
    · obtain ⟨hlt, hfin⟩ := final_event h2 hmax hE hm he
      rw [hr, finalResult_printed_ne, hfin] at hne
      rw [recorded_snoc hm, recorded_iff hm]
      rcases Nat.lt_or_ge p m.root.pulse with hlt | hge
      · exact Or.inl hlt
      · exact Or.inr ⟨⟨endTime, rfl⟩, by omega⟩

theorem no_calls_iff (hs : Transition.exec (netStep T maxTimestamps E) (netInit T maxTimestamps) as = some σ) :
    (∀ endTime, ActOf.final endTime ∉ as) ↔ σ.root.pulse = 0 := by
  constructor
  · intro h
    by_contra hpos
    obtain ⟨bs, endTime, cs, m, rfl, -, -⟩ := (recorded_iff hs).mpr (Nat.pos_of_ne_zero hpos)
    exact h endTime (by simp)
  · intro h0 endTime hmem
    obtain ⟨bs, cs, rfl⟩ := List.append_of_mem hmem
    have hbs := hs
    rw [Transition.exec_append, Option.bind_eq_some_iff] at hbs
    obtain ⟨m, hm, -⟩ := hbs
    have := (recorded_iff hs).mp ⟨bs, endTime, cs, m, rfl, hm, rfl⟩
    omega

theorem printed_eq_nil (hs : Transition.exec (netStep T maxTimestamps E) (netInit T maxTimestamps) as = some σ)
    (h : ∀ endTime, ActOf.final endTime ∉ as) : σ.root.printed = [] := by
  induction as using List.reverseRecOn generalizing σ with
  | nil =>
    cases hs
    rfl
  | append_singleton as a ih =>
    obtain ⟨m, hm, ha⟩ := Transition.exec_snoc _ hs
    rcases netStep_root ha with hr | ⟨endTime, e, rfl, -, -⟩
    · rw [hr]
      exact ih hm fun endTime hmem => h endTime (List.mem_append_left _ hmem)
    · exact absurd (by simp) (h endTime)

theorem max_eq_one_of_finishesOnce (h2 : 2 ≤ T.nprocs) (hmax : 1 ≤ maxTimestamps) (hE : Counts E 0)
    (hs : Transition.exec (netStep T maxTimestamps E) (netInit T maxTimestamps) as = some σ)
    (hpos : 0 < σ.root.pulse) (h : FinishesOnce T maxTimestamps E as σ) : maxTimestamps = 1 := by
  obtain ⟨bs, endTime, cs, m, rfl, hm, hp⟩ := (recorded_iff hs).mpr hpos
  rw [Transition.exec_append, hm, Option.bind_some, Transition.exec_cons, Option.bind_eq_some_iff] at hs
  obtain ⟨m', ha, -⟩ := hs
  obtain ⟨e, he, hr⟩ := netStep_final ha
  obtain ⟨-, hfin⟩ := final_event h2 hmax hE hm he
  have hne : m'.root.printed ≠ m.root.printed := by
    rw [hr, finalResult_printed_ne, hfin]
    exact Or.inr rfl
  by_contra hmany
  have hrec := h.recorded bs (.final endTime) cs m m' rfl hm ha hne 1 (by omega)
  rw [recorded_snoc hm, recorded_iff hm] at hrec
  omega

end

/-- The root finishes once exactly when the file has a name, or there is a single pulse,
or the run has no call of `final_result`. -/
theorem finishesOnce_iff (T : Topology) (maxTimestamps n : Nat) (E : Nat → Nat → When → Sampling)
    (h2 : 2 ≤ T.nprocs) (hmax : 1 ≤ maxTimestamps) (hE : Counts E n) (as : List Act) (σ : Net)
    (hs : Transition.exec (netStep T maxTimestamps E) (netInit T maxTimestamps) as = some σ) :
    FinishesOnce T maxTimestamps E as σ ↔ 0 < n ∨ maxTimestamps = 1 ∨ ∀ endTime, ActOf.final endTime ∉ as := by
  constructor
  · intro h
    rcases Nat.eq_zero_or_pos n with rfl | hn
    · rcases Nat.eq_zero_or_pos σ.root.pulse with h0 | hpos
      · exact Or.inr (Or.inr ((no_calls_iff hs).mpr h0))
      · exact Or.inr (Or.inl (max_eq_one_of_finishesOnce h2 hmax hE hs hpos h))
    · exact Or.inl hn
  · rintro (hn | h1 | h0)
    · exact finishesOnce_of_names h2 hmax hE (Or.inl hn) hs
    · exact finishesOnce_of_names h2 hmax hE (Or.inr h1) hs
    · refine ⟨by rw [printed_eq_nil hs h0]; exact Nat.zero_le 1, ?_⟩
      intro bs a cs m m' has hm ha hne
      rcases netStep_root ha with hr | ⟨endTime, e, rfl, -, -⟩
      · exact absurd (congrArg RootState.printed hr) hne
      · exact absurd (has ▸ List.mem_append_right bs (List.mem_cons_self ..)) (h0 endTime)

/-! ## Runs with and without names -/

def pair : Topology := ⟨2, 1, Nat.two_pos, Nat.one_pos⟩

def named (names : List String) (_ _ : Nat) (_ : When) : Sampling := Sampling.constant names 1

theorem counts_named (names : List String) : Counts (named names) names.length :=
  fun _ _ _ => ⟨names, rfl, ⟨names, rfl, rfl⟩, rfl⟩

def pairPulse (t : Rat) : List Act := [.leaf 1 t, .terminal 1, .multi 1, .own 0, .final (t + 1)]

def pairRun : List Act := pairPulse 0 ++ pairPulse 1

theorem finishesOnce_iff_named : ∃ σ,
    Transition.exec (netStep pair 2 (named ["a"])) (netInit pair 2) pairRun = some σ ∧
      (FinishesOnce pair 2 (named ["a"]) pairRun σ ↔ 0 < 1 ∨ 2 = 1 ∨ ∀ endTime, ActOf.final endTime ∉ pairRun) :=
  ⟨_, rfl, finishesOnce_iff pair 2 1 (named ["a"]) (by decide) (by decide) (counts_named ["a"]) pairRun _ rfl⟩

/-- Without names the file is closed after each of the two pulses. -/
theorem not_finishesOnce_empty : ¬ ∀ (T : Topology) (maxTimestamps n : Nat) (E : Nat → Nat → When → Sampling),
    2 ≤ T.nprocs → 1 ≤ maxTimestamps → Counts E n → ∀ (as : List Act) (σ : Net),
      Transition.exec (netStep T maxTimestamps E) (netInit T maxTimestamps) as = some σ →
        FinishesOnce T maxTimestamps E as σ := by
  intro h
  have hfin := h pair 2 0 (named []) (by decide) (by decide) (counts_named []) pairRun _ rfl
  exact absurd hfin.once (by decide)

end Benchmark

end Clarisse
