import Clarisse.Crawler
import Clarisse.History

/-!
# Where the values of an event come from

`compute_metric` returns at the first error of PAPI, and what it is called with
is submitted all the same: fresh memory where the file was read, the values of
the pulse before where it was not.
-/

namespace Clarisse

open Interleave

/-- Every entry of `e` has been assigned what was measured for the name at its index. -/
def Assigned (p : Probe) (names : List Alias) (e : Metrics) : Prop :=
  ∀ j : Nat, (j : Int) < e.metricsNr →
    ∃ name v, names.getD j none = some name ∧ p.measure j name = some v ∧ e.gatherInfo[j]? = some (single v)

/-- Each of the first `size` metrics is a custom one, or PAPI knows, starts and stops it. -/
def Succeeds (p : Probe) (names : List Alias) (size : Int) : Prop :=
  ∀ j : Nat, (j : Int) < size → ∃ name v, names.getD j none = some name ∧ p.measure j name = some v

def Aggregator.names (agg : Aggregator) : List Alias := agg.desiredMetrics.getD []

theorem Assigned.succeeds {p : Probe} {names : List Alias} {e : Metrics} (h : Assigned p names e) :
    Succeeds p names e.metricsNr := by
  intro j hj
  obtain ⟨name, v, hn, hm, -⟩ := h j hj
  exact ⟨name, v, hn, hm⟩

/-! ## One sampling -/

section
variable {p : Probe} {names : List Alias} {values values' : List Aggregators} {size : Int}

theorem computeMetric_length (h : computeMetric p names values size = .ok values') :
    values'.length = values.length := by
  have key : ∀ (k i : Nat) (values : List Aggregators), computeMetricFrom p names k i values = .ok values' →
      values'.length = values.length := by
    intro k
    induction k with
    | zero => intro i values h; cases h; rfl
    | succ k ih =>
      intro i values h
      unfold computeMetricFrom at h
      cases hn : names.getD i none with
      | none => rw [hn] at h; cases h
      | some name =>
        simp only [hn] at h
        cases hm : p.measure i name with
        | none => simp only [hm] at h; cases h; rfl
        | some v =>
          simp only [hm] at h
          rw [ih _ _ h, List.length_set]
  exact key _ _ _ h

theorem computeMetric_succeeds (hs : Succeeds p names size) (hl : values.length = size.toNat)
    (h : computeMetric p names values size = .ok values') :
    ∀ j : Nat, (j : Int) < size →
      ∃ name v, names.getD j none = some name ∧ p.measure j name = some v ∧ values'[j]? = some (single v) := by
  let v : Nat → Int := fun j => ((names.getD j none).bind (p.measure j)).getD 0
  have hv : ∀ j : Nat, (j : Int) < size →
      ∃ name, names.getD j none = some name ∧ p.measure j name = some (v j) := by
    intro j hj
    obtain ⟨name, x, hn, hm⟩ := hs j hj
    refine ⟨name, hn, ?_⟩
    simp only [v, hn, Option.bind_some, hm, Option.getD_some]
  have hrun := computeMetricFrom_values p names v size.toNat 0 values (fun j _ hj => hv j (by omega)) (by omega)
  rw [computeMetric, hrun] at h
  cases h
  intro j hj
  obtain ⟨name, hn, hm⟩ := hv j hj
  refine ⟨name, v j, hn, hm, ?_⟩
  simp [show j < size.toNat by omega]

theorem sampleFile_assigned {S : Sampling} {agg agg' : Aggregator} {nr nr' : Int} {b : Bool}
    (h : sampleFile S agg nr = .ok (agg', nr', values, b)) :
    nr' = agg'.totalMetrics ∧ values.length = nr'.toNat ∧
      (Succeeds S.probe agg'.names nr' → ∀ j : Nat, (j : Int) < nr' →
        ∃ name v, agg'.names.getD j none = some name ∧ S.probe.measure j name = some v ∧
          values[j]? = some (single v)) := by
  obtain ⟨desired, rfl, hm, -⟩ := sampleFile_ok h
  have hl : (S.malloc nr').length = nr'.toNat := by simp [Sampling.malloc]
  refine ⟨rfl, (computeMetric_length hm).trans hl, fun hs j hj => ?_⟩
  have hnames : Aggregator.names
      { agg.resize nr' with desiredMetrics := (agg.resize nr').desiredMetrics.map fun _ => desired } =
        desired := by
    simp [Aggregator.names, Aggregator.resize, callocNames, show ¬ nr' < 0 by omega]
  rw [hnames] at hs ⊢
  exact computeMetric_succeeds hs hl hm j hj

theorem sampleMemory_assigned {S : Sampling} {agg : Aggregator} {nr : Int}
    (hl : values.length = agg.totalMetrics.toNat) (h : sampleMemory S agg values = .ok (nr, values')) :
    nr = agg.totalMetrics ∧ values'.length = nr.toNat ∧
      (Succeeds S.probe agg.names nr → ∀ j : Nat, (j : Int) < nr →
        ∃ name v, agg.names.getD j none = some name ∧ S.probe.measure j name = some v ∧
          values'[j]? = some (single v)) := by
  obtain ⟨rfl, hm⟩ := sampleMemory_ok h
  exact ⟨rfl, (computeMetric_length hm).trans hl, fun hs => computeMetric_succeeds hs hl hm⟩

def Fits (agg : Aggregator) (data : Metrics) : Prop := data.gatherInfo.length = agg.totalMetrics.toNat

theorem getMetricsValues_assigned {T : Topology} {r : Nat} {S : Sampling} {agg agg' : Aggregator}
    {e d d' : Metrics} {k : Nat} (hf : Fits agg d) (h : getMetricsValues T r S agg e k d = .ok (agg', d')) :
    Fits agg' d' ∧ (Assigned S.probe agg'.names d' ↔ Succeeds S.probe agg'.names d'.metricsNr) := by
  cases (getMetricsValues_cases h).2 with
  | inl hs =>
    obtain ⟨-, b, hs⟩ := hs
    obtain ⟨ht, hl, ha⟩ := sampleFile_assigned hs
    exact ⟨by rw [Fits, hl, ht], Assigned.succeeds, ha⟩
  | inr hs =>
    obtain ⟨-, rfl, hs⟩ := hs
    obtain ⟨ht, hl, ha⟩ := sampleMemory_assigned hf hs
    exact ⟨by rw [Fits, hl, ht], Assigned.succeeds, ha⟩

end

/-! ## The runs of the leaf loop and of the own handler -/

def leafRun (T : Topology) (r : Nat) (E : Nat → When → Sampling) (quits : List Bool) : Except Halt LeafState :=
  quits.foldlM (fun s leafsFinished => leafPulse E leafsFinished s) (startCommunication T r)

/-- `o` is what a call of `get_metrics_values` for pulse `k` returned in the sampling `S`. -/
def ReturnedBy (T : Topology) (r : Nat) (S : Sampling) (k : Nat) (agg' : Aggregator) (o : Metrics) : Prop :=
  ∃ agg e d, Fits agg d ∧ getMetricsValues T r S agg e k d = .ok (agg', o)

/-- What is submitted next, and all that has been submitted, was returned by some call. -/
structure OwnReturned (T : Topology) (r : Nat) (E : Nat → When → Sampling) (s : OwnState) : Prop where
  fits : Fits s.aggregator s.data
  data : s.firstPulse = false → ∃ k w, ReturnedBy T r (E k w) k s.aggregator s.data
  submitted : ∀ o ∈ s.submitted, ∃ k w agg, ReturnedBy T r (E k w) k agg o

section
variable {T : Topology} {r : Nat} {E : Nat → When → Sampling}

theorem OwnReturned.submit {s s' : OwnState} {e : Metrics} (h : OwnReturned T r E s)
    (hs : submitOwn T r E e s = .ok s') : OwnReturned T r E s' := by
  obtain ⟨o, agg, hsub, -, -, hfp, hanew, hkept, hstop, hnext⟩ := submitOwn_submits hs
  have ho : Fits agg o ∧ ∃ k w, ReturnedBy T r (E k w) k agg o := by
    by_cases hc : s.firstPulse ∨ e.updateFile ≠ 0 ∨ e.quit ≠ 0
    · have hcall := hanew hc
      exact ⟨(getMetricsValues_assigned h.fits hcall).1, _, _, _, _, _, h.fits, hcall⟩
    · obtain ⟨rfl, rfl⟩ := hkept hc
      exact ⟨h.fits, h.data (by simpa using fun hp => hc (Or.inl hp))⟩
  have hdata : Fits s'.aggregator s'.data ∧ ∃ k w, ReturnedBy T r (E k w) k s'.aggregator s'.data := by
    by_cases hq : e.quit = 0
    · have hcall := hnext hq
      exact ⟨(getMetricsValues_assigned ho.1 hcall).1, _, _, _, _, _, ho.1, hcall⟩
    · obtain ⟨h1, h2⟩ := hstop hq
      rw [h1, h2]
      exact ho
  refine ⟨hdata.1, fun _ => hdata.2, fun x hx => ?_⟩
  rw [hsub, List.mem_append, List.mem_singleton] at hx
  cases hx with
  | inl hx => exact h.submitted x hx
  | inr hx =>
    rw [hx]
    obtain ⟨k, w, hr⟩ := ho.2
    exact ⟨k, w, agg, hr⟩

theorem handleAll_returned (es : List Metrics) : ∀ s, handleAll T r E es = .ok s → OwnReturned T r E s := by
  induction es using List.reverseRecOn with
  | nil =>
    intro s hs
    cases hs
    exact ⟨rfl, nofun, nofun⟩
  | append_singleton es e ih =>
    intro s hs
    rw [handleAll_snoc] at hs
    cases hb : handleAll T r E es with
    | error _ => rw [hb] at hs; cases hs
    | ok s₀ =>
      rw [hb] at hs
      have h₀ : OwnReturned T r E (s₀.receive e.timestamp) :=
        ⟨(ih s₀ hb).fits, (ih s₀ hb).data, (ih s₀ hb).submitted⟩
      cases computeOwnMetrics_ok hs with
      | inl h => rw [h]; exact h₀
      | inr h => exact h₀.submit h

theorem leafRun_snoc (quits : List Bool) (q : Bool) :
    leafRun T r E (quits ++ [q]) = (leafRun T r E quits).bind fun s => leafPulse E q s :=
  Transition.foldlM_snoc _ _ quits q

theorem leafRun_returned (quits : List Bool) : ∀ s, leafRun T r E quits = .ok s →
    s.submitted.length = s.counter ∧ ∀ k o, s.submitted[k]? = some o →
      ∃ agg nr agg' b, sampleFile (E k .current) agg nr = .ok (agg', o.metricsNr, o.gatherInfo, b) := by
  induction quits using List.reverseRecOn with
  | nil =>
    intro s hs
    cases hs
    exact ⟨rfl, fun k o hk => by simp [startCommunication] at hk⟩
  | append_singleton quits q ih =>
    intro s hs
    rw [leafRun_snoc] at hs
    cases hb : leafRun T r E quits with
    | error _ => rw [hb] at hs; cases hs
    | ok s₀ =>
      rw [hb] at hs
      obtain ⟨hlen, hall⟩ := ih s₀ hb
      obtain ⟨agg, nr, values, b, hsample, hc, -, hsub, hd⟩ := leafPulse_ok hs
      refine ⟨by rw [hsub, List.length_append, hlen, hc]; rfl, fun k o hk => ?_⟩
      rw [hsub] at hk
      cases getElem?_snoc hk with
      | inl hold => exact hall k o hold
      | inr hlast =>
        obtain ⟨rfl, rfl⟩ := hlast
        rw [hlen, hd]
        exact ⟨_, _, agg, b, hsample⟩

/-- The entries of a submitted event were all assigned in the sampling that it comes
from iff every metric of that sampling succeeds. -/
theorem submitted_assigned_iff :
    (∀ quits s, leafRun T r E quits = .ok s → ∀ k o, s.submitted[k]? = some o →
      ∃ agg nr agg' b, sampleFile (E k .current) agg nr = .ok (agg', o.metricsNr, o.gatherInfo, b) ∧
        (Assigned (E k .current).probe agg'.names o ↔ Succeeds (E k .current).probe agg'.names o.metricsNr)) ∧
    ∀ es s, handleAll T r E es = .ok s → ∀ o ∈ s.submitted,
      ∃ w agg e d agg', getMetricsValues T r (E o.timestamp w) agg e o.timestamp d = .ok (agg', o) ∧
        (Assigned (E o.timestamp w).probe agg'.names o ↔
          Succeeds (E o.timestamp w).probe agg'.names o.metricsNr) := by
  refine ⟨?_, ?_⟩
  · intro quits s hs k o hk
    obtain ⟨agg, nr, agg', b, hsample⟩ := (leafRun_returned quits s hs).2 k o hk
    obtain ⟨-, -, ha⟩ := sampleFile_assigned hsample
    exact ⟨agg, nr, agg', b, hsample, Assigned.succeeds, ha⟩
  · intro es s hs o ho
    obtain ⟨k, w, agg', agg, e, d, hf, hcall⟩ := (handleAll_returned es s hs).submitted o ho
    obtain ⟨-, rfl, -⟩ := getMetricsValues_ok hcall
    exact ⟨w, agg, e, d, agg', hcall, (getMetricsValues_assigned hf hcall).2⟩

end

theorem submitted_assigned_constant :
    ∃ s, leafRun twoLeaves 1 (fun _ _ => .constant ["load"] 7) [false, true] = .ok s ∧ s.submitted.length = 2 ∧
      ∀ (k : Nat) (o : Metrics), s.submitted[k]? = some o → ∃ agg nr agg' b,
        sampleFile (.constant ["load"] 7) agg nr = .ok (agg', o.metricsNr, o.gatherInfo, b) ∧
          (Assigned (Sampling.constant ["load"] 7).probe agg'.names o ↔
            Succeeds (Sampling.constant ["load"] 7).probe agg'.names o.metricsNr) := by
  refine ⟨_, rfl, rfl, ?_⟩
  exact (submitted_assigned_iff (T := twoLeaves) (r := 1) (E := fun _ _ => .constant ["load"] 7)).1
    [false, true] _ rfl

def unknown : Sampling where
  file := some (listing ["load"])
  file' := some (listing ["load"])
  heap _ := ⟨5, 3, 8⟩
  probe := ⟨fun _ _ => none, fun _ _ => none, fun _ _ => false, fun _ _ => none⟩

theorem unknown_not_assigned :
    ¬ ∀ (T : Topology) (r : Nat) (E : Nat → When → Sampling) (quits : List Bool) (s : LeafState),
      leafRun T r E quits = .ok s → ∀ (k : Nat) (o : Metrics), s.submitted[k]? = some o → ∃ agg nr agg' b,
        sampleFile (E k .current) agg nr = .ok (agg', o.metricsNr, o.gatherInfo, b) ∧
          Assigned (E k .current).probe agg'.names o := by
  intro h
  have hrun : ∃ (s : LeafState) (o : Metrics), leafRun twoLeaves 1 (fun _ _ => unknown) [true] = .ok s ∧
      s.submitted[0]? = some o ∧ o.metricsNr = 1 ∧ o.gatherInfo = [⟨5, 3, 8⟩] := ⟨_, _, rfl, rfl, rfl, rfl⟩
  obtain ⟨s, o, hs, ho, hn, -⟩ := hrun
  obtain ⟨_, _, _, _, -, ha⟩ := h twoLeaves 1 _ [true] s hs 0 o ho
  obtain ⟨name, v, -, hm, -⟩ := ha 0 (by rw [hn]; decide)
  cases hm

end Clarisse
