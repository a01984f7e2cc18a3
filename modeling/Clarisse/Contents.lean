import Clarisse.History

/-!
# What the events carry

An assumption on the samplings of a rank (`Samples`: every file read succeeds,
and what a sampling made for a pulse gives) carried through the leaf loop, the
own handler and the relay: every event carries a sampling made for its pulse,
and no process ends early.
-/

namespace Clarisse

open Interleave

def Sampled (P : List String → List Aggregators → Prop) (e : Metrics) : Prop :=
  ∃ names, names ≠ [] ∧ e.metricsNr = names.length ∧ e.contributions = [names.map some] ∧ P names e.gatherInfo

/-- `now k` holds of what is submitted for pulse `k` and `ahead k` of what is sampled
for it one pulse ahead; `clear k` is what an event of pulse `k` without
`update_file` tells. -/
structure Samples (E : Nat → When → Sampling) (clear : Nat → Prop)
    (now ahead : Nat → List String → List Aggregators → Prop) : Prop where
  fileNow : ∀ k agg nr, ∃ names values, names ≠ [] ∧ now k names values ∧
    sampleFile (E k .current) agg nr = .ok (⟨some (names.map some), names.length, agg.totalMetrics⟩, names.length,
      values, decide ((names.length : Int) ≠ agg.totalMetrics) && !names.isEmpty)
  fileAhead : ∀ k agg nr, ∃ names values b, names ≠ [] ∧ ahead k names values ∧
    sampleFile (E k .next) agg nr = .ok (⟨some (names.map some), names.length, agg.totalMetrics⟩, names.length,
      values, b)
  settle : ∀ k names values, clear k → ahead k names values → now k names values
  memoryNow : ∀ k agg names values, agg.Holds names → now k names values →
    ∃ values', sampleMemory (E k .current) agg values = .ok (names.length, values') ∧ now k names values'
  memoryAhead : ∀ k agg names values, clear k → agg.Holds names → now k names values →
    ∃ values', sampleMemory (E (k + 1) .next) agg values = .ok (names.length, values') ∧ ahead (k + 1) names values'
  not_clear_zero : ¬ clear 0
  clear_succ : ∀ k names values names' values', now k names values → now (k + 1) names' values' →
    names'.length = names.length → clear (k + 1)

section
variable {T : Topology} {r : Nat} {E : Nat → When → Sampling} {clear : Nat → Prop}
variable {now ahead : Nat → List String → List Aggregators → Prop}

theorem samples_of_lists {P : List String → Prop}
    (hE : ∀ k w, ∃ names, names ≠ [] ∧ P names ∧ (E k w).Lists names) :
    Samples E (0 < ·) (fun _ names _ => P names) (fun _ names _ => P names) where
  fileNow k agg nr := by
    obtain ⟨names, hne, hp, hl⟩ := hE k .current
    obtain ⟨values, -, hs⟩ := sampleFile_total hl agg nr
    exact ⟨names, values, hne, hp, hs⟩
  fileAhead k agg nr := by
    obtain ⟨names, hne, hp, hl⟩ := hE k .next
    obtain ⟨values, -, hs⟩ := sampleFile_total hl agg nr
    exact ⟨names, values, _, hne, hp, hs⟩
  settle _ _ _ _ h := h
  memoryNow k agg names values hh hp := by
    obtain ⟨values', -, hs⟩ := sampleMemory_total (E k .current) hh values
    exact ⟨values', hs, hp⟩
  memoryAhead k agg names values _ hh hp := by
    obtain ⟨values', -, hs⟩ := sampleMemory_total (E (k + 1) .next) hh values
    exact ⟨values', hs, hp⟩
  not_clear_zero := Nat.lt_irrefl 0
  clear_succ k _ _ _ _ _ _ _ := Nat.succ_pos k

/-! ## The leaf loop -/

structure LeafContent (clear : Nat → Prop) (now : Nat → List String → List Aggregators → Prop) (s : LeafState) :
    Prop where
  submitted : ∀ k e, s.submitted[k]? = some e → Sampled (now k) e ∧ (e.updateFile = 0 → clear k)
  total : (s.counter = 0 ∧ s.aggregator.totalMetrics = 0) ∨
    ∃ k names values, s.counter = k + 1 ∧ now k names values ∧ s.aggregator.totalMetrics = names.length

theorem leafContent_init : LeafContent clear now (startCommunication T r) where
  submitted k e h := by simp [startCommunication] at h
  total := Or.inl ⟨rfl, rfl⟩

theorem LeafContent.step {fin : Bool} {s : LeafState} (h : LeafContent clear now s) (hi : LeafInv T r s)
    (hE : Samples E clear now ahead) : ∃ s', leafPulse E fin s = .ok s' ∧ LeafContent clear now s' := by
  obtain ⟨names, values, hne, hnow, hs⟩ := hE.fileNow s.counter s.aggregator s.data.metricsNr
  have hp : ∃ s', leafPulse E fin s = .ok s' := by
    unfold leafPulse
    simp only [hs]
    exact ⟨_, rfl⟩
  obtain ⟨s', hp⟩ := hp
  refine ⟨s', hp, ?_⟩
  obtain ⟨agg, nr, values', b, hs', hc, hagg, hsub, hd⟩ := leafPulse_ok hp
  rw [hs] at hs'
  obtain ⟨rfl, rfl, rfl, rfl⟩ : _ ∧ _ ∧ _ ∧ _ := by simpa only [Except.ok.injEq, Prod.mk.injEq] using hs'
  refine ⟨?_, ?_⟩
  · intro k e hk
    rw [hsub] at hk
    cases getElem?_snoc hk with
    | inl hk => exact h.submitted k e hk
    | inr hlast =>
      obtain ⟨hlen, rfl⟩ := hlast
      rw [hi.length] at hlen
      subst hlen
      rw [hd]
      refine ⟨⟨names, hne, rfl, rfl, hnow⟩, fun hu => ?_⟩
      -- the flag is clear only when the file has as many names as before
      have hcount : (names.length : Int) = s.aggregator.totalMetrics := by
        by_cases hcount : (names.length : Int) = s.aggregator.totalMetrics
        · exact hcount
        · simp [hcount, hne] at hu
      cases h.total with
      | inl h0 =>
        rw [h0.2] at hcount
        exact absurd (List.length_eq_zero_iff.mp (by omega)) hne
      | inr hs =>
        obtain ⟨j, names₀, values₀, hj, hnow₀, ht⟩ := hs
        rw [hj] at hnow ⊢
        exact hE.clear_succ j names₀ values₀ names values hnow₀ hnow (by omega)
  · right
    exact ⟨s.counter, names, values, hc, hnow, by rw [hagg]⟩

/-! ## The own handler -/

structure OwnContent (clear : Nat → Prop) (now ahead : Nat → List String → List Aggregators → Prop) (s : OwnState) :
    Prop where
  data : 0 < s.counter → s.data.quit = 0 → ∃ names, s.aggregator.Holds names ∧ names ≠ [] ∧
    s.data.metricsNr = names.length ∧ s.data.contributions = [names.map some] ∧
      ahead s.counter names s.data.gatherInfo
  submitted : ∀ k e, s.submitted[k]? = some e → Sampled (now k) e ∧ (e.updateFile = 0 → clear k)

theorem ownContent_init : OwnContent clear now ahead {} where
  data h := absurd h (Nat.lt_irrefl 0)
  submitted k e h := by simp at h

theorem Samples.getNow (hE : Samples E clear now ahead) {agg : Aggregator} {e d : Metrics} {k : Nat}
    (hold : e.updateFile = 0 → ∃ names, agg.Holds names ∧ names ≠ [] ∧ now k names d.gatherInfo) :
    ∃ agg' d' names, getMetricsValues T r (E k .current) agg e k d = .ok (agg', d') ∧ agg'.Holds names ∧ names ≠ [] ∧
      d'.metricsNr = names.length ∧ d'.contributions = [names.map some] ∧ now k names d'.gatherInfo := by
  unfold getMetricsValues
  simp only
  by_cases hu : e.updateFile ≠ 0
  · obtain ⟨names, values, hne, hnow, hs⟩ := hE.fileNow k agg d.metricsNr
    rw [if_pos hu]
    simp only [hs]
    exact ⟨_, _, names, rfl, ⟨rfl, rfl⟩, hne, rfl, rfl, hnow⟩
  · obtain ⟨names, hh, hne, hnow⟩ := hold (Decidable.not_not.mp hu)
    obtain ⟨values', hs, hnow'⟩ := hE.memoryNow k agg names d.gatherInfo hh hnow
    rw [if_neg hu]
    simp only [hs]
    refine ⟨_, _, names, rfl, hh, hne, rfl, ?_, hnow'⟩
    rw [hh.desired, Option.getD_some]

theorem Samples.getAhead (hE : Samples E clear now ahead) {agg : Aggregator} {e d : Metrics} {k : Nat}
    {names : List String} (hk : e.updateFile = 0 → clear k) (hh : agg.Holds names) (hne : names ≠ [])
    (hnow : now k names d.gatherInfo) :
    ∃ agg' d' names, getMetricsValues T r (E (k + 1) .next) agg e (k + 1) d = .ok (agg', d') ∧ agg'.Holds names ∧
      names ≠ [] ∧ d'.metricsNr = names.length ∧ d'.contributions = [names.map some] ∧
      ahead (k + 1) names d'.gatherInfo := by
  unfold getMetricsValues
  simp only
  by_cases hu : e.updateFile ≠ 0
  · obtain ⟨names, values, b, hne, hahead, hs⟩ := hE.fileAhead (k + 1) agg d.metricsNr
    rw [if_pos hu]
    simp only [hs]
    exact ⟨_, _, names, rfl, ⟨rfl, rfl⟩, hne, rfl, rfl, hahead⟩
  · have hclear := hk (Decidable.not_not.mp hu)
    obtain ⟨values', hs, hahead⟩ := hE.memoryAhead k agg names d.gatherInfo hclear hh hnow
    rw [if_neg hu]
    simp only [hs]
    refine ⟨_, _, names, rfl, hh, hne, rfl, ?_, hahead⟩
    rw [hh.desired, Option.getD_some]

theorem OwnContent.close {s : OwnState} {e : Metrics} (h : OwnContent clear now ahead s)
    (hE : Samples E clear now ahead) (hlen : s.submitted.length = s.counter) (hrun : 0 < s.counter → s.data.quit = 0)
    (hz : e.updateFile = 0 → clear s.counter) :
    ∃ s', submitOwn T r E e s = .ok s' ∧ OwnContent clear now ahead s' := by
  -- without `update_file` this is not the first pulse, and the names are in memory
  have hold : e.updateFile = 0 → ∃ names, s.aggregator.Holds names ∧ names ≠ [] ∧ s.data.metricsNr = names.length ∧
      s.data.contributions = [names.map some] ∧ now s.counter names s.data.gatherInfo := by
    intro hu
    have hc := hz hu
    have h0 : 0 < s.counter := Nat.pos_of_ne_zero fun h0 => hE.not_clear_zero (h0 ▸ hc)
    obtain ⟨names, h1, h2, h3, h4, h5⟩ := h.data h0 (hrun h0)
    exact ⟨names, h1, h2, h3, h4, hE.settle _ _ _ hc h5⟩
  have hnow : ∃ s₁ names, (if s.firstPulse ∨ e.updateFile ≠ 0 ∨ e.quit ≠ 0 then
        ({ s with firstPulse := false } : OwnState).sample T r E .current e else .ok s) = .ok s₁ ∧
      s₁.counter = s.counter ∧ s₁.submitted = s.submitted ∧ (e.updateFile ≠ 0 → s₁.data.updateFile ≠ 0) ∧
      (e.quit ≠ 0 → s₁.data.quit ≠ 0) ∧ s₁.aggregator.Holds names ∧ names ≠ [] ∧
      s₁.data.metricsNr = names.length ∧ s₁.data.contributions = [names.map some] ∧
      now s.counter names s₁.data.gatherInfo := by
    by_cases hc : s.firstPulse ∨ e.updateFile ≠ 0 ∨ e.quit ≠ 0
    · obtain ⟨agg, d, names, hg, hd⟩ := hE.getNow (T := T) (r := r) (e := e) fun hu => by
        obtain ⟨names, h1, h2, -, -, h5⟩ := hold hu
        exact ⟨names, h1, h2, h5⟩
      obtain ⟨-, -, hq, hu⟩ := getMetricsValues_ok hg
      rw [if_pos hc, OwnState.sample, hg]
      exact ⟨_, names, rfl, rfl, rfl, fun h => hu ▸ h, fun h => hq ▸ h, hd⟩
    · have hu : e.updateFile = 0 := by
        by_cases hu : e.updateFile = 0
        · exact hu
        · exact absurd (Or.inr (Or.inl hu)) hc
      obtain ⟨names, hd⟩ := hold hu
      rw [if_neg hc]
      exact ⟨s, names, rfl, rfl, rfl, fun h => absurd hu h, fun h => absurd (Or.inr (Or.inr h)) hc, hd⟩
  obtain ⟨s₁, names, hs₁, hc₁, hsub₁, hu₁, hq₁, h1, h2, h3, h4, h5⟩ := hnow
  obtain ⟨agg, d, names', hg, hd⟩ := hE.getAhead (T := T) (r := r) hz h1 h2 h5
  have hahead : s₁.submit.sample T r E .next e = .ok { s₁.submit with aggregator := agg, data := d } := by
    have : s₁.submit.counter = s.counter + 1 := congrArg (· + 1) hc₁
    rw [OwnState.sample, this]
    simp only [OwnState.submit, hg, hc₁]
  have hlog : ∀ k o, (s₁.submitted ++ [s₁.data])[k]? = some o →
      Sampled (now k) o ∧ (o.updateFile = 0 → clear k) := by
    intro k o hk
    rw [hsub₁] at hk
    cases getElem?_snoc hk with
    | inl hk => exact h.submitted k o hk
    | inr hlast =>
      obtain ⟨rfl, rfl⟩ := hlast
      rw [hlen]
      refine ⟨⟨names, h2, h3, h4, h5⟩, fun hu => hz ?_⟩
      by_cases he : e.updateFile = 0
      · exact he
      · exact absurd hu (hu₁ he)
  unfold submitOwn
  simp only [hs₁]
  by_cases hq : e.quit ≠ 0
  · rw [if_pos hq]
    exact ⟨s₁.submit, rfl, ⟨fun _ hz => absurd hz (hq₁ hq), hlog⟩⟩
  · rw [if_neg hq, hahead]
    rw [← hc₁] at hd
    exact ⟨_, rfl, ⟨fun _ _ => ⟨names', hd⟩, hlog⟩⟩

/-- The handler on the events of the children, when these tell the truth about the
file: it never ends the process, and submits samplings made for their pulses. -/
theorem handleAll_content (hE : Samples E clear now ahead) {w : List (Nat × Metrics)}
    (hi : Interleaved Metrics.timestamp (T.children r) w) (hq : ∀ c ∈ T.children r, QuitLast (stream c w))
    (hD : 0 < T.getDegreeNode r) (hz : ∀ x ∈ w, x.2.updateFile = 0 → clear x.2.timestamp) :
    ∃ s, handleAll T r E (w.map Prod.snd) = .ok s ∧ OwnContent clear now ahead s := by
  induction w using List.reverseRecOn with
  | nil => exact ⟨{}, rfl, ownContent_init⟩
  | append_singleton w x ih =>
    obtain ⟨c, e⟩ := x
    obtain ⟨s, hs, hc⟩ := ih hi.left (quitLast_left hq) fun x hx => hz x (List.mem_append_left _ hx)
    have ho := (handleAll_ownInv (E := E) hi.left (quitLast_left hq) hD).2 s hs
    rw [List.map_append, List.map_singleton, handleAll_snoc, hs]
    change ∃ s', computeOwnMetrics T r E s e = .ok s' ∧ _
    rw [ho.compute hi]
    by_cases hf : (level Metrics.timestamp s.counter (w ++ [(c, e)])).length = T.getDegreeNode r
    · rw [if_pos hf]
      have ht := ho.closing_timestamp hi hf
      have hrec : OwnContent clear now ahead (s.receive e.timestamp) := ⟨hc.data, hc.submitted⟩
      have hrun := ho.running hi hq hf
      refine hrec.close hE ho.length hrun fun hu => ?_
      rw [receive_counter, ← ht]
      exact hz (c, e) (by simp) hu
    · rw [if_neg hf]
      exact ⟨_, rfl, hc.data, hc.submitted⟩

end

/-! ## The network -/

section
variable {T : Topology} {E : Nat → Nat → When → Sampling} {clear : Nat → Prop}
variable {now ahead : Nat → Nat → List String → List Aggregators → Prop} {σ σ' : Net} {a : Act} {r : Nat}

theorem getElem?_of_mem {l : List Metrics} {e : Metrics} (ho : InOrder Metrics.timestamp l) (h : e ∈ l) :
    l[e.timestamp]? = some e := by
  obtain ⟨k, hk⟩ := List.mem_iff_getElem?.mp h
  rw [inOrder_get _ ho hk]
  exact hk

theorem History.flags (h : History T E σ) (h2 : 2 ≤ T.nprocs) (hE : ∀ r, Samples (E r) clear (now r) (ahead r))
    (hl : ∀ r, LeafContent clear (now r) (σ.leaf r)) :
    ∀ r < T.nprocs, ∀ e ∈ σ.out T r, e.updateFile = 0 → clear e.timestamp := by
  refine T.child_induction fun r hr ih => ?_
  intro e he hu
  have ho := (h.sent h2 r hr).inOrder
  have hk := getElem?_of_mem ho he
  unfold NetOf.out at hk
  cases hleaf : T.isLeaf r with
  | true =>
    rw [hleaf] at hk
    exact ((hl r).submitted _ e hk).2 hu
  | false =>
    rw [hleaf] at hk
    have hn := h.inner h2 hleaf
    obtain ⟨a, rest, ha, -, -, hau, -⟩ := hn.settled.submitted_first (Nat.succ_pos _) hk
    have ham : a ∈ eventsAt e.timestamp ((σ.node r).arrived.map Prod.snd) := by rw [ha]; exact List.mem_cons_self ..
    obtain ⟨ham, hat⟩ := (mem_items _).mp ham
    obtain ⟨⟨i, a⟩, hx, rfl⟩ := List.mem_map.mp ham
    rw [hau] at hu
    rw [← hat]
    cases i with
    | some c =>
      have hc := mem_sources.mp (hn.arrived.tag _ hx)
      exact ih c hc a ((h.arrivedLe r c hc).subset (mem_stream.mpr hx)) hu
    | none =>
      have hmem := (h.arrivedOwn r).subset (mem_stream.mpr hx)
      have hz : ∀ x ∈ (σ.node r).handled, x.2.updateFile = 0 → clear x.2.timestamp := fun x hx =>
        have hc := hn.handled.tag x hx
        ih x.1 hc x.2 ((h.handledLe r x.1 hc).subset (mem_stream.mpr hx))
      obtain ⟨hi, hq⟩ := h.interleaved h2 (h.handledTag r) (h.handledLe r)
      obtain ⟨s, hs, hcon⟩ := handleAll_content (hE r) hi hq ((T.degree_pos_iff h2 r).mpr hleaf) hz
      rw [h.own r] at hs
      cases hs
      exact (hcon.submitted _ a (getElem?_of_mem hn.own.stamped hmem)).2 hu

theorem History.handle_content (h : History T E σ) (h2 : 2 ≤ T.nprocs)
    (hE : ∀ r, Samples (E r) clear (now r) (ahead r)) (hl : ∀ r, LeafContent clear (now r) (σ.leaf r))
    (hleaf : T.isLeaf r = false) {w : List (Nat × Metrics)} (ht : ∀ x ∈ w, x.1 ∈ T.children r)
    (hle : ∀ c ∈ T.children r, stream c w <+: σ.out T c) :
    ∃ s, handleAll T r (E r) (w.map Prod.snd) = .ok s ∧ OwnContent clear (now r) (ahead r) s := by
  obtain ⟨hi, hq⟩ := h.interleaved h2 ht hle
  refine handleAll_content (hE r) hi hq ((T.degree_pos_iff h2 r).mpr hleaf) fun x hx => ?_
  have hc := ht x hx
  exact h.flags h2 hE hl x.1 (T.lt_of_mem_children hc).2 x.2 ((hle x.1 hc).subset (mem_stream.mpr hx))

/-- The ranks with every event sampled for its pulse, and no process ended early. -/
structure Healthy (T : Topology) (E : Nat → Nat → When → Sampling) (clear : Nat → Prop)
    (now : Nat → Nat → List String → List Aggregators → Prop) (σ : Net) : Prop extends History T E σ where
  running : σ.halted = none
  leafContent : ∀ r, LeafContent clear (now r) (σ.leaf r)

theorem Healthy.step (h : Healthy T E clear now σ) (h2 : 2 ≤ T.nprocs)
    (hE : ∀ r, Samples (E r) clear (now r) (ahead r)) (hs : netStep T E σ a = some σ') :
    Healthy T E clear now σ' := by
  have hist := h.toHistory.step hs
  obtain ⟨hrun, hsteps⟩ := netStep_steps hs
  cases hsteps with
  | leafHalt r fin d hp =>
    have hstep : ∃ l', leafPulse (E r) fin (σ.leaf r) = .ok l' ∧ LeafContent clear (now r) l' :=
      (h.leafContent r).step (h.leaf r) (hE r)
    obtain ⟨l', hp', -⟩ := hstep
    rw [hp] at hp'
    cases hp'
  | ownHalt c r e d hc he ho =>
    have hleaf : T.isLeaf r = false := by
      obtain ⟨h0, hn, rfl⟩ := T.mem_children.mp hc
      exact T.parent_not_leaf h0 hn
    obtain ⟨htag, hle⟩ := h.toHistory.deliver hc he
    obtain ⟨s, hs, -⟩ := h.toHistory.handle_content h2 hE h.leafContent hleaf htag hle
    rw [List.map_append, List.map_singleton, handleAll_snoc, h.own r] at hs
    exact absurd (ho.symm.trans hs) nofun
  | leaf r fin l hr hl hq hp =>
    have hstep : ∃ l', leafPulse (E r) fin (σ.leaf r) = .ok l' ∧ LeafContent clear (now r) l' :=
      (h.leafContent r).step (h.leaf r) (hE r)
    obtain ⟨l', hp', hc⟩ := hstep
    rw [hp] at hp'
    cases hp'
    exact ⟨hist, hrun, setLeaf_forall (P := fun q l => LeafContent clear (now q) l) h.leafContent hc⟩
  | terminal c r e own hc he ho => exact ⟨hist, hrun, h.leafContent⟩
  | multi c r e hc he => exact ⟨hist, hrun, h.leafContent⟩
  | own r e hr hl he => exact ⟨hist, hrun, h.leafContent⟩
  | final _ e he => exact ⟨hist, hrun, h.leafContent⟩

theorem Reachable.healthy (h : Reachable T E σ) (h2 : 2 ≤ T.nprocs)
    (hE : ∀ r, Samples (E r) clear (now r) (ahead r)) : Healthy T E clear now σ := by
  obtain ⟨as, hs⟩ := h
  have h0 : Healthy T E clear now (netInit T) := ⟨history_init, rfl, fun _ => leafContent_init⟩
  exact Transition.exec_invariant _ (fun _ _ _ h hs => h.step h2 hE hs) h0 hs

theorem Healthy.ownContent (h : Healthy T E clear now σ) (h2 : 2 ≤ T.nprocs)
    (hE : ∀ r, Samples (E r) clear (now r) (ahead r)) (hl : T.isLeaf r = false) :
    OwnContent clear (now r) (ahead r) (σ.node r).own := by
  obtain ⟨s, hs, hc⟩ := h.toHistory.handle_content h2 hE h.leafContent hl (h.handledTag r) (h.handledLe r)
  rw [h.toHistory.own r] at hs
  cases hs
  exact hc

end

end Clarisse
