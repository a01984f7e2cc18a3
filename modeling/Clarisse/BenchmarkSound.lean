import Clarisse.Benchmark
import Clarisse.Relay
import Clarisse.StartTime

/-!
# The benchmarking build follows the ordinary one

But for the start times, which decide nothing, every step of the benchmarking
build is a step of the ordinary one in which each leaf is told to finish at its
last timestamp. So the events carry the timestamps and flags that the leaves
have sent, and all of these are below `max_timestamps`.
-/

namespace Clarisse

open Interleave

namespace Benchmark

/-! ## One rank -/

structure LeafEnds (maxTimestamps : Nat) (s : LeafState) : Prop where
  submitted : ∀ x ∈ s.submitted, x.timestamp < maxTimestamps ∧ (x.quit ≠ 0 ↔ x.timestamp + 1 = maxTimestamps)
  counter : s.data.quit = 0 → s.counter < maxTimestamps

/-- `countTimestamps` counts the events handled, as the table of the ordinary build does. -/
structure OwnFollows (maxTimestamps : Nat) (w : List (Nat × Metrics)) (s : OwnState) (t : Clarisse.OwnState) :
    Prop where
  same : ∃ table, t = { s.toOwnState with hashTs := table }
  length : s.countTimestamps.length = maxTimestamps
  counts : ∀ k < maxTimestamps, s.countTimestamps.getD k 0 = (level Metrics.timestamp k w).length

section
variable {maxTimestamps : Nat} {T : Topology} {r : Nat} {E : Nat → When → Sampling}

theorem LeafEnds.step {s s' : LeafState} (h : LeafEnds maxTimestamps s) (hq : s.data.quit = 0)
    (hs : Clarisse.leafPulse E (decide (s.counter + 1 = maxTimestamps)) s = .ok s') :
    LeafEnds maxTimestamps s' := by
  obtain ⟨agg, nr, values, b, -, hc, -, hsub, hd⟩ := leafPulse_ok hs
  have hlt := h.counter hq
  refine ⟨fun x hx => ?_, fun hz => ?_⟩
  · rw [hsub, List.mem_append, List.mem_singleton] at hx
    cases hx with
    | inl hx => exact h.submitted x hx
    | inr hx =>
      rw [hx, hd]
      refine ⟨hlt, ?_⟩
      by_cases hl : s.counter + 1 = maxTimestamps <;> simp [hl]
  · rw [hd] at hz
    rw [hc]
    by_cases hl : s.counter + 1 = maxTimestamps
    · simp [hl] at hz
    · omega

theorem leafPulse_follows (maxTimestamps : Nat) (E : Nat → When → Sampling) (startTime : Rat) {l m : LeafState}
    (h : l.untimed = m.untimed) (hq : m.data.quit = 0) :
    match leafPulse maxTimestamps E startTime l with
    | .error e => Clarisse.leafPulse E (decide (m.counter + 1 = maxTimestamps)) m = .error e
    | .ok l' => ∃ m', Clarisse.leafPulse E (decide (m.counter + 1 = maxTimestamps)) m = .ok m' ∧
        l'.untimed = m'.untimed := by
  obtain ⟨c, d, agg, sub⟩ := l
  obtain ⟨c', d', agg', sub'⟩ := m
  obtain ⟨rfl, hd, rfl, hsub⟩ := LeafState.mk.inj h
  have hf := sameFields hd
  unfold leafPulse Clarisse.leafPulse
  simp only at hq ⊢
  rw [hf.metricsNr]
  cases sampleFile (E c .current) agg d'.metricsNr with
  | error e => rfl
  | ok x =>
    refine ⟨_, rfl, ?_⟩
    have hquit : (if c + 1 = maxTimestamps then 1 else d.quit) =
        if decide (c + 1 = maxTimestamps) = true then 1 else 0 := by
      rw [hf.quit, hq]
      simp
    have hdata := untimed_filled hd (if decide (c + 1 = maxTimestamps) = true then 1 else 0) c x.2.1 x.2.2.1
      (if x.2.2.2 then 1 else 0) [x.1.desiredMetrics.getD []]
    simp only [LeafState.untimed, List.map_append, List.map_cons, List.map_nil, hquit]
    show LeafState.mk _ (Metrics.untimed (Metrics.filled d _ _ _ _ _ _)) _
      (_ ++ [Metrics.untimed (Metrics.filled d _ _ _ _ _ _)]) = _
    rw [hdata, hsub]
    rfl

theorem sample_follows {e e' : Metrics} (hf : SameFields e e') (own : Clarisse.OwnState) (table : Nat → Option Nat)
    (w : When) :
    ({ own with hashTs := table } : Clarisse.OwnState).sample T r E w e' =
      (own.sample T r E w e).map fun own' => { own' with hashTs := table } := by
  have hg : getMetricsValues T r (E own.counter w) own.aggregator e' own.counter own.data =
      getMetricsValues T r (E own.counter w) own.aggregator e own.counter own.data := by
    unfold getMetricsValues
    rw [hf.updateFile, hf.quit]
  unfold Clarisse.OwnState.sample
  simp only [hg]
  cases getMetricsValues T r (E own.counter w) own.aggregator e own.counter own.data <;> rfl

theorem submitOwn_follows (T : Topology) (r maxTimestamps : Nat) (E : Nat → When → Sampling) {e e' : Metrics}
    (hf : SameFields e e') (own : Clarisse.OwnState) (table : Nat → Option Nat)
    (hstop : ∀ agg o,
      (own.firstPulse ∨ e'.updateFile ≠ 0 ∨ e'.quit ≠ 0 →
        getMetricsValues T r (E own.counter .current) own.aggregator e' own.counter own.data = .ok (agg, o)) →
      (¬ (own.firstPulse ∨ e'.updateFile ≠ 0 ∨ e'.quit ≠ 0) → o = own.data) →
        (o.timestamp + 1 = maxTimestamps ↔ e'.quit ≠ 0)) :
    match submitOwn T r maxTimestamps E e own with
    | .error d => Clarisse.submitOwn T r E e' { own with hashTs := table } = .error d
    | .ok own' => Clarisse.submitOwn T r E e' { own with hashTs := table } =
        .ok { own' with hashTs := Function.update table own.counter none } := by
  -- what follows the sampling for the current pulse, if there is one
  have hthen : ∀ own₁ : Clarisse.OwnState, own₁.counter = own.counter →
      (own₁.data.timestamp + 1 = maxTimestamps ↔ e'.quit ≠ 0) →
      match (if own₁.data.timestamp + 1 = maxTimestamps then .ok (submit own₁)
          else (submit own₁).sample T r E .next e) with
      | .error d =>
        (if e'.quit ≠ 0 then .ok (OwnState.submit { own₁ with hashTs := table })
          else (OwnState.submit { own₁ with hashTs := table }).sample T r E .next e') = Except.error d
      | .ok own' =>
        (if e'.quit ≠ 0 then .ok (OwnState.submit { own₁ with hashTs := table })
          else (OwnState.submit { own₁ with hashTs := table }).sample T r E .next e') =
          Except.ok { own' with hashTs := Function.update table own.counter none } := by
    intro own₁ hc hiff
    have hsub : Clarisse.OwnState.submit { own₁ with hashTs := table } =
        { submit own₁ with hashTs := Function.update table own.counter none } := by
      rw [← hc]
      rfl
    rw [hsub, sample_follows hf]
    by_cases hq : e'.quit ≠ 0
    · rw [if_pos (hiff.mpr hq), if_pos hq]
    · rw [if_neg fun h => hq (hiff.mp h), if_neg hq]
      cases (submit own₁).sample T r E .next e <;> rfl
  unfold submitOwn Clarisse.submitOwn
  simp only [← hf.updateFile, ← hf.quit] at hstop hthen ⊢
  by_cases hno : own.firstPulse ∨ e.updateFile ≠ 0 ∨ e.quit ≠ 0
  · rw [if_pos hno, if_pos hno]
    have hs := sample_follows (T := T) (r := r) (E := E) hf { own with firstPulse := false } table .current
    cases hm : ({ own with firstPulse := false } : Clarisse.OwnState).sample T r E .current e with
    | error d =>
      rw [hm] at hs
      simp only [hs]
      rfl
    | ok own₁ =>
      obtain ⟨agg, o, hg, rfl⟩ := sample_ok hm
      rw [hm] at hs
      simp only [hs]
      refine hthen { own with firstPulse := false, aggregator := agg, data := o } rfl
        (hstop agg o (fun _ => ?_) fun hn => absurd hno hn)
      rw [← hg]
      unfold getMetricsValues
      rw [hf.updateFile, hf.quit]
  · rw [if_neg hno, if_neg hno]
    exact hthen own rfl (hstop own.aggregator own.data (fun h => absurd h hno) fun _ => rfl)

variable {w : List (Nat × Metrics)} {c : Nat} {s : OwnState} {t : Clarisse.OwnState} {e e' : Metrics}

theorem OwnFollows.receive (h : OwnFollows maxTimestamps w s t) :
    (s.receive e.timestamp).countTimestamps.length = maxTimestamps ∧ ∀ k < maxTimestamps,
      (s.receive e.timestamp).countTimestamps.getD k 0 = (level Metrics.timestamp k (w ++ [(c, e)])).length := by
  refine ⟨by rw [OwnState.receive, List.length_set, h.length], fun k hk => ?_⟩
  rw [level_append, List.length_append, ← h.counts k hk, OwnState.receive, List.getD_eq_getElem?_getD]
  by_cases hkt : e.timestamp = k
  · subst hkt
    rw [List.getElem?_set_self (by rw [h.length]; exact hk)]
    simp [level]
  · rw [List.getElem?_set_ne hkt, ← List.getD_eq_getElem?_getD]
    simp [level, hkt]

theorem computeOwnMetrics_follows (h : OwnInv T r w t)
    (hi : Interleaved Metrics.timestamp (T.children r) (w ++ [(c, e')]))
    (hq : ∀ c' ∈ T.children r, QuitLast (stream c' (w ++ [(c, e')]))) (hs : OwnFollows maxTimestamps w s t)
    (hf : SameFields e e') (hlt : e'.timestamp < maxTimestamps)
    (hend : e'.quit ≠ 0 ↔ e'.timestamp + 1 = maxTimestamps) :
    match computeOwnMetrics T r maxTimestamps E s e with
    | .error d => Clarisse.computeOwnMetrics T r E t e' = .error d
    | .ok s' => ∃ t', Clarisse.computeOwnMetrics T r E t e' = .ok t' ∧
        OwnFollows maxTimestamps (w ++ [(c, e')]) s' t' := by
  obtain ⟨hlen, hcounts⟩ := hs.receive (c := c) (e := e')
  obtain ⟨table, rfl⟩ := hs.same
  have hle := h.counter_le_timestamp hi
  have hcounter : s.counter < maxTimestamps := Nat.lt_of_le_of_lt hle hlt
  rw [h.compute hi]
  unfold computeOwnMetrics
  rw [hf.timestamp]
  simp only [show (s.receive e'.timestamp).counter = s.counter from rfl, hcounts _ hcounter]
  by_cases hfull : (level Metrics.timestamp s.counter (w ++ [(c, e')])).length = T.getDegreeNode r
  · rw [if_pos hfull, if_pos hfull]
    have hstop := submitOwn_follows T r maxTimestamps E hf s.toOwnState
      (Clarisse.OwnState.receive { s.toOwnState with hashTs := table } e'.timestamp).hashTs
        fun agg o hanew hkept => by
        obtain ⟨-, ho, -⟩ := h.stamp hi hq hfull hanew hkept
        rw [ho, hend, h.closing_timestamp hi hfull]
    rw [show (s.receive e'.timestamp).toOwnState = s.toOwnState from rfl]
    cases hm : submitOwn T r maxTimestamps E e s.toOwnState with
    | error d =>
      rw [hm] at hstop
      exact hstop
    | ok own' =>
      rw [hm] at hstop
      exact ⟨_, hstop, ⟨_, rfl⟩, hlen, hcounts⟩
  · rw [if_neg hfull, if_neg hfull]
    exact ⟨_, rfl, ⟨_, rfl⟩, hlen, hcounts⟩

end

/-! ## The ranks together -/

def untimedLog {ι : Type} (w : List (ι × Metrics)) : List (ι × Metrics) := w.map fun x => (x.1, x.2.untimed)

structure NodeFollows (maxTimestamps : Nat) (n : Node) (m : Clarisse.Node) : Prop where
  arrived : untimedLog n.arrived = untimedLog m.arrived
  multi : n.multi.untimed = m.multi.untimed
  handled : untimedLog n.handled = untimedLog m.handled
  own : OwnFollows maxTimestamps m.handled n.own m.own

structure Follows (T : Topology) (E : Nat → Nat → When → Sampling) (maxTimestamps : Nat) (σ : Net)
    (τ : Clarisse.Net) : Prop where
  history : History T E τ
  leaf : ∀ r, (σ.leaf r).untimed = (τ.leaf r).untimed
  ends : ∀ r, LeafEnds maxTimestamps (τ.leaf r)
  node : ∀ r, NodeFollows maxTimestamps (σ.node r) (τ.node r)
  pulse : σ.root.pulse = τ.root.pulse
  halted : σ.halted = τ.halted

inductive Act.Matches : Act → Clarisse.Act → Prop
  | leaf (r : Nat) (startTime : Rat) (leafsFinished : Bool) : Matches (.leaf r startTime) (.leaf r leafsFinished)
  | terminal (c : Nat) : Matches (.terminal c) (.terminal c)
  | multi (c : Nat) : Matches (.multi c) (.multi c)
  | own (r : Nat) : Matches (.own r) (.own r)
  | final (endTime : Rat) : Matches (.final endTime) .final

/-- A leaf of the ordinary build sees `leafs_finished` at its last timestamp, and not before. -/
def QuitsAt (maxTimestamps : Nat) (τ : Clarisse.Net) : Clarisse.Act → Prop
  | .leaf r leafsFinished => leafsFinished = decide ((τ.leaf r).counter + 1 = maxTimestamps)
  | _ => True

theorem exists_matches (maxTimestamps : Nat) (τ : Clarisse.Net) (a : Act) :
    ∃ b, a.Matches b ∧ QuitsAt maxTimestamps τ b := by
  cases a with
  | leaf r startTime => exact ⟨_, .leaf r startTime _, rfl⟩
  | terminal c => exact ⟨_, .terminal c, trivial⟩
  | multi c => exact ⟨_, .multi c, trivial⟩
  | own r => exact ⟨_, .own r, trivial⟩
  | final endTime => exact ⟨_, .final endTime, trivial⟩

section
variable {maxTimestamps : Nat} {T : Topology} {E : Nat → Nat → When → Sampling} {σ σ' : Net} {τ : Clarisse.Net}
variable {r c : Nat} {e e' : Metrics}

theorem stream_length_untimed {ι : Type} [DecidableEq ι] {w w' : List (ι × Metrics)}
    (h : untimedLog w = untimedLog w') (i : ι) : (stream i w).length = (stream i w').length := by
  have key : ∀ v : List (ι × Metrics), (stream i v).length = (stream i (untimedLog v)).length := by
    intro v
    rw [stream, stream, untimedLog, List.filter_map, List.length_map, List.length_map, List.length_map]
    rfl
  rw [key w, key w', h]

theorem untimedLog_snoc {ι : Type} {w w' : List (ι × Metrics)} (h : untimedLog w = untimedLog w') (i : ι)
    (he : e.untimed = e'.untimed) : untimedLog (w ++ [(i, e)]) = untimedLog (w' ++ [(i, e')]) := by
  unfold untimedLog at h ⊢
  rw [List.map_append, List.map_append, h]
  simp [he]

theorem Follows.out (h : Follows T E maxTimestamps σ τ) (r : Nat) :
    (σ.out T r).map Metrics.untimed = (τ.out T r).map Metrics.untimed := by
  unfold NetOf.out
  split
  · exact congrArg LeafState.submitted (h.leaf r)
  · exact congrArg MultiState.submitted (h.node r).multi

theorem Follows.bound (h : Follows T E maxTimestamps σ τ) (h2 : 2 ≤ T.nprocs) (hr : r < T.nprocs)
    (he : e ∈ τ.out T r) : e.timestamp < maxTimestamps ∧ (e.quit ≠ 0 ↔ e.timestamp + 1 = maxTimestamps) := by
  obtain ⟨l, x, -, hx, ht, hq⟩ := h.history.fromLeaf h2 r hr e he
  rw [← ht, ← hq]
  exact (h.ends l).submitted x hx

theorem Follows.setNode (h : Follows T E maxTimestamps σ τ) {n : Node} {m : Clarisse.Node}
    (hist : History T E (τ.setNode r m)) (hn : NodeFollows maxTimestamps n m) :
    Follows T E maxTimestamps (σ.setNode r n) (τ.setNode r m) where
  history := hist
  leaf := h.leaf
  ends := h.ends
  node q := by
    by_cases hq : q = r
    · subst hq
      rw [setNode_node, setNode_node]
      exact hn
    · rw [setNode_node_of_ne m hq, setNode_node_of_ne n hq]
      exact h.node q
  pulse := h.pulse
  halted := h.halted

theorem Follows.setLeaf (h : Follows T E maxTimestamps σ τ) {l m : LeafState} (hist : History T E (τ.setLeaf r m))
    (hl : l.untimed = m.untimed) (hm : LeafEnds maxTimestamps m) :
    Follows T E maxTimestamps (σ.setLeaf r l) (τ.setLeaf r m) where
  history := hist
  leaf q := by
    by_cases hq : q = r
    · subst hq
      rw [setLeaf_leaf, setLeaf_leaf]
      exact hl
    · rw [setLeaf_leaf_of_ne m hq, setLeaf_leaf_of_ne l hq]
      exact h.leaf q
  ends q := setLeaf_forall (P := fun _ l => LeafEnds maxTimestamps l) h.ends hm q
  node := h.node
  pulse := h.pulse
  halted := h.halted

theorem Follows.halt (h : Follows T E maxTimestamps σ τ) (d : Halt)
    (hist : History T E { τ with halted := some d }) :
    Follows T E maxTimestamps { σ with halted := some d } { τ with halted := some d } where
  history := hist
  leaf := h.leaf
  ends := h.ends
  node := h.node
  pulse := h.pulse
  halted := rfl

theorem Follows.enqueue (h : Follows T E maxTimestamps σ τ) {i : Option Nat} (he : e.untimed = e'.untimed)
    (hist : History T E (τ.setNode r ((τ.node r).enqueue false i e'))) :
    Follows T E maxTimestamps (σ.setNode r ((σ.node r).enqueue true i e))
      (τ.setNode r ((τ.node r).enqueue false i e')) := by
  have hn := h.node r
  refine h.setNode hist ⟨untimedLog_snoc hn.arrived i he, ?_, hn.handled, hn.own⟩
  show (Clarisse.enqueue true (σ.node r).multi e).untimed = (Clarisse.enqueue false (τ.node r).multi e').untimed
  rw [← enqueue_untimed false true, ← enqueue_untimed false false, hn.multi, he]

theorem Follows.quit (h : Follows T E maxTimestamps σ τ) (r : Nat) :
    (σ.leaf r).data.quit = (τ.leaf r).data.quit :=
  (sameFields (congrArg LeafState.data (h.leaf r))).quit

theorem Follows.call (h : Follows T E maxTimestamps σ τ) (h2 : 2 ≤ T.nprocs) (hc : c ∈ T.children r)
    (he : (σ.out T c)[(stream c (σ.node r).handled).length]? = some e) :
    ∃ e', (τ.out T c)[(stream c (τ.node r).handled).length]? = some e' ∧ e.untimed = e'.untimed ∧
      OwnInv T r (τ.node r).handled (τ.node r).own ∧
      Interleaved Metrics.timestamp (T.children r) ((τ.node r).handled ++ [(c, e')]) ∧
      (∀ c' ∈ T.children r, QuitLast (stream c' ((τ.node r).handled ++ [(c, e')]))) ∧
      e'.timestamp < maxTimestamps ∧ (e'.quit ≠ 0 ↔ e'.timestamp + 1 = maxTimestamps) := by
  rw [stream_length_untimed (h.node r).handled] at he
  obtain ⟨e', he', hu⟩ := untimed_getElem (h.out c) he
  obtain ⟨htag, hle⟩ := h.history.deliver hc he'
  obtain ⟨hi, hq⟩ := h.history.interleaved h2 htag hle
  have hleaf : T.isLeaf r = false := by
    obtain ⟨h0, hlt, rfl⟩ := T.mem_children.mp hc
    exact T.parent_not_leaf h0 hlt
  exact ⟨e', he', hu, (h.history.inner h2 hleaf).own, hi, hq,
    h.bound h2 (T.lt_of_mem_children hc).2 (List.mem_of_getElem? he')⟩

theorem Follows.handles (h : Follows T E maxTimestamps σ τ) (h2 : 2 ≤ T.nprocs) (hc : c ∈ T.children r)
    (he : (σ.out T c)[(stream c (σ.node r).handled).length]? = some e) :
    ∃ e', (τ.out T c)[(stream c (τ.node r).handled).length]? = some e' ∧ e.untimed = e'.untimed ∧
      match computeOwnMetrics T r maxTimestamps (E r) (σ.node r).own e with
      | .error d => Clarisse.computeOwnMetrics T r (E r) (τ.node r).own e' = .error d
      | .ok s' => ∃ t', Clarisse.computeOwnMetrics T r (E r) (τ.node r).own e' = .ok t' ∧
          OwnFollows maxTimestamps ((τ.node r).handled ++ [(c, e')]) s' t' := by
  obtain ⟨e', he', hu, hinv, hi, hq, hlt, hend⟩ := h.call h2 hc he
  exact ⟨e', he', hu, computeOwnMetrics_follows hinv hi hq (h.node r).own (sameFields hu) hlt hend⟩

theorem Follows.step_matches (h : Follows T E maxTimestamps σ τ) (h2 : 2 ≤ T.nprocs) {a : Act} {b : Clarisse.Act}
    (hab : a.Matches b) (hb : QuitsAt maxTimestamps τ b) (hs : netStep T maxTimestamps E σ a = some σ') :
    ∃ τ', Clarisse.netStep T E τ b = some τ' ∧ Follows T E maxTimestamps σ' τ' := by
  obtain ⟨hhalt, hsteps⟩ := netStep_steps hs
  have hrun : ¬ τ.halted.isSome = true := by rw [← h.halted, hhalt]; exact Bool.false_ne_true
  cases hsteps with
  | leafHalt r startTime d hp hr hl hq =>
    cases hab with
    | leaf _ _ fin =>
      cases hb
      rw [h.quit] at hq
      have hfol := leafPulse_follows maxTimestamps (E r) startTime (h.leaf r) hq
      rw [hp] at hfol
      have hstep : Clarisse.netStep T E τ (.leaf r (decide ((τ.leaf r).counter + 1 = maxTimestamps))) =
          some { τ with halted := some d } := by
        simp only [Clarisse.netStep, NetOf.step, if_neg hrun, if_pos (And.intro hr (And.intro hl hq)), hfol]
      exact ⟨_, hstep, h.halt d (h.history.step hstep)⟩
  | leaf r startTime l hr hl hq hp =>
    cases hab with
    | leaf _ _ fin =>
      cases hb
      rw [h.quit] at hq
      have hfol := leafPulse_follows maxTimestamps (E r) startTime (h.leaf r) hq
      rw [hp] at hfol
      obtain ⟨m, hm, hlm⟩ := hfol
      have hstep : Clarisse.netStep T E τ (.leaf r (decide ((τ.leaf r).counter + 1 = maxTimestamps))) =
          some (τ.setLeaf r m) := by
        simp only [Clarisse.netStep, NetOf.step, if_neg hrun, if_pos (And.intro hr (And.intro hl hq)), hm]
      exact ⟨_, hstep, h.setLeaf (h.history.step hstep) hlm ((h.ends r).step hq hm)⟩
  | ownHalt c r e d hc he ho =>
    cases hab
    obtain ⟨e', he', -, hfol⟩ := h.handles h2 hc he
    rw [ho] at hfol
    obtain ⟨h0, hlt, rfl⟩ := T.mem_children.mp hc
    have hstep : Clarisse.netStep T E τ (.terminal c) = some { τ with halted := some d } := by
      simp only [Clarisse.netStep, NetOf.step, if_neg hrun, if_pos (And.intro h0 hlt), he', hfol]
    exact ⟨_, hstep, h.halt d (h.history.step hstep)⟩
  | terminal c r e own hc he ho =>
    cases hab
    obtain ⟨e', he', hu, hfol⟩ := h.handles h2 hc he
    rw [ho] at hfol
    obtain ⟨t, ht, hfollows⟩ := hfol
    obtain ⟨h0, hlt, rfl⟩ := T.mem_children.mp hc
    have hstep : Clarisse.netStep T E τ (.terminal c) =
        some (τ.setNode (T.parent c) ((τ.node (T.parent c)).handle c e' t)) := by
      simp only [Clarisse.netStep, NetOf.step, if_neg hrun, if_pos (And.intro h0 hlt), he', ht]
    have hn := h.node (T.parent c)
    exact ⟨_, hstep, h.setNode (h.history.step hstep)
      ⟨hn.arrived, hn.multi, untimedLog_snoc hn.handled c hu, hfollows⟩⟩
  | multi c r e hc he =>
    cases hab
    rw [stream_length_untimed (h.node r).arrived] at he
    obtain ⟨e', he', hu⟩ := untimed_getElem (h.out c) he
    obtain ⟨h0, hlt, rfl⟩ := T.mem_children.mp hc
    have hstep : Clarisse.netStep T E τ (.multi c) =
        some (τ.setNode (T.parent c) ((τ.node (T.parent c)).enqueue false (some c) e')) := by
      simp only [Clarisse.netStep, NetOf.step, if_neg hrun, if_pos (And.intro h0 hlt), he']
    exact ⟨_, hstep, h.enqueue hu (h.history.step hstep)⟩
  | own r e hr hl he =>
    cases hab
    obtain ⟨table, hown⟩ := (h.node r).own.same
    have hsub : (σ.node r).own.submitted = (τ.node r).own.submitted := by rw [hown]
    rw [stream_length_untimed (h.node r).arrived, hsub] at he
    have hstep : Clarisse.netStep T E τ (.own r) = some (τ.setNode r ((τ.node r).enqueue false none e)) := by
      simp only [Clarisse.netStep, NetOf.step, if_neg hrun, if_pos (And.intro hr hl), he]
    exact ⟨_, hstep, h.enqueue rfl (h.history.step hstep)⟩
  | final endTime e he =>
    cases hab
    rw [h.pulse] at he
    obtain ⟨e', he', -⟩ := untimed_getElem (h.out 0) he
    have hstep : Clarisse.netStep T E τ .final =
        some { τ with root := Clarisse.finalResult T.nprocs τ.root e' } := by
      simp only [Clarisse.netStep, NetOf.step, if_neg hrun, he']
    exact ⟨_, hstep, h.history.step hstep, h.leaf, h.ends, h.node, congrArg (· + 1) h.pulse, h.halted⟩

theorem Follows.step (h : Follows T E maxTimestamps σ τ) (h2 : 2 ≤ T.nprocs) {a : Act}
    (hs : netStep T maxTimestamps E σ a = some σ') :
    ∃ b τ', Clarisse.netStep T E τ b = some τ' ∧ Follows T E maxTimestamps σ' τ' := by
  obtain ⟨b, hab, hb⟩ := exists_matches maxTimestamps τ a
  obtain ⟨τ', hstep, hfollows⟩ := h.step_matches h2 hab hb hs
  exact ⟨b, τ', hstep, hfollows⟩

theorem follows_init (hmax : 1 ≤ maxTimestamps) :
    Follows T E maxTimestamps (netInit T maxTimestamps) (Clarisse.netInit T) where
  history := history_init
  leaf _ := rfl
  ends _ := ⟨fun _ he => absurd he List.not_mem_nil, fun _ => hmax⟩
  node _ := by
    refine ⟨rfl, rfl, rfl, ⟨_, rfl⟩, List.length_replicate, fun k hk => ?_⟩
    simp [netInit, Clarisse.netInit, level, List.getD_eq_getElem?_getD, hk]
  pulse := rfl
  halted := rfl

/-- Every run of the benchmarking build is one of the ordinary build. -/
theorem run_follows (h2 : 2 ≤ T.nprocs) (hmax : 1 ≤ maxTimestamps) {as : List Act}
    (hs : Transition.exec (netStep T maxTimestamps E) (netInit T maxTimestamps) as = some σ) :
    ∃ τ, Reachable T E τ ∧ Follows T E maxTimestamps σ τ := by
  obtain ⟨bs, τ, hb, hτ⟩ := Transition.exec_simulates _ (R := Follows T E maxTimestamps)
    (fun _ _ _ _ h hs => h.step h2 hs) (follows_init hmax) hs
  exact ⟨τ, ⟨bs, hb⟩, hτ⟩

/-! ## Indices -/

theorem record_length {endTime : Rat} {s : RootState}
    (h : s.pulse ≠ 0 → s.benchmarkingResults.length = maxTimestamps) :
    (record maxTimestamps endTime s e).length = maxTimestamps := by
  unfold record
  rw [List.length_set]
  split
  · exact List.length_replicate
  · exact h ‹_›

theorem table_length {as : List Act}
    (hs : Transition.exec (netStep T maxTimestamps E) (netInit T maxTimestamps) as = some σ) :
    σ.root.pulse ≠ 0 → σ.root.benchmarkingResults.length = maxTimestamps := by
  have hstep : ∀ σ a σ', (σ.root.pulse ≠ 0 → σ.root.benchmarkingResults.length = maxTimestamps) →
      netStep T maxTimestamps E σ a = some σ' →
        (σ'.root.pulse ≠ 0 → σ'.root.benchmarkingResults.length = maxTimestamps) := by
    intro σ a σ' h hs
    have hroot : σ'.root = σ.root ∨ ∃ endTime e, σ'.root = finalResult maxTimestamps endTime σ.root e := by
      cases (netStep_steps hs).2 with
      | final endTime e _ => exact Or.inr ⟨endTime, e, rfl⟩
      | _ => exact Or.inl rfl
    cases hroot with
    | inl hr => rw [hr]; exact h
    | inr hr =>
      obtain ⟨endTime, e, hr⟩ := hr
      rw [hr]
      exact fun _ => record_length h
  have h0 : (netInit T maxTimestamps).root.pulse ≠ 0 →
      (netInit T maxTimestamps).root.benchmarkingResults.length = maxTimestamps := fun h => absurd rfl h
  exact Transition.exec_invariant (netStep T maxTimestamps E)
    (I := fun σ => σ.root.pulse ≠ 0 → σ.root.benchmarkingResults.length = maxTimestamps) hstep h0 hs

/-- The next call of each handler indexes its array in range, an own event is stamped
with the counter, and the one of the last timestamp is the last. -/
structure ArraysInRange (T : Topology) (E : Nat → Nat → When → Sampling) (maxTimestamps : Nat) (σ : Net) :
    Prop where
  computeOwnMetrics : ∀ c, 0 < c → c < T.nprocs → ∀ e,
    (σ.out T c)[(stream c (σ.node (T.parent c)).handled).length]? = some e →
      (σ.node (T.parent c)).own.countTimestamps.length = maxTimestamps ∧ e.timestamp < maxTimestamps ∧
        (σ.node (T.parent c)).own.counter < maxTimestamps ∧
        ∀ own, Benchmark.computeOwnMetrics T (T.parent c) maxTimestamps (E (T.parent c)) (σ.node (T.parent c)).own e =
          .ok own → ∀ o, own.submitted = (σ.node (T.parent c)).own.submitted ++ [o] →
            o.timestamp = (σ.node (T.parent c)).own.counter
  finalResult : ∀ e, (σ.out T 0)[σ.root.pulse]? = some e →
    σ.root.pulse < maxTimestamps ∧ ∀ endTime, (record maxTimestamps endTime σ.root e).length = maxTimestamps
  last : ∀ r, T.isLeaf r = false → ∀ k o, (σ.node r).own.submitted[k]? = some o → o.timestamp + 1 = maxTimestamps →
    (σ.node r).own.submitted.length = k + 1

theorem Follows.call_inRange (h : Follows T E maxTimestamps σ τ) (h2 : 2 ≤ T.nprocs) (hc : c ∈ T.children r)
    (he : (σ.out T c)[(stream c (σ.node r).handled).length]? = some e) :
    e.timestamp < maxTimestamps ∧ (σ.node r).own.counter < maxTimestamps ∧
      ∀ own, computeOwnMetrics T r maxTimestamps (E r) (σ.node r).own e = .ok own →
        ∀ o, own.submitted = (σ.node r).own.submitted ++ [o] → o.timestamp = (σ.node r).own.counter := by
  obtain ⟨e', -, hu, hinv, hi, hq, hlt, hend⟩ := h.call h2 hc he
  have hf := sameFields hu
  obtain ⟨table, hown⟩ := (h.node r).own.same
  have hcounter : (τ.node r).own.counter = (σ.node r).own.counter := by rw [hown]
  have hsubmitted : (τ.node r).own.submitted = (σ.node r).own.submitted := by rw [hown]
  have hle := hinv.counter_le_timestamp hi
  refine ⟨hf.timestamp ▸ hlt, by omega, fun own ho o hso => ?_⟩
  have hfol := computeOwnMetrics_follows (E := E r) hinv hi hq (h.node r).own hf hlt hend
  rw [ho] at hfol
  obtain ⟨t, ht, hfollows⟩ := hfol
  obtain ⟨table', hsame⟩ := hfollows.same
  have hsub : t.submitted = (τ.node r).own.submitted ++ [o] := by
    rw [hsame, hsubmitted]
    exact hso
  have hstep := ((hinv.step hi hq).2 t ht).2
  split at hstep
  · rename_i hfull
    obtain ⟨o', ho', hts⟩ := hstep
    rw [hsub] at ho'
    obtain rfl : o = o' := by simpa using ho'
    rw [hts, hinv.closing_timestamp hi hfull, hcounter]
  · rw [hsub] at hstep
    simp at hstep

theorem arraysInRange (h2 : 2 ≤ T.nprocs) (hmax : 1 ≤ maxTimestamps) {as : List Act}
    (hs : Transition.exec (netStep T maxTimestamps E) (netInit T maxTimestamps) as = some σ) :
    ArraysInRange T E maxTimestamps σ := by
  obtain ⟨τ, -, h⟩ := run_follows h2 hmax hs
  refine ⟨fun c h0 hc e he => ?_, fun e he => ?_, fun r hl k o hk ho => ?_⟩
  · exact ⟨(h.node _).own.length, h.call_inRange h2 (T.mem_children.mpr ⟨h0, hc, rfl⟩) he⟩
  · obtain ⟨e', he', -⟩ := untimed_getElem (h.out 0) he
    have hlt := (h.bound h2 (by omega) (List.mem_of_getElem? he')).1
    rw [inOrder_get _ (h.history.sent h2 0 (by omega)).inOrder he'] at hlt
    exact ⟨hlt, fun endTime => record_length (table_length hs)⟩
  · obtain ⟨table, hown⟩ := (h.node r).own.same
    have hsub : (σ.node r).own.submitted = (τ.node r).own.submitted := by rw [hown]
    rw [hsub] at hk ⊢
    have hinv := (h.history.inner h2 hl).own
    -- it carries `quit`, after which no own event is submitted
    obtain ⟨l, x, -, hx, ht, hq⟩ := h.history.own_fromLeaf h2 hl
      (fun c hc => h.history.fromLeaf h2 c (T.lt_of_mem_children hc).2) o (List.mem_of_getElem? hk)
    have hquit : o.quit ≠ 0 := by
      rw [← hq]
      exact ((h.ends l).submitted x hx).2.mpr (by rw [ht]; exact ho)
    rw [hinv.length, (hinv.quits k o hk hquit).1]

end

def firstLeaf : List Act := [.leaf 1 5, .leaf 2 3, .terminal 1]

def afterFirstLeaf : Net :=
  (Transition.exec (netStep twoLeaves 1 loads) (netInit twoLeaves 1) firstLeaf).getD (netInit twoLeaves 1)

theorem arraysInRange_firstLeaf : ArraysInRange twoLeaves loads 1 afterFirstLeaf := by
  have hs : Transition.exec (netStep twoLeaves 1 loads) (netInit twoLeaves 1) firstLeaf =
      some afterFirstLeaf := rfl
  exact arraysInRange (by decide) (by decide) hs

end Benchmark

end Clarisse
