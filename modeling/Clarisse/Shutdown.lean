import Clarisse.Backlog
import Clarisse.Contents
import Clarisse.Relay

/-!
# The end of the run

The leaves stop one by one, each with an event whose `quit` is set. When nothing
is left to run, the last event that a rank has sent ends one of its streams; the
flag reaches the root when no stone drops it, that is when the first event of a
pulse has the flag of every later one, and the last event of a pulse finds the
others merged.
-/

namespace Clarisse

open Interleave

/-! ## The last event of a pulse -/

section
variable {b : Bool} {K : Nat} {es : List Metrics} {e : Metrics} {s : MultiState}

/-- The last event of a pulse closes it in its own run iff the others are merged
and the script has the degree of its rank. -/
theorem Settled.closes_iff (h : Settled b K es s) (hK : 2 ≤ K) (hst : Stair Metrics.timestamp K (es ++ [e]))
    (hw : Wide K (es ++ [e])) (he : e.timestamp = s.pulseTimestamp)
    (hl : (eventsAt s.pulseTimestamp es).length + 1 = K) :
    (Clarisse.enqueue b s e).pulseTimestamp = s.pulseTimestamp + 1 ↔
      s.count + 1 = K ∧ s.currentNodeDegree + 1 = K := by
  have hadv := (h.enqueue hK hst hw).2.1
  have hlen : (eventsAt s.pulseTimestamp (es ++ [e])).length = K := by
    rw [← hl, ← he, eventsAt, items_snoc_self, List.length_append, List.length_singleton]
  cases hes : eventsAt s.pulseTimestamp es with
  | nil => rw [hes, List.length_nil] at hl; omega
  | cons a rest =>
    have ha : (eventsAt s.pulseTimestamp es).head? = some a := by rw [hes]; rfl
    have ha' := eventsAt_head_append (v := [e]) ha
    have hle := h.count_le
    have hwide := hw.head ha'
    have hmove := hadv.move a ha' (by omega)
    have hdeg : s.currentNodeDegree = a.degree := by
      have hf : s.firstFoundIndex ≠ -1 := fun hf => by
        have := h.idle hf
        rw [hes] at this
        cases this
      obtain ⟨a', ha'', hd⟩ := (h.busy hf).degree
      rw [ha] at ha''
      cases ha''
      exact hd
    by_cases hc : s.count < a.degree
    · rw [if_pos hc] at hmove
      refine ⟨?_, ?_⟩
      · intro hp
        omega
      · intro hp
        omega
    · rw [if_neg hc] at hmove
      exact ⟨fun _ => by omega, fun _ => hmove.1⟩

theorem Settled.closed_step (h : Settled b K es s) (hK : 2 ≤ K) (hst : Stair Metrics.timestamp K (es ++ [e]))
    (hw : Wide K (es ++ [e])) (hopen : (eventsAt s.pulseTimestamp es).length ≠ K)
    (hm : (eventsAt e.timestamp es).length + 1 = K → s.count + 1 = K ∧ s.currentNodeDegree + 1 = K) :
    (eventsAt (Clarisse.enqueue b s e).pulseTimestamp (es ++ [e])).length ≠ K := by
  obtain ⟨hs', hadv, -⟩ := h.enqueue hK hst hw
  by_cases hlast : e.timestamp = s.pulseTimestamp ∧ (eventsAt s.pulseTimestamp es).length + 1 = K
  · obtain ⟨he, hl⟩ := hlast
    rw [(h.closes_iff hK hst hw he hl).mpr (hm (he ▸ hl)), eventsAt, items_snoc_of_ne _ _ (by omega)]
    exact Nat.ne_of_lt (hst.last.2 _ (by omega))
  · have hopen' : (eventsAt s.pulseTimestamp (es ++ [e])).length ≠ K := by
      by_cases he : e.timestamp = s.pulseTimestamp
      · rw [← he, eventsAt, items_snoc_self, List.length_append, List.length_singleton]
        exact fun hl => hlast ⟨he, he ▸ hl⟩
      · rw [eventsAt, items_snoc_of_ne _ _ he]
        exact hopen
    have hp : (Clarisse.enqueue b s e).pulseTimestamp ≤ s.pulseTimestamp := by
      rcases Nat.lt_or_ge s.pulseTimestamp (Clarisse.enqueue b s e).pulseTimestamp with hlt | hge
      · exact absurd (hs'.full _ hlt) hopen'
      · exact hge
    have hp' : s.pulseTimestamp ≤ (Clarisse.enqueue b s e).pulseTimestamp := by
      rw [← h.submitted_length, ← hs'.submitted_length]
      exact (enqueue_submitted b s e).length_le
    rw [Nat.le_antisymm hp hp']
    exact hopen'

theorem Settled.quit_lost {v : List Metrics} {t : Nat} {first x : Metrics} (h : Settled b K (es ++ v) s) (hK : 0 < K)
    (hf : (eventsAt t es).head? = some first) (hq : first.quit = 0) (hx : s.submitted[t]? = some x) :
    x.quit = 0 := by
  obtain ⟨a, rest, ha, -, -, -, -, -, -, hxq, -⟩ := h.submitted_first hK hx
  have := eventsAt_head_append (v := v) hf
  rw [ha] at this
  cases this
  rw [hxq, hq]

end

/-! ## One arrival -/

/-- The event `e`, next to arrive at the stone of `r`: the first event of its pulse
has its flag, and when it is the last of its pulse the others are merged. -/
structure Kept (T : Topology) (r : Nat) (n : Node) (e : Metrics) : Prop where
  quit : e.quit ≠ 0 → ∀ first ∈ (eventsAt e.timestamp (n.arrived.map Prod.snd)).head?, first.quit ≠ 0
  merged : (eventsAt e.timestamp (n.arrived.map Prod.snd)).length = T.getDegreeNode r →
    n.multi.count = T.getDegreeNode r ∧ n.multi.currentNodeDegree = T.getDegreeNode r

/-- No step of the run is an arrival that is not kept. -/
def ArrivesKept (T : Topology) (σ : Net) : Act → Prop
  | .multi c => ∀ e ∈ (σ.out T c)[(stream (some c) (σ.node (T.parent c)).arrived).length]?,
      Kept T (T.parent c) (σ.node (T.parent c)) e
  | .own r => ∀ e ∈ (σ.node r).own.submitted[(stream none (σ.node r).arrived).length]?, Kept T r (σ.node r) e
  | _ => True

instance (T : Topology) (r : Nat) (n : Node) (e : Metrics) : Decidable (Kept T r n e) :=
  decidable_of_iff (_ ∧ _) ⟨fun h => ⟨h.1, h.2⟩, fun h => ⟨h.quit, h.merged⟩⟩

instance (T : Topology) (σ : Net) : ∀ a, Decidable (ArrivesKept T σ a)
  | .multi c => inferInstanceAs (Decidable (∀ e ∈ (σ.out T c)[_]?, Kept T (T.parent c) (σ.node (T.parent c)) e))
  | .own r => inferInstanceAs (Decidable (∀ e ∈ (σ.node r).own.submitted[_]?, Kept T r (σ.node r) e))
  | .leaf .. => isTrue trivial
  | .terminal _ => isTrue trivial
  | .final => isTrue trivial

structure Prompt (T : Topology) (r : Nat) (n : Node) : Prop where
  current : (eventsAt n.multi.pulseTimestamp (n.arrived.map Prod.snd)).length ≠ T.getDegreeNode r + 1
  quit : ∀ e ∈ n.arrived.map Prod.snd, e.quit ≠ 0 →
    ∀ first ∈ (eventsAt e.timestamp (n.arrived.map Prod.snd)).head?, first.quit ≠ 0

section
variable {T : Topology} {E : Nat → Nat → When → Sampling} {σ σ' : Net} {r : Nat} {n : Node} {a : Act}

theorem Inner.wide (h : Inner T r n) : Wide (T.getDegreeNode r + 1) (n.arrived.map Prod.snd) := by
  intro e he
  obtain ⟨h1, h2, h3⟩ := h.header e he
  exact Nat.succ_le_succ (degree_ge h1 h2 h3)

theorem Prompt.enqueue {i : Option Nat} {e : Metrics} (h : Prompt T r n) (hn : Inner T r n)
    (hn' : Inner T r (n.enqueue false i e)) (hD : 0 < T.getDegreeNode r) (hk : Kept T r n e) :
    Prompt T r (n.enqueue false i e) := by
  have hmap : (n.enqueue false i e).arrived.map Prod.snd = n.arrived.map Prod.snd ++ [e] := by
    rw [NodeOf.enqueue, List.map_append, List.map_singleton]
  have hst := Interleaved.stair_sources hn'.arrived
  have hw := hn'.wide
  refine ⟨?_, ?_⟩
  · rw [hmap] at hst hw ⊢
    refine hn.settled.closed_step (by omega) hst hw h.current fun hl => ?_
    obtain ⟨h1, h2⟩ := hk.merged (by omega)
    omega
  · intro x hx hq first hf
    rw [hmap] at hx hf
    cases hold : (eventsAt x.timestamp (n.arrived.map Prod.snd)).head? with
    | some y =>
      -- the first event of the pulse is the one before
      rw [eventsAt_head_append hold] at hf
      cases hf
      rw [List.mem_append, List.mem_singleton] at hx
      cases hx with
      | inl hx => exact h.quit x hx hq _ hold
      | inr hx => exact hk.quit (hx ▸ hq) _ (hx ▸ hold)
    | none =>
      have hnil := List.head?_eq_none_iff.mp hold
      rw [List.mem_append, List.mem_singleton] at hx
      cases hx with
      | inl hx =>
        have : x ∈ eventsAt x.timestamp (n.arrived.map Prod.snd) := (mem_items _).mpr ⟨hx, rfl⟩
        rw [hnil] at this
        cases this
      | inr hx =>
        subst hx
        rw [eventsAt, items_snoc_self] at hf
        rw [eventsAt] at hnil
        rw [hnil] at hf
        cases hf
        exact hq

/-! ## The run -/

/-- Every sampling finds a well-formed file of at least one metric. -/
def WellFormed (E : Nat → When → Sampling) : Prop :=
  ∀ k w, ∃ names, names ≠ [] ∧ (E k w).Lists names

theorem WellFormed.samples {E : Nat → When → Sampling} (h : WellFormed E) :
    Samples E (0 < ·) (fun _ _ _ => True) (fun _ _ _ => True) := by
  refine samples_of_lists fun k w => ?_
  obtain ⟨names, hne, hl⟩ := h k w
  exact ⟨names, hne, trivial, hl⟩

structure Keeps (T : Topology) (E : Nat → Nat → When → Sampling) (σ : Net) : Prop
    extends Healthy T E (0 < ·) (fun _ _ _ _ => True) σ where
  prompt : ∀ r, T.isLeaf r = false → Prompt T r (σ.node r)

theorem keeps_init : Keeps T E (netInit T) where
  toHistory := history_init
  running := rfl
  leafContent _ := leafContent_init
  prompt r hl := by
    refine ⟨?_, fun _ he => absurd he List.not_mem_nil⟩
    change 0 ≠ T.getDegreeNode r + 1
    omega

theorem Keeps.step (h : Keeps T E σ) (h2 : 2 ≤ T.nprocs) (hE : ∀ r, WellFormed (E r)) (hk : ArrivesKept T σ a)
    (hs : netStep T E σ a = some σ') : Keeps T E σ' := by
  have hh := h.toHealthy.step h2 (fun r => (hE r).samples) hs
  refine ⟨hh, fun q hl => ?_⟩
  have hold := h.prompt q hl
  have harrive : ∀ r i e, σ' = σ.setNode r ((σ.node r).enqueue false i e) → Kept T r (σ.node r) e →
      Prompt T q (σ'.node q) := by
    intro r i e he hk
    by_cases hq : q = r
    · subst hq
      have hn' := hh.inner h2 hl
      rw [he, setNode_node] at hn' ⊢
      exact hold.enqueue (h.inner h2 hl) hn' ((T.degree_pos_iff h2 q).mpr hl) hk
    · rw [he, setNode_node_of_ne _ hq]
      exact hold
  cases (netStep_steps hs).2 with
  | leafHalt r fin d hp => exact hold
  | ownHalt c r e d hc he ho => exact hold
  | leaf r fin l hr hl hq hp => exact hold
  | final _ e he => exact hold
  | terminal c r e own hc he ho =>
    revert hl
    apply setNode_forall (P := fun q n => T.isLeaf q = false → Prompt T q n) h.prompt
    exact fun hl => ⟨(h.prompt r hl).current, (h.prompt r hl).quit⟩
  | multi c r e hc he =>
    obtain ⟨-, -, rfl⟩ := T.mem_children.mp hc
    exact harrive _ _ e rfl (hk e he)
  | own r e hr hlr he => exact harrive _ _ e rfl (hk e he)

/-! ## When nothing is left to run -/

/-- Every leaf has submitted its last event, and no step is enabled. -/
structure Quiescent (T : Topology) (E : Nat → Nat → When → Sampling) (σ : Net) : Prop where
  leaves : ∀ r < T.nprocs, T.isLeaf r = true → (σ.leaf r).data.quit ≠ 0
  idle : ∀ a, netStep T E σ a = none

theorem idle_iff : (∀ a, netStep T E σ a = none) ↔
    (∀ r < T.nprocs, ∀ a ∈ [ActOf.leaf r true, .leaf r false, .terminal r, .multi r, .own r],
      (netStep T E σ a).isNone = true) ∧ (netStep T E σ .final).isNone = true := by
  refine ⟨?_, ?_⟩
  · intro h
    exact ⟨fun r _ a _ => by rw [h a]; rfl, by rw [h .final]; rfl⟩
  · intro h a
    rw [← Option.isNone_iff_eq_none]
    obtain ⟨h, hf⟩ := h
    have hrank : ∀ r, ¬ r < T.nprocs → ∀ a ∈ [ActOf.leaf r true, .leaf r false, .terminal r, .multi r, .own r],
        (netStep T E σ a).isNone = true := by
      intro r hr a ha
      simp only [List.mem_cons, List.not_mem_nil, or_false] at ha
      rcases ha with rfl | rfl | rfl | rfl | rfl <;> simp [netStep, NetOf.step, hr]
    have hall : ∀ r, ∀ a ∈ [ActOf.leaf r true, .leaf r false, .terminal r, .multi r, .own r],
        (netStep T E σ a).isNone = true := fun r => if hr : r < T.nprocs then h r hr else hrank r hr
    cases a with
    | leaf r fin => cases fin <;> exact hall r _ (by simp)
    | terminal r => exact hall r _ (by simp)
    | multi r => exact hall r _ (by simp)
    | own r => exact hall r _ (by simp)
    | final => exact hf

instance : Decidable (Quiescent T E σ) :=
  decidable_of_iff (_ ∧ _) ⟨fun h => ⟨h.1, idle_iff.mpr h.2⟩, fun h => ⟨h.leaves, idle_iff.mp h.idle⟩⟩

theorem stream_complete {l m : List Metrics} (h : l <+: m) (hn : m[l.length]? = none) : l = m :=
  h.eq_of_length_le (List.getElem?_eq_none_iff.mp hn)

theorem Quiescent.handled (h : Quiescent T E σ) (hist : History T E σ) (hrun : σ.halted = none) {c : Nat}
    (hc : c ∈ T.children r) : stream c (σ.node r).handled = σ.out T c := by
  refine stream_complete (hist.handledLe r c hc) ?_
  obtain ⟨h0, hn, rfl⟩ := T.mem_children.mp hc
  have hidle := h.idle (.terminal c)
  unfold netStep NetOf.step at hidle
  simp only [hrun, Option.isSome_none, if_pos (And.intro h0 hn)] at hidle
  cases he : (σ.out T c)[(stream c (σ.node (T.parent c)).handled).length]? with
  | none => rfl
  | some e =>
    simp only [he] at hidle
    cases ho : computeOwnMetrics T (T.parent c) (E (T.parent c)) (σ.node (T.parent c)).own e with
    | error d => simp [ho] at hidle
    | ok own => simp [ho] at hidle

theorem Quiescent.arrived (h : Quiescent T E σ) (hist : History T E σ) (hrun : σ.halted = none) {c : Nat}
    (hc : c ∈ T.children r) : stream (some c) (σ.node r).arrived = σ.out T c := by
  refine stream_complete (hist.arrivedLe r c hc) ?_
  obtain ⟨h0, hn, rfl⟩ := T.mem_children.mp hc
  have hidle := h.idle (.multi c)
  unfold netStep NetOf.step at hidle
  simp only [hrun, Option.isSome_none, if_pos (And.intro h0 hn)] at hidle
  cases he : (σ.out T c)[(stream (some c) (σ.node (T.parent c)).arrived).length]? with
  | none => rfl
  | some e => simp [he] at hidle

theorem Quiescent.own (h : Quiescent T E σ) (hist : History T E σ) (hrun : σ.halted = none) (hr : r < T.nprocs)
    (hl : T.isLeaf r = false) : stream none (σ.node r).arrived = (σ.node r).own.submitted := by
  refine stream_complete (hist.arrivedOwn r) ?_
  have hidle := h.idle (.own r)
  unfold netStep NetOf.step at hidle
  simp only [hrun, Option.isSome_none, if_pos (And.intro hr hl)] at hidle
  cases he : (σ.node r).own.submitted[(stream none (σ.node r).arrived).length]? with
  | none => rfl
  | some e => simp [he] at hidle

def Ended (l : List Metrics) : Prop := ∃ e, l.getLast? = some e ∧ e.quit ≠ 0

theorem Quiescent.shortest (hq : Quiescent T E σ) (h : History T E σ) (hrun : σ.halted = none)
    (hn : Inner T r (σ.node r)) :
    ∃ c ∈ T.children r, (σ.out T c).length = (σ.node r).own.counter := by
  have hnot : ¬ ∀ c ∈ T.children r, (σ.node r).own.counter < (stream c (σ.node r).handled).length := fun hall =>
    absurd ((hn.own.counted _).mpr hall) (Nat.lt_irrefl _)
  simp only [Classical.not_forall, Nat.not_lt] at hnot
  obtain ⟨c, hm, hle⟩ := hnot
  refine ⟨c, hm, ?_⟩
  rw [← hq.handled h hrun hm]
  exact Nat.le_antisymm hle (hn.own.counter_le hm)

theorem Quiescent.full_iff (hq : Quiescent T E σ) (h : History T E σ) (hrun : σ.halted = none) (hr : r < T.nprocs)
    (hl : T.isLeaf r = false) (hn : Inner T r (σ.node r)) (t : Nat) :
    (eventsAt t ((σ.node r).arrived.map Prod.snd)).length = T.getDegreeNode r + 1 ↔ t < (σ.node r).own.counter := by
  have hnone : (stream none (σ.node r).arrived).length = (σ.node r).own.counter := by
    rw [hq.own h hrun hr hl, hn.own.length]
  rw [eventsAt_length, ← card_sources, hn.arrived.full_iff]
  refine ⟨?_, ?_⟩
  · intro hall
    rw [← hnone]
    exact hall none Finset.none_mem_insertNone
  · intro ht i hi
    cases i with
    | none => rw [hnone]; exact ht
    | some d =>
      have hd := mem_sources.mp hi
      rw [hq.arrived h hrun hd, ← hq.handled h hrun hd]
      exact (hn.own.counted t).mp ht d hd

theorem Keeps.out_length (h : Keeps T E σ) (h2 : 2 ≤ T.nprocs) (hq : Quiescent T E σ) (hr : r < T.nprocs)
    (hl : T.isLeaf r = false) : (σ.node r).multi.submitted.length = (σ.node r).own.counter := by
  have hn := h.inner h2 hl
  have hfull := hq.full_iff h.toHistory h.running hr hl hn
  rw [hn.settled.submitted_length]
  rcases Nat.lt_trichotomy (σ.node r).multi.pulseTimestamp (σ.node r).own.counter with hlt | heq | hgt
  · exact absurd ((hfull _).mpr hlt) (h.prompt r hl).current
  · exact heq
  · exact absurd ((hfull _).mp (hn.settled.full _ hgt)) (Nat.lt_irrefl _)

theorem getLast?_of_length {l : List Metrics} {k : Nat} (h : l.length = k + 1) : l.getLast? = l[k]? := by
  rw [List.getLast?_eq_getElem?, h, Nat.add_sub_cancel]

theorem Keeps.ended (h : Keeps T E σ) (h2 : 2 ≤ T.nprocs) (hq : Quiescent T E σ) (hr : r < T.nprocs)
    (hl : T.isLeaf r = false) (hc : ∀ c ∈ T.children r, Ended (σ.out T c)) : Ended (σ.out T r) := by
  have hn := h.inner h2 hl
  obtain ⟨c, hm, hlen⟩ := hq.shortest h.toHistory h.running hn
  obtain ⟨y, hy, hyq⟩ := hc c hm
  obtain ⟨k, hk⟩ : ∃ k, (σ.node r).own.counter = k + 1 := by
    refine Nat.exists_eq_succ_of_ne_zero fun h0 => ?_
    rw [List.length_eq_zero_iff.mp (hlen.trans h0)] at hy
    cases hy
  have hsub := (h.out_length h2 hq hr hl).trans hk
  rw [getLast?_of_length (hlen.trans hk)] at hy
  -- the events of pulse `k` at this rank
  have hyt : y.timestamp = k := inOrder_get _ (h.sent h2 c (T.lt_of_mem_children hm).2).inOrder hy
  have hmem : y ∈ (σ.node r).arrived.map Prod.snd := by
    have := List.mem_of_getElem? hy
    rw [← hq.arrived h.toHistory h.running hm] at this
    exact List.mem_map_of_mem (mem_stream.mp this)
  obtain ⟨x, hx⟩ : ∃ x, (σ.node r).multi.submitted[k]? = some x :=
    ⟨_, List.getElem?_eq_getElem (by omega)⟩
  obtain ⟨a, rest, ha, -, -, -, -, -, -, hxq, -⟩ := hn.settled.submitted_first (Nat.succ_pos _) hx
  refine ⟨x, ?_, ?_⟩
  · rw [NetOf.out, hl]
    exact (getLast?_of_length hsub).trans hx
  · rw [hxq]
    exact (h.prompt r hl).quit y hmem hyq a (by rw [hyt, ha]; rfl)

theorem Keeps.all_ended (h : Keeps T E σ) (h2 : 2 ≤ T.nprocs) (hq : Quiescent T E σ) :
    ∀ r < T.nprocs, Ended (σ.out T r) := by
  refine T.child_induction fun r hr ih => ?_
  cases hl : T.isLeaf r with
  | false => exact h.ended h2 hq hr hl ih
  | true =>
    have hlq := hq.leaves r hr hl
    have hpos : 0 < (σ.leaf r).counter := Nat.pos_of_ne_zero fun h0 => hlq ((h.leaf r).first h0)
    refine ⟨(σ.leaf r).data, ?_, hlq⟩
    rw [NetOf.out, hl]
    exact (h.leaf r).last hpos

theorem foldl_rootFinished {nprocs : Nat} {l : List Metrics} {s : RootState}
    (h : s.rootFinished = true ∨ ∃ e ∈ l, e.quit ≠ 0) : (l.foldl (finalResult nprocs) s).rootFinished = true := by
  induction l generalizing s with
  | nil =>
    cases h with
    | inl h => exact h
    | inr h =>
      obtain ⟨e, he, -⟩ := h
      cases he
  | cons x l ih =>
    rw [List.foldl_cons]
    apply ih
    cases h with
    | inl h => exact Or.inl (by simp [finalResult, h])
    | inr h =>
      obtain ⟨e, he, hq⟩ := h
      rw [List.mem_cons] at he
      cases he with
      | inl he => exact Or.inl (by simp [finalResult, ← he, hq])
      | inr he => exact Or.inr ⟨e, he, hq⟩

/-- In a run whose arrivals are kept, the root has finished when nothing is left to run. -/
theorem rootFinished_of_kept (h2 : 2 ≤ T.nprocs) (hE : ∀ r, WellFormed (E r)) {as : List Act}
    (hk : Transition.Along (netStep T E) (ArrivesKept T) (netInit T) as)
    (hs : Transition.exec (netStep T E) (netInit T) as = some σ) (hq : Quiescent T E σ) :
    σ.root.rootFinished = true := by
  have h : Keeps T E σ := Transition.along_invariant _ (fun _ _ _ h hk hs => h.step h2 hE hk hs) keeps_init hk hs
  obtain ⟨e, he, heq⟩ := h.all_ended h2 hq 0 (by omega)
  have hfinal : (σ.out T 0)[σ.root.pulse]? = none := by
    have hidle := hq.idle .final
    unfold netStep NetOf.step at hidle
    simp only [h.running, Option.isSome_none] at hidle
    cases hf : (σ.out T 0)[σ.root.pulse]? with
    | none => rfl
    | some x => simp [hf] at hidle
  rw [h.root, List.take_of_length_le (List.getElem?_eq_none_iff.mp hfinal)]
  exact foldl_rootFinished (Or.inr ⟨e, List.mem_of_getLast? he, heq⟩)

end

theorem wellFormed_loads (r : Nat) : WellFormed (loads r) :=
  fun _ _ => ⟨["load"], by simp, ⟨["load"], rfl, rfl⟩, rfl⟩

def afterRun (as : List Act) : Net :=
  (Transition.exec (netStep twoLeaves loads) (netInit twoLeaves) as).getD (netInit twoLeaves)

/-- Leaf 1 stops at pulse 0 and leaf 2 at pulse 1; the events of leaf 1 arrive first. -/
def heard : List Act :=
  [.leaf 1 true, .leaf 2 false, .leaf 2 true, .terminal 2, .terminal 1, .terminal 2, .multi 1, .multi 2, .own 0,
    .multi 2, .final]

theorem rootFinished_heard : (afterRun heard).root.rootFinished = true :=
  @rootFinished_of_kept twoLeaves loads _ (by decide) wellFormed_loads heard (by decide) rfl (by decide)

def unheard : List Act :=
  [.leaf 1 true, .leaf 2 false, .leaf 2 true, .terminal 2, .terminal 1, .terminal 2, .multi 2, .multi 1, .own 0,
    .multi 2, .final]

theorem unheard_not_finished :
    ¬ ∀ (T : Topology) (E : Nat → Nat → When → Sampling) (as : List Act) (σ : Net), 2 ≤ T.nprocs →
      (∀ r, WellFormed (E r)) → Transition.exec (netStep T E) (netInit T) as = some σ → Quiescent T E σ →
        σ.root.rootFinished = true := by
  intro h
  have hroot : (afterRun unheard).root.rootFinished = false := rfl
  have := h twoLeaves loads unheard (afterRun unheard) (by decide) wellFormed_loads rfl (by decide)
  rw [hroot] at this
  cases this

end Clarisse
