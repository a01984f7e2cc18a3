import Clarisse.Mixing

/-!
# The result buffer of the root

`final_result` allocates `monitoring_results` for the count of an event with
`update_file` and writes as many entries as the current event has metrics. Both
come from the sampling whose event was the first of its pulse all the way up,
which from pulse to pulse is that of another rank.
-/

namespace Clarisse

open Interleave

/-- `e` is the sampling of pulse `p` whose event came first at each stone on its way
to the stone of `r`. -/
inductive Leads (T : Topology) (σ : Net) (p : Nat) : Nat → Metrics → Prop where
  | leaf {r : Nat} {e : Metrics} (hl : T.isLeaf r = true) (he : (σ.leaf r).submitted[p]? = some e) :
      Leads T σ p r e
  | own {r : Nat} {e : Metrics} (hl : T.isLeaf r = false)
      (he : (level Metrics.timestamp p (σ.node r).arrived).head? = some (none, e)) : Leads T σ p r e
  | child {r c : Nat} {x e : Metrics} (hl : T.isLeaf r = false)
      (hx : (level Metrics.timestamp p (σ.node r).arrived).head? = some (some c, x)) (hc : Leads T σ p c e) :
      Leads T σ p r e

structure Allocates (T : Topology) (σ : Net) (p q : Nat) (a : Metrics) : Prop where
  le : q ≤ p
  leads : Leads T σ q 0 a
  set : q = 0 ∨ a.updateFile ≠ 0
  last : ∀ t e, q < t → t ≤ p → Leads T σ t 0 e → e.updateFile = 0

/-- The sampling that leads the next pulse counts no more metrics than the one for
which `final_result` allocates last. -/
def CountFits (T : Topology) (σ : Net) : Act → Prop
  | .final => ∀ e q a, Leads T σ σ.root.pulse 0 e → Allocates T σ σ.root.pulse q a →
      e.metricsNr.toNat ≤ a.metricsNr.toNat
  | _ => True

section
variable {T : Topology} {E : Nat → Nat → When → Sampling} {σ : Net} {p q r : Nat} {a e : Metrics}

theorem Leads.unique {e' : Metrics} (h : Leads T σ p r e) (h' : Leads T σ p r e') : e = e' := by
  induction h with
  | leaf hl he =>
    cases h' with
    | leaf _ he' => exact Option.some.inj (he.symm.trans he')
    | own hl' _ => rw [hl] at hl'; cases hl'
    | child hl' _ _ => rw [hl] at hl'; cases hl'
  | own hl he =>
    cases h' with
    | leaf hl' _ => rw [hl] at hl'; cases hl'
    | own _ he' => rw [he] at he'; cases he'; rfl
    | child _ hx _ => rw [he] at hx; cases hx
  | child hl hx _ ih =>
    cases h' with
    | leaf hl' _ => rw [hl] at hl'; cases hl'
    | own _ he => rw [hx] at he; cases he
    | child _ hx' hc' =>
      rw [hx] at hx'
      cases hx'
      exact ih hc'

theorem Allocates.unique {q' : Nat} {a' : Metrics} (h : Allocates T σ p q a) (h' : Allocates T σ p q' a') :
    a = a' := by
  have key : ∀ {q q' : Nat} {a a' : Metrics}, Allocates T σ p q a → Allocates T σ p q' a' → q ≤ q' := by
    intro q q' a a' h h'
    refine Nat.le_of_not_lt fun hlt => ?_
    have h0 := h'.last q a hlt h.le h.leads
    cases h.set with
    | inl hz => omega
    | inr hu => exact hu h0
  obtain rfl := Nat.le_antisymm (key h h') (key h' h)
  exact h.leads.unique h'.leads

theorem History.leads (h : History T E σ) (h2 : 2 ≤ T.nprocs) : ∀ r < T.nprocs, ∀ x, (σ.out T r)[p]? = some x →
    ∃ e, Leads T σ p r e ∧ x.metricsNr = e.metricsNr ∧ x.updateFile = e.updateFile := by
  refine T.child_induction fun r hr ih => ?_
  intro x hx
  unfold NetOf.out at hx
  cases hl : T.isLeaf r with
  | true =>
    rw [hl] at hx
    exact ⟨x, .leaf hl hx, rfl, rfl⟩
  | false =>
    rw [hl] at hx
    have hn := h.inner h2 hl
    obtain ⟨a, rest, ha, hnr, -, hu, -⟩ := hn.settled.submitted_first (Nat.succ_pos _) hx
    rw [eventsAt, ← level_items] at ha
    obtain ⟨⟨i, a⟩, l, hlev, rfl, -⟩ := List.map_eq_cons_iff.mp ha
    have hhead : (level Metrics.timestamp p (σ.node r).arrived).head? = some (i, a) := by rw [hlev]; rfl
    cases i with
    | none => exact ⟨a, .own hl hhead, hnr, hu⟩
    | some c =>
      -- the first event is the one that the child has submitted for the pulse
      obtain ⟨hi, hget⟩ := hn.arrived.mem_level (List.mem_of_mem_head? hhead)
      have hc := mem_sources.mp hi
      have hout : (σ.out T c)[p]? = some a := by
        obtain ⟨v, hv⟩ := h.arrivedLe r c hc
        rw [← hv, List.getElem?_append_left (List.getElem?_eq_some_iff.mp hget).1]
        exact hget
      obtain ⟨e, he, h3, h4⟩ := ih c hc a hout
      exact ⟨e, .child hl hhead he, hnr.trans h3, hu.trans h4⟩

theorem foldl_allocated (nprocs : Nat) {l : List Metrics} (hl : l ≠ []) :
    ∃ (q : Nat) (a : Metrics), l[q]? = some a ∧ (q = 0 ∨ a.updateFile ≠ 0) ∧
      (∀ t x, q < t → l[t]? = some x → x.updateFile = 0) ∧
      (l.foldl (finalResult nprocs) {}).monitoringResults.length = a.metricsNr.toNat := by
  induction l using List.reverseRecOn with
  | nil => exact absurd rfl hl
  | append_singleton l e ih =>
    have hpulse := foldl_pulse nprocs l
    rw [List.foldl_append, List.foldl_cons, List.foldl_nil]
    simp only [finalResult, writeResults_length]
    by_cases hset : l.length = 0 ∨ e.updateFile ≠ 0
    · refine ⟨l.length, e, List.getElem?_concat_length, hset, fun t x ht hx => ?_, ?_⟩
      · have := (List.getElem?_eq_some_iff.mp hx).1
        rw [List.length_append, List.length_singleton] at this
        omega
      · rw [allocResults, hpulse, if_pos hset, List.length_replicate]
    · obtain ⟨h0, hu⟩ := not_or.mp hset
      obtain ⟨q, a, hq, hqs, hlast, hlen⟩ := ih fun hn => h0 (by rw [hn]; rfl)
      have hlt := (List.getElem?_eq_some_iff.mp hq).1
      refine ⟨q, a, by rw [List.getElem?_append_left hlt]; exact hq, hqs, fun t x ht hx => ?_, ?_⟩
      · cases getElem?_snoc hx with
        | inl hx => exact hlast t x ht hx
        | inr hx =>
          rw [hx.2]
          exact not_not.mp hu
      · rw [allocResults, hpulse, if_neg hset]
        exact hlen

theorem History.allocates (h : History T E σ) (h2 : 2 ≤ T.nprocs) {event : Metrics}
    (he : (σ.out T 0)[σ.root.pulse]? = some event) :
    ∃ q a, Allocates T σ σ.root.pulse q a ∧ (allocResults σ.root event).length = a.metricsNr.toNat := by
  have hlt := (List.getElem?_eq_some_iff.mp he).1
  have hsnoc : (σ.out T 0).take (σ.root.pulse + 1) = (σ.out T 0).take σ.root.pulse ++ [event] := by
    rw [List.take_add_one, he, Option.toList_some]
  obtain ⟨q, x, hq, hset, hlast, hlen⟩ := foldl_allocated T.nprocs (l := (σ.out T 0).take (σ.root.pulse + 1))
    (by rw [hsnoc]; simp)
  have hlead : ∀ t y, ((σ.out T 0).take (σ.root.pulse + 1))[t]? = some y →
      ∃ e, Leads T σ t 0 e ∧ y.metricsNr = e.metricsNr ∧ y.updateFile = e.updateFile := by
    intro t y hy
    have ht := (List.getElem?_eq_some_iff.mp hy).1
    rw [List.length_take] at ht
    rw [List.getElem?_take_of_lt (by omega)] at hy
    exact h.leads h2 0 (by omega) y hy
  obtain ⟨a, ha, hnr, hu⟩ := hlead q x hq
  have hqlt := (List.getElem?_eq_some_iff.mp hq).1
  rw [List.length_take] at hqlt
  refine ⟨q, a, ⟨by omega, ha, ?_, ?_⟩, ?_⟩
  · rw [← hu]
    exact hset
  · intro t e ht htp he'
    have hy : ((σ.out T 0).take (σ.root.pulse + 1))[t]? = some (σ.out T 0)[t] := by
      rw [List.getElem?_take_of_lt (by omega), List.getElem?_eq_getElem]
    obtain ⟨e', hl', -, hu'⟩ := hlead t _ hy
    rw [he'.unique hl', ← hu']
    exact hlast t _ ht hy
  · rw [hsnoc, List.foldl_append, ← h.root] at hlen
    rw [← hnr, ← hlen]
    exact (writeResults_length T.nprocs event _).symm

/-- In a run, `final_result` stays within its buffer iff at each of its calls the
sampling that leads the pulse fits the one that led the last allocation. -/
theorem finalResult_inRange_iff (h2 : 2 ≤ T.nprocs) {as : List Act}
    (hs : Transition.exec (netStep T E) (netInit T) as = some σ) :
    (∀ bs, bs ++ [.final] <+: as → ∀ m event, Transition.exec (netStep T E) (netInit T) bs = some m →
      (m.out T 0)[m.root.pulse]? = some event → event.metricsNr ≤ (allocResults m.root event).length) ↔
      Transition.Along (netStep T E) (CountFits T) (netInit T) as := by
  -- the events of `m`, in terms of the samplings that lead them
  have key : ∀ bs m event, Transition.exec (netStep T E) (netInit T) bs = some m →
      (m.out T 0)[m.root.pulse]? = some event →
        (event.metricsNr ≤ (allocResults m.root event).length ↔ CountFits T m .final) := by
    intro bs m event hm he
    have h : History T E m := Reachable.history ⟨bs, hm⟩
    obtain ⟨e, hlead, hnr, -⟩ := h.leads h2 0 (by omega) event he
    obtain ⟨q, a, ha, hlen⟩ := h.allocates h2 he
    rw [hlen, hnr, ← Int.toNat_le]
    refine ⟨fun hle e' q' a' he' ha' => ?_, fun hf => hf e q a hlead ha⟩
    rw [he'.unique hlead, ha'.unique ha]
    exact hle
  rw [Transition.along_iff_forall]
  refine ⟨?_, ?_⟩
  · intro hr bs act hb m hm
    cases act with
    | final =>
      obtain ⟨cs, rfl⟩ := hb
      rw [Transition.exec_append, Option.bind_eq_some_iff] at hs
      obtain ⟨m', hm', -⟩ := hs
      obtain ⟨m'', hm'', hstep⟩ := Transition.exec_snoc _ hm'
      rw [hm] at hm''
      cases hm''
      cases (netStep_steps hstep).2 with
      | final _ event he => exact (key bs m event hm he).mp (hr bs (List.prefix_append _ _) m event hm he)
    | _ => trivial
  · intro hc bs hb m event hm he
    exact (key bs m event hm he).mpr (hc bs .final hb m hm)

end

def growth : List Act := chainPulse ++ [.final] ++ chainPulse ++ [.final]

theorem finalResult_inRange_iff_growth :
    ∃ σ, Transition.exec (netStep chain added) (netInit chain) growth = some σ ∧
      ((∀ bs, bs ++ [.final] <+: growth → ∀ m event,
        Transition.exec (netStep chain added) (netInit chain) bs = some m →
          (m.out chain 0)[m.root.pulse]? = some event → event.metricsNr ≤ (allocResults m.root event).length) ↔
        Transition.Along (netStep chain added) (CountFits chain) (netInit chain) growth) :=
  ⟨_, rfl, finalResult_inRange_iff (by decide) rfl⟩

/-- A metric is added; leaf 1 first sees it for pulse 1, leaf 2 for pulse 2. -/
def staggered (rank k : Nat) (_ : When) : Sampling :=
  .constant (if k < rank then ["load"] else ["load", "free"]) 0

theorem edits_staggered : Edits staggered addedNames where
  wellFormed i := by
    unfold addedNames
    split <;> simp
  reads r := by
    refine ⟨fun k _ => if k < r then 0 else 1, fun k => ⟨Nat.le_refl _, ?_⟩, fun k w => ?_⟩
    · simp only
      split
      · exact Nat.zero_le _
      · rw [if_neg (by omega)]
    · by_cases h : k < r
      · simp only [staggered, if_pos h]
        exact ⟨rfl, rfl⟩
      · simp only [staggered, if_neg h]
        exact ⟨rfl, rfl⟩

def pulseLedBy (c : Nat) : List Act :=
  [.leaf 1 false, .leaf 2 false, .terminal 1, .terminal 2, .multi c, .multi (3 - c), .own 0]

theorem staggered_outOfRange :
    ¬ ∀ (T : Topology) (E : Nat → Nat → When → Sampling) (C : Nat → List String) (as : List Act) (m : Net)
      (event : Metrics), 2 ≤ T.nprocs → Edits E C → (∀ i, C (i + 1) ≠ C i → (C (i + 1)).length ≠ (C i).length) →
        Transition.exec (netStep T E) (netInit T) as = some m → (m.out T 0)[m.root.pulse]? = some event →
          event.metricsNr ≤ (allocResults m.root event).length := by
  intro h
  have hlen : ∀ i, addedNames (i + 1) ≠ addedNames i → (addedNames (i + 1)).length ≠ (addedNames i).length := by
    intro i hi
    cases i with
    | zero => decide
    | succ i => exact absurd rfl hi
  have hle := h twoLeaves staggered addedNames
    (pulseLedBy 1 ++ [.final] ++ pulseLedBy 2 ++ [.final] ++ pulseLedBy 1) _ _ (by decide) edits_staggered hlen rfl
    rfl
  exact absurd hle (by decide)

end Clarisse
