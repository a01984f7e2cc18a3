import Clarisse.MultiFunc

/-!
# What the multi stone has done after any arrivals

`Settled` relates the state between two runs to the events that have arrived:
the pulses below the current one are complete and submitted, the first `count`
events of the current one are merged, and everything else is still queued.
-/

namespace Clarisse

open Interleave

abbrev eventsAt (t : Nat) (es : List Metrics) : List Metrics := items Metrics.timestamp t es

/-! ## Scanning the queue -/

theorem findFrom_some {p i k : Nat} {q : List Metrics} (h : findFrom p i q = some k) :
    ∃ u x v, q = u ++ x :: v ∧ u.length = k ∧ x.timestamp = p ∧ i ≤ k ∧ ∀ y ∈ u.drop i, y.timestamp ≠ p := by
  unfold findFrom at h
  rw [Option.map_eq_some_iff] at h
  obtain ⟨m, hm, rfl⟩ := h
  rw [List.findIdx?_eq_some_iff_getElem] at hm
  obtain ⟨hlt, hx, hbefore⟩ := hm
  rw [List.length_drop] at hlt
  have hk : m + i < q.length := by omega
  refine ⟨q.take (m + i), q[m + i], q.drop (m + i + 1), ?_, ?_, ?_, by omega, ?_⟩
  · rw [List.getElem_cons_drop, List.take_append_drop]
  · rw [List.length_take]; omega
  · simpa [Nat.add_comm] using hx
  · intro y hy
    obtain ⟨j, hj, rfl⟩ := List.mem_iff_getElem.mp hy
    rw [List.length_drop, List.length_take] at hj
    have := hbefore j (by omega)
    simpa using this

theorem findFrom_none {p i : Nat} {q : List Metrics} (h : findFrom p i q = none) :
    ∀ y ∈ q.drop i, y.timestamp ≠ p := by
  unfold findFrom at h
  rw [Option.map_eq_none_iff, List.findIdx?_eq_none_iff] at h
  simpa using h

theorem eventsAt_nil_of {p : Nat} {q : List Metrics} (h : ∀ y ∈ q, y.timestamp ≠ p) : eventsAt p q = [] := by
  rw [eventsAt, items, List.filter_eq_nil_iff]
  intro y hy
  simpa using h y hy

theorem scan_spec {p i : Nat} {q : List Metrics} (hi : ∀ y ∈ q.take i, y.timestamp ≠ p) :
    (eventsAt p q = [] ∧ findFrom p i q = none) ∨
      ∃ u x v, q = u ++ x :: v ∧ findFrom p i q = some u.length ∧ eventsAt p q = x :: eventsAt p (u ++ v) ∧
        (∀ y ∈ u, y.timestamp ≠ p) ∧ ∀ t, t ≠ p → eventsAt t (u ++ v) = eventsAt t q := by
  cases hf : findFrom p i q with
  | none =>
    left
    refine ⟨eventsAt_nil_of fun y hy => ?_, rfl⟩
    rw [← List.take_append_drop i q, List.mem_append] at hy
    rcases hy with hy | hy
    · exact hi y hy
    · exact findFrom_none hf y hy
  | some k =>
    right
    obtain ⟨u, x, v, rfl, rfl, hx, hik, hu⟩ := findFrom_some hf
    have hu' : ∀ y ∈ u, y.timestamp ≠ p := by
      intro y hy
      rw [← List.take_append_drop i u, List.mem_append] at hy
      rcases hy with hy | hy
      · exact hi y (by rw [List.take_append_of_le_length hik]; exact hy)
      · exact hu y hy
    refine ⟨u, x, v, rfl, rfl, ?_, hu', ?_⟩
    · have := eventsAt_nil_of hu'
      simp only [eventsAt, items, List.filter_append, List.filter_cons, hx, decide_true, ite_true] at *
      simp [this]
    · intro t ht
      have : x.timestamp ≠ t := fun h => ht (h.symm.trans hx)
      simp [eventsAt, items, this]

theorem discard_at (u v : List Metrics) (x : Metrics) : discard (u ++ x :: v) (u.length : Int) = u ++ v := by
  rw [discard, if_neg (by omega), Int.toNat_natCast, List.eraseIdx_append_of_length_le (Nat.le_refl _)]
  simp

theorem getD_at (u v : List Metrics) (x : Metrics) : (u ++ x :: v).getD u.length default = x := by
  simp [List.getD_eq_getElem?_getD]

/-! ## The state in the middle of a pulse -/

/-- The current pulse is open: its first `count` events are merged. -/
structure Open (b : Bool) (es : List Metrics) (s : MultiState) : Prop where
  index : 0 ≤ s.firstFoundIndex
  index_le : s.firstFoundIndex.toNat ≤ s.queue.length
  some_merged : 0 < s.count
  merged : ∃ acc, s.aggregatedEvent = accumulate b s.pulseTimestamp ((eventsAt s.pulseTimestamp es).take s.count) acc
  before : ∀ y ∈ s.queue.take s.firstFoundIndex.toNat, y.timestamp ≠ s.pulseTimestamp
  degree : ∃ a, (eventsAt s.pulseTimestamp es).head? = some a ∧ s.currentNodeDegree = a.degree

/-- `s` after the arrivals `es`, anywhere between two passes of a run. -/
structure Mid (b : Bool) (K : Nat) (es : List Metrics) (s : MultiState) : Prop where
  submitted : s.submitted = (List.range s.pulseTimestamp).map fun t => aggregate b t (eventsAt t es)
  full : ∀ t < s.pulseTimestamp, (eventsAt t es).length = K
  count_le : s.count ≤ (eventsAt s.pulseTimestamp es).length
  past : ∀ t < s.pulseTimestamp, eventsAt t s.queue = []
  present : eventsAt s.pulseTimestamp s.queue = (eventsAt s.pulseTimestamp es).drop s.count
  future : ∀ t, s.pulseTimestamp < t → eventsAt t s.queue = eventsAt t es
  closed : s.firstFoundIndex = -1 → s.count = 0
  busy : s.firstFoundIndex ≠ -1 → Open b es s

/-- `s` between two runs. -/
structure Settled (b : Bool) (K : Nat) (es : List Metrics) (s : MultiState) : Prop extends Mid b K es s where
  idle : s.firstFoundIndex = -1 → eventsAt s.pulseTimestamp es = []
  waiting : s.firstFoundIndex ≠ -1 → s.count ≤ s.currentNodeDegree

def Wide (K : Nat) (es : List Metrics) : Prop := ∀ e ∈ es, K ≤ e.degree + 1

section
variable {b : Bool} {K : Nat} {es : List Metrics} {s : MultiState}

theorem settled_init : Settled b K [] {} where
  submitted := rfl
  full _ h := absurd h (Nat.not_lt_zero _)
  count_le := Nat.zero_le _
  past _ _ := rfl
  present := rfl
  future _ _ := rfl
  closed _ := rfl
  busy h := absurd rfl h
  idle _ := rfl
  waiting h := absurd rfl h

theorem Mid.open_spec (h : Mid b K es s) (hf : s.firstFoundIndex = -1) {a : Metrics} {rest : List Metrics}
    (ha : eventsAt s.pulseTimestamp es = a :: rest) :
    Mid b K es (openPulse s) ∧ (openPulse s).firstFoundIndex ≠ -1 ∧ (openPulse s).count = 1 ∧
      (openPulse s).pulseTimestamp = s.pulseTimestamp ∧ (openPulse s).currentNodeDegree = a.degree ∧
      (openPulse s).submitted = s.submitted := by
  have hc := h.closed hf
  have hq := h.present
  rw [hc, List.drop_zero, ha] at hq
  rcases scan_spec (p := s.pulseTimestamp) (i := 0) (q := s.queue) (by simp) with ⟨hn, -⟩ | hsc
  · rw [hq] at hn; cases hn
  obtain ⟨u, x, v, hs, hfind, hx, hu, ht⟩ := hsc
  rw [hq] at hx
  obtain ⟨rfl, hrest⟩ := List.cons.inj hx
  have ho : openPulse s =
      { s with
        aggregatedEvent := s.aggregatedEvent.first s.pulseTimestamp a
        maxDegree := a.maxDegree
        firstFoundIndex := (u.length : Int)
        currentNodeDegree := a.degree
        count := 1
        queue := u ++ v } := by
    unfold openPulse
    rw [hfind]
    simp only [hs, getD_at, discard_at]
    rfl
  rw [ho]
  refine ⟨?_, by simp, rfl, rfl, rfl, rfl⟩
  constructor
  · exact h.submitted
  · exact h.full
  · simp [ha]
  · intro t htp
    rw [ht t (Nat.ne_of_lt htp)]
    exact h.past t htp
  · simp only [ha, List.drop_one, List.tail_cons]
    exact hrest.symm
  · intro t htp
    rw [ht t (Nat.ne_of_gt htp)]
    exact h.future t htp
  · intro hneg
    simp only at hneg
    omega
  · intro _
    refine ⟨by simp, by simp, Nat.one_pos, ⟨s.aggregatedEvent, ?_⟩, ?_, ⟨a, ?_, rfl⟩⟩
    · simp [ha, accumulate]
    · intro y hy
      simp only [Int.toNat_natCast, List.take_left'] at hy
      exact hu y hy
    · simp [ha]

theorem Mid.merge_spec (h : Mid b K es s) (hf : s.firstFoundIndex ≠ -1) :
    if s.count < (eventsAt s.pulseTimestamp es).length then
      Mid b K es (mergeNext b s) ∧ (mergeNext b s).firstFoundIndex ≠ -1 ∧
        (mergeNext b s).count = s.count + 1 ∧ (mergeNext b s).pulseTimestamp = s.pulseTimestamp ∧
        (mergeNext b s).currentNodeDegree = s.currentNodeDegree ∧ (mergeNext b s).submitted = s.submitted
    else mergeNext b s = s := by
  have hb := h.busy hf
  have hq := h.present
  split
  · rename_i hlt
    rcases scan_spec hb.before with ⟨hn, -⟩ | hsc
    · rw [hq, List.drop_eq_nil_iff] at hn; omega
    obtain ⟨u, x, v, hs, hfind, hx, hu, ht⟩ := hsc
    rw [hq, List.drop_eq_getElem_cons hlt] at hx
    obtain ⟨rfl, hrest⟩ := List.cons.inj hx
    have hm : mergeNext b s =
        { s with
          aggregatedEvent := s.aggregatedEvent.merge b (eventsAt s.pulseTimestamp es)[s.count]
          count := s.count + 1
          firstFoundIndex := (u.length : Int)
          queue := u ++ v } := by
      unfold mergeNext
      rw [hfind]
      simp only [hs, getD_at, discard_at]
    rw [hm]
    refine ⟨?_, by simp, rfl, rfl, rfl, rfl⟩
    constructor
    · exact h.submitted
    · exact h.full
    · exact hlt
    · intro t htp
      rw [ht t (Nat.ne_of_lt htp)]
      exact h.past t htp
    · exact hrest.symm
    · intro t htp
      rw [ht t (Nat.ne_of_gt htp)]
      exact h.future t htp
    · intro hneg
      simp only at hneg
      omega
    · intro _
      obtain ⟨acc, hacc⟩ := hb.merged
      refine ⟨by simp, by simp, Nat.succ_pos _, ⟨acc, ?_⟩, ?_, hb.degree⟩
      · have hne : (eventsAt s.pulseTimestamp es).take s.count ≠ [] := by
          have := hb.some_merged
          rw [ne_eq, List.take_eq_nil_iff]
          intro he
          rcases he with he | he
          · omega
          · rw [he] at hlt; exact absurd hlt (Nat.not_lt_zero _)
        simp only
        rw [List.take_add_one, List.getElem?_eq_getElem hlt, Option.toList_some, accumulate_snoc b _ hne, hacc]
      · intro y hy
        simp only [Int.toNat_natCast, List.take_left'] at hy
        exact hu y hy
  · rename_i hge
    rcases scan_spec hb.before with ⟨-, hfind⟩ | hsc
    · unfold mergeNext; rw [hfind]
    · obtain ⟨u, x, v, -, -, hx, -, -⟩ := hsc
      rw [hq, List.drop_of_length_le (by omega)] at hx
      cases hx

theorem Mid.close_spec (h : Mid b K es s) (hf : s.firstFoundIndex ≠ -1) (hK : s.count = K)
    (hl : (eventsAt s.pulseTimestamp es).length ≤ K) : Mid b K es (closePulse s) := by
  have hb := h.busy hf
  have hlen : (eventsAt s.pulseTimestamp es).length = K := Nat.le_antisymm hl (hK ▸ h.count_le)
  obtain ⟨acc, hacc⟩ := hb.merged
  rw [List.take_of_length_le (by omega)] at hacc
  have hne : eventsAt s.pulseTimestamp es ≠ [] := by
    intro he
    have := hb.some_merged
    rw [he, List.length_nil] at hlen
    omega
  constructor
  · simp only [closePulse, h.submitted, List.range_succ, List.map_append, List.map_singleton]
    rw [hacc, aggregate, accumulate_event b _ hne acc default]
  · intro t ht
    rcases Nat.lt_succ_iff_lt_or_eq.mp ht with ht | ht
    · exact h.full t ht
    · rw [ht]; exact hlen
  · exact Nat.zero_le _
  · intro t ht
    rcases Nat.lt_succ_iff_lt_or_eq.mp ht with ht | ht
    · exact h.past t ht
    · rw [ht]
      simp only [closePulse]
      rw [h.present, List.drop_of_length_le (by omega)]
  · simp only [closePulse, List.drop_zero]
    exact h.future _ (Nat.lt_succ_self _)
  · intro t ht
    simp only [closePulse] at ht ⊢
    exact h.future t (by omega)
  · intro _; rfl
  · intro hne; exact absurd rfl hne

/-! ## One event is enqueued -/

theorem stair_items_le {K : Nat} {es : List Metrics} (h : Stair Metrics.timestamp K es) (t : Nat) :
    (eventsAt t es).length ≤ K := by
  induction es using List.reverseRecOn with
  | nil => exact Nat.zero_le _
  | append_singleton es e ih =>
    by_cases ht : e.timestamp = t
    · subst ht
      have := h.last.2 _ (Nat.le_refl _)
      rw [eventsAt, items_snoc_self, List.length_append, List.length_singleton]
      exact this
    · rw [eventsAt, items_snoc_of_ne _ _ ht]
      exact ih h.left

variable {e : Metrics}

theorem Mid.fresh (h : Mid b K es s) (hst : Stair Metrics.timestamp K (es ++ [e])) :
    s.pulseTimestamp ≤ e.timestamp := by
  rcases Nat.lt_or_ge e.timestamp s.pulseTimestamp with hlt | hge
  · have h1 := hst.last.2 e.timestamp (Nat.le_refl _)
    have h2 := h.full e.timestamp hlt
    exact absurd h2 (Nat.ne_of_lt h1)
  · exact hge

theorem Mid.arrive (h : Mid b K es s) (hst : Stair Metrics.timestamp K (es ++ [e])) :
    Mid b K (es ++ [e]) (s.push e) := by
  have hP := h.fresh hst
  have hold : ∀ t, t < s.pulseTimestamp → eventsAt t (es ++ [e]) = eventsAt t es := fun t ht =>
    items_snoc_of_ne _ _ (by omega)
  have hsnoc : ∀ t, eventsAt t (es ++ [e]) = eventsAt t es ++ if e.timestamp = t then [e] else [] := fun t =>
    items_snoc _ _ _ _
  constructor
  · rw [push_submitted, push_pulse, h.submitted]
    apply List.map_congr_left
    intro t ht
    rw [hold t (List.mem_range.mp ht)]
  · intro t ht
    rw [hold t ht]; exact h.full t ht
  · rw [push_count, push_pulse, hsnoc, List.length_append]
    exact Nat.le_add_right_of_le h.count_le
  · intro t ht
    rw [push_pulse] at ht
    rw [push_queue, eventsAt, items_snoc_of_ne _ _ (by omega)]
    exact h.past t ht
  · have hq : eventsAt s.pulseTimestamp (s.queue ++ [e]) =
        eventsAt s.pulseTimestamp s.queue ++ if e.timestamp = s.pulseTimestamp then [e] else [] := items_snoc _ _ _ _
    rw [push_queue, push_pulse, push_count, hq, hsnoc, h.present, List.drop_append_of_le_length h.count_le]
  · intro t ht
    have hq : eventsAt t (s.queue ++ [e]) = eventsAt t s.queue ++ if e.timestamp = t then [e] else [] :=
      items_snoc _ _ _ _
    rw [push_queue, hq, hsnoc, h.future t ht]
  · exact h.closed
  · intro hf
    have hb := h.busy hf
    obtain ⟨acc, hacc⟩ := hb.merged
    obtain ⟨a, ha, hd⟩ := hb.degree
    refine ⟨hb.index, ?_, hb.some_merged, ⟨acc, ?_⟩, ?_, ⟨a, ?_, hd⟩⟩
    · rw [push_queue, List.length_append]
      exact Nat.le_add_right_of_le hb.index_le
    · rw [push_pulse, push_count, hsnoc, List.take_append_of_le_length h.count_le]
      exact hacc
    · intro y hy
      rw [push_queue, push_index, List.take_append_of_le_length hb.index_le] at hy
      exact hb.before y hy
    · rw [push_pulse, hsnoc]
      cases he : eventsAt s.pulseTimestamp es with
      | nil => rw [he] at ha; cases ha
      | cons x l => rw [he] at ha; exact ha

/-- How one run moves the pulse and the count: it merges the next event of the
pulse, if there is one; when that completes the pulse, it opens the next one. -/
structure Advance (es : List Metrics) (s s' : MultiState) : Prop where
  stay : s.count = (eventsAt s.pulseTimestamp es).length → s'.pulseTimestamp = s.pulseTimestamp ∧ s'.count = s.count
  move : ∀ a, (eventsAt s.pulseTimestamp es).head? = some a → s.count < (eventsAt s.pulseTimestamp es).length →
    if s.count < a.degree then s'.pulseTimestamp = s.pulseTimestamp ∧ s'.count = s.count + 1
    else s'.pulseTimestamp = s.pulseTimestamp + 1 ∧
      s'.count = min 1 (eventsAt (s.pulseTimestamp + 1) es).length

def DegreeOfFirst (es : List Metrics) (s : MultiState) : Prop :=
  ∃ t a, (eventsAt t es).head? = some a ∧ s.currentNodeDegree = a.degree

theorem passes_stop {s₁ : MultiState} {k : Nat} (h : pass b s = (s₁, false)) : passes b (k + 1) s = [s₁] := by
  simp [passes, h]

theorem passes_goto {s₁ s₂ : MultiState} {k : Nat} (h : pass b s = (s₁, true)) (h' : pass b s₁ = (s₂, false)) :
    passes b (k + 2) s = [s₁, s₂] := by
  simp [passes, h, h']

theorem pass_of_take {s₁ : MultiState} (h : takeEvent b s = s₁) :
    pass b s =
      if s₁.count = s₁.currentNodeDegree + 1 then
        (closePulse s₁, s₁.queue.any fun a => a.timestamp = s₁.pulseTimestamp + 1)
      else (s₁, false) := by
  subst h; rfl

theorem pass_busy (hf : s.firstFoundIndex ≠ -1) (hc : s.count ≤ s.currentNodeDegree) :
    pass b s =
      if (mergeNext b s).count = (mergeNext b s).currentNodeDegree + 1 then
        (closePulse (mergeNext b s), (mergeNext b s).queue.any fun a =>
          a.timestamp = (mergeNext b s).pulseTimestamp + 1)
      else (mergeNext b s, false) := by
  refine pass_of_take ?_
  rw [takeEvent, if_neg hf, if_pos (by omega)]

theorem any_at (q : List Metrics) (t : Nat) : (q.any fun a => a.timestamp = t) = !(eventsAt t q).isEmpty := by
  cases h : eventsAt t q with
  | nil =>
    rw [eventsAt, items, List.filter_eq_nil_iff] at h
    rw [List.isEmpty_nil, Bool.not_true, List.any_eq_false]
    exact h
  | cons y l =>
    have hy : y ∈ eventsAt t q := by rw [h]; exact List.mem_cons_self ..
    obtain ⟨hy, hyt⟩ := (mem_items _).mp hy
    rw [List.isEmpty_cons, Bool.not_false, List.any_eq_true]
    exact ⟨y, hy, by simpa using hyt⟩

theorem Wide.head (hw : Wide K es) {t : Nat} {a : Metrics} (ha : (eventsAt t es).head? = some a) :
    K ≤ a.degree + 1 :=
  hw a ((mem_items _).mp (List.mem_of_mem_head? ha)).1

theorem Mid.pass_open (h : Mid b K es s) (hK : 2 ≤ K) (hw : Wide K es) (hf : s.firstFoundIndex = -1)
    (hne : eventsAt s.pulseTimestamp es ≠ []) :
    pass b s = (openPulse s, false) ∧ Settled b K es (openPulse s) ∧ (openPulse s).count = 1 ∧
      (openPulse s).pulseTimestamp = s.pulseTimestamp ∧ DegreeOfFirst es (openPulse s) := by
  cases ha : eventsAt s.pulseTimestamp es with
  | nil => exact absurd ha hne
  | cons a rest =>
    obtain ⟨hm, hf', hc, hp, hd, -⟩ := h.open_spec hf ha
    have hdeg := hw.head (t := s.pulseTimestamp) (a := a) (by rw [ha]; rfl)
    refine ⟨?_, ⟨hm, fun hn => absurd hn hf', fun _ => by omega⟩, hc, hp, s.pulseTimestamp, a, by rw [ha]; rfl, hd⟩
    rw [pass_of_take (show takeEvent b s = openPulse s by rw [takeEvent, if_pos hf]), if_neg (by omega)]

theorem Settled.idle_timestamp (h : Settled b K es s) (hst : Stair Metrics.timestamp K (es ++ [e]))
    (hf : s.firstFoundIndex = -1) : e.timestamp = s.pulseTimestamp := by
  have hP := h.fresh hst
  rcases Nat.lt_or_ge s.pulseTimestamp e.timestamp with hlt | hge
  · exact absurd (h.idle hf) (hst.last.1 _ hlt)
  · omega

theorem Settled.enqueue_idle (h : Settled b K es s) (hK : 2 ≤ K) (hst : Stair Metrics.timestamp K (es ++ [e]))
    (hw : Wide K (es ++ [e])) (hf : s.firstFoundIndex = -1) :
    ∃ s', runPasses b (s.push e) = [s'] ∧ Settled b K (es ++ [e]) s' ∧
      Advance (es ++ [e]) s s' ∧ DegreeOfFirst (es ++ [e]) s' := by
  have hm := h.arrive hst
  have he := h.idle_timestamp hst hf
  have hl : eventsAt s.pulseTimestamp (es ++ [e]) = [e] := by
    rw [← he, eventsAt, items_snoc_self, he]
    rw [show items Metrics.timestamp s.pulseTimestamp es = [] from h.idle hf]
    rfl
  obtain ⟨hp, hs, hc, hpt, hd⟩ := hm.pass_open hK hw hf (by rw [push_pulse, hl]; exact List.cons_ne_nil _ _)
  have hde := hw e (by simp)
  refine ⟨_, passes_stop hp, hs, ⟨?_, ?_⟩, hd⟩
  · intro hcount
    rw [h.closed hf, hl] at hcount
    simp at hcount
  · intro a ha _
    rw [hl] at ha
    obtain rfl : e = a := by simpa using ha
    rw [h.closed hf, if_pos (by omega)]
    exact ⟨hpt, hc⟩

theorem Settled.enqueue_full (h : Settled b K es s) (hK : 2 ≤ K) (hst : Stair Metrics.timestamp K (es ++ [e]))
    (hw : Wide K (es ++ [e])) (hf : s.firstFoundIndex ≠ -1) {a : Metrics}
    (ha : (eventsAt s.pulseTimestamp (es ++ [e])).head? = some a) (hd : s.currentNodeDegree = a.degree)
    (hlt : s.count < (eventsAt s.pulseTimestamp (es ++ [e])).length) (hfull : s.count = s.currentNodeDegree) :
    ∃ l s', runPasses b (s.push e) = l ∧ l.getLast? = some s' ∧
      Settled b K (es ++ [e]) s' ∧ Advance (es ++ [e]) s s' ∧ ∀ x ∈ l, DegreeOfFirst (es ++ [e]) x := by
  have hm := h.arrive hst
  have hdeg := hw.head ha
  have hpass : pass b (s.push e) = _ := pass_busy hf (Nat.le_of_eq hfull)
  have hmerge := hm.merge_spec hf
  rw [push_count, push_pulse, push_degree, if_pos hlt] at hmerge
  obtain ⟨hm₁, hf₁, hc₁, hp₁, hd₁, -⟩ := hmerge
  generalize mergeNext b (s.push e) = s₁ at hm₁ hf₁ hc₁ hp₁ hd₁ hpass
  rw [if_pos (by omega), any_at, hp₁] at hpass
  -- all `K` events of the pulse are merged: it has no more, and the degree is not smaller
  have hle := stair_items_le hst s₁.pulseTimestamp
  have hcl := hm₁.count_le
  have hm₂ := hm₁.close_spec hf₁ (by omega) hle
  have hdc : DegreeOfFirst (es ++ [e]) (closePulse s₁) := ⟨s.pulseTimestamp, a, ha, hd₁.trans hd⟩
  have hadv : ∀ s' : MultiState, s'.pulseTimestamp = s.pulseTimestamp + 1 →
      s'.count = min 1 (eventsAt (s.pulseTimestamp + 1) (es ++ [e])).length → Advance (es ++ [e]) s s' := by
    intro s' h1 h2
    refine ⟨fun hs => absurd hs (by omega), fun x hx _ => ?_⟩
    rw [ha] at hx
    obtain rfl : a = x := by simpa using hx
    rw [if_neg (by omega)]
    exact ⟨h1, h2⟩
  have hpt : (closePulse s₁).pulseTimestamp = s.pulseTimestamp + 1 := by rw [closePulse_pulse, hp₁]
  have hq : eventsAt (s.pulseTimestamp + 1) s₁.queue = eventsAt (s.pulseTimestamp + 1) (es ++ [e]) :=
    hm₁.future _ (by omega)
  rw [hq] at hpass
  cases hnext : eventsAt (s.pulseTimestamp + 1) (es ++ [e]) with
  | nil =>
    rw [hnext] at hpass
    refine ⟨_, closePulse s₁, passes_stop hpass, rfl, ⟨hm₂, ?_, fun hn => absurd rfl hn⟩, hadv _ hpt ?_, ?_⟩
    · intro _; rw [hpt]; exact hnext
    · rw [hnext]; rfl
    · intro x hx; rw [List.mem_singleton.mp hx]; exact hdc
  | cons y l =>
    rw [hnext] at hpass
    obtain ⟨hp₂, hs₂, hc₂, hpt₂, hd₂⟩ := hm₂.pass_open hK hw rfl (by rw [hpt, hnext]; exact List.cons_ne_nil _ _)
    obtain ⟨k, hk⟩ : ∃ k, (s.push e).queue.length + 1 = k + 2 := ⟨s.queue.length, by simp⟩
    have hrun : runPasses b (s.push e) = [closePulse s₁, openPulse (closePulse s₁)] := by
      rw [runPasses, hk]; exact passes_goto hpass hp₂
    refine ⟨_, openPulse (closePulse s₁), hrun, rfl, hs₂, hadv _ (hpt₂.trans hpt) ?_, ?_⟩
    · rw [hnext, hc₂, List.length_cons]; omega
    · intro x hx
      rcases List.mem_cons.mp hx with rfl | hx
      · exact hdc
      · rw [List.mem_singleton.mp hx]; exact hd₂

theorem Settled.enqueue_busy (h : Settled b K es s) (hK : 2 ≤ K) (hst : Stair Metrics.timestamp K (es ++ [e]))
    (hw : Wide K (es ++ [e])) (hf : s.firstFoundIndex ≠ -1) :
    ∃ l s', runPasses b (s.push e) = l ∧ l.getLast? = some s' ∧
      Settled b K (es ++ [e]) s' ∧ Advance (es ++ [e]) s s' ∧ ∀ x ∈ l, DegreeOfFirst (es ++ [e]) x := by
  have hm := h.arrive hst
  have hwait := h.waiting hf
  have hb : Open b (es ++ [e]) (s.push e) := hm.busy hf
  obtain ⟨a, ha, hd⟩ := hb.degree
  rw [push_pulse] at ha
  rw [push_degree] at hd
  have hpass : pass b (s.push e) = _ := pass_busy hf hwait
  have hmerge := hm.merge_spec hf
  rw [push_count, push_pulse, push_degree] at hmerge
  by_cases hlt : s.count < (eventsAt s.pulseTimestamp (es ++ [e])).length
  · by_cases hfull : s.count = s.currentNodeDegree
    · exact h.enqueue_full hK hst hw hf ha hd hlt hfull
    rw [if_pos hlt] at hmerge
    obtain ⟨hm₁, hf₁, hc₁, hp₁, hd₁, -⟩ := hmerge
    rw [if_neg (by omega)] at hpass
    refine ⟨_, mergeNext b (s.push e), passes_stop hpass, rfl,
      ⟨hm₁, fun hn => absurd hn hf₁, fun _ => by omega⟩, ⟨?_, ?_⟩, ?_⟩
    · intro hs; omega
    · intro x hx _
      rw [ha] at hx
      obtain rfl : a = x := by simpa using hx
      rw [if_pos (by omega)]
      exact ⟨hp₁, hc₁⟩
    · intro x hx
      rw [List.mem_singleton.mp hx]
      exact ⟨s.pulseTimestamp, a, ha, hd₁.trans hd⟩
  · rw [if_neg hlt] at hmerge
    rw [hmerge, if_neg (by rw [push_count, push_degree]; omega)] at hpass
    refine ⟨_, s.push e, passes_stop hpass, rfl, ⟨hm, fun hn => absurd hn hf, fun _ => hwait⟩, ⟨?_, ?_⟩, ?_⟩
    · intro _; exact ⟨rfl, rfl⟩
    · intro x _ hx; exact absurd hx hlt
    · intro x hx
      rw [List.mem_singleton.mp hx]
      exact ⟨s.pulseTimestamp, a, ha, hd⟩

theorem Settled.enqueue (h : Settled b K es s) (hK : 2 ≤ K) (hst : Stair Metrics.timestamp K (es ++ [e]))
    (hw : Wide K (es ++ [e])) :
    Settled b K (es ++ [e]) (enqueue b s e) ∧ Advance (es ++ [e]) s (Clarisse.enqueue b s e) ∧
      ∀ x ∈ runPasses b (s.push e), DegreeOfFirst (es ++ [e]) x := by
  by_cases hf : s.firstFoundIndex = -1
  · obtain ⟨s', hr, hs, ha, hd⟩ := h.enqueue_idle hK hst hw hf
    rw [Clarisse.enqueue, multiFunc, hr]
    exact ⟨hs, ha, fun x hx => by rw [List.mem_singleton.mp hx]; exact hd⟩
  · obtain ⟨l, s', hr, hl, hs, ha, hd⟩ := h.enqueue_busy hK hst hw hf
    rw [Clarisse.enqueue, multiFunc, hr, List.getLastD_eq_getLast?, hl]
    exact ⟨hs, ha, hd⟩

theorem feed_snoc (es : List Metrics) (e : Metrics) : feed b (es ++ [e]) = enqueue b (feed b es) e := by
  simp [feed, List.foldl_append]

theorem feed_settled (hK : 2 ≤ K) (hst : Stair Metrics.timestamp K es) (hw : Wide K es) :
    Settled b K es (feed b es) := by
  induction es using List.reverseRecOn with
  | nil => exact settled_init
  | append_singleton es e ih =>
    rw [feed_snoc]
    have := ih hst.left fun x hx => hw x (List.mem_append_left _ hx)
    exact (this.enqueue hK hst hw).1

/-! ## The event submitted for a pulse -/

theorem Settled.submitted_length (h : Settled b K es s) : s.submitted.length = s.pulseTimestamp := by
  rw [h.submitted, List.length_map, List.length_range]

theorem Settled.submitted_at (h : Settled b K es s) {p : Nat} (he : s.submitted[p]? = some e) :
    e = aggregate b p (eventsAt p es) ∧ (eventsAt p es).length = K := by
  rw [h.submitted, List.getElem?_map] at he
  obtain ⟨t, ht, rfl⟩ := Option.map_eq_some_iff.mp he
  obtain ⟨hlt, rfl⟩ := List.getElem?_eq_some_iff.mp ht
  rw [List.length_range] at hlt
  rw [List.getElem_range]
  exact ⟨rfl, h.full p hlt⟩

theorem Settled.submitted_first (h : Settled b K es s) (hK : 0 < K) {p : Nat} (he : s.submitted[p]? = some e) :
    ∃ a rest, eventsAt p es = a :: rest ∧ e.metricsNr = a.metricsNr ∧ e.maxDegree = a.maxDegree ∧
      e.updateFile = a.updateFile ∧ e.parentRank = (a.parentRank - 1).tdiv a.maxDegree ∧ e.nprocs = a.nprocs ∧
      e.timestamp = p ∧ e.quit = a.quit ∧
      e.contributions = a.contributions ++ rest.flatMap Metrics.contributions := by
  obtain ⟨rfl, hl⟩ := h.submitted_at he
  cases ha : eventsAt p es with
  | nil => rw [ha, List.length_nil] at hl; omega
  | cons a rest =>
    refine ⟨a, rest, rfl, ?_⟩
    simp only [aggregate, AggregatedEvent.event]
    rw [accumulate_header]
    exact ⟨rfl, rfl, rfl, rfl, rfl, rfl, rfl, rfl⟩

/-! ## The bound on the passes -/

/-- The states after each pass of the script, as long as it takes its `goto start`. -/
inductive Passes (b : Bool) : MultiState → List MultiState → Prop where
  | stop {s s₁ : MultiState} (hp : pass b s = (s₁, false)) : Passes b s [s₁]
  | goto {s s₁ : MultiState} {l : List MultiState} (hp : pass b s = (s₁, true)) (rest : Passes b s₁ l) :
      Passes b s (s₁ :: l)

def GoesOn (s : MultiState) : Prop :=
  s.firstFoundIndex = -1 ∧ eventsAt s.pulseTimestamp s.queue ≠ []

theorem pass_goto {s₁ : MultiState} (h : pass b s = (s₁, true)) : GoesOn s₁ := by
  rw [pass_of_take rfl] at h
  split at h
  · obtain ⟨rfl, h2⟩ := Prod.mk.inj h
    rw [any_at] at h2
    refine ⟨rfl, fun he => ?_⟩
    rw [closePulse_pulse, closePulse_queue] at he
    rw [he] at h2
    cases h2
  · cases (Prod.mk.inj h).2

theorem pass_queue {s₁ : MultiState} {g : Bool} (hp : pass b s = (s₁, g)) : s₁.queue = (takeEvent b s).queue := by
  rw [pass_of_take rfl] at hp
  split at hp
  · rw [← (Prod.mk.inj hp).1]; rfl
  · rw [← (Prod.mk.inj hp).1]

theorem GoesOn.shorter {s₁ : MultiState} {g : Bool} (h : GoesOn s) (hp : pass b s = (s₁, g)) :
    s₁.queue.length < s.queue.length := by
  rcases scan_spec (p := s.pulseTimestamp) (i := 0) (q := s.queue) (by simp) with ⟨hn, -⟩ | hsc
  · exact absurd hn h.2
  obtain ⟨u, x, v, hs, hfind, -⟩ := hsc
  rw [pass_queue hp, takeEvent, if_pos h.1]
  unfold openPulse
  rw [hfind]
  simp only [hs, discard_at, List.length_append, List.length_cons]
  omega

theorem GoesOn.passes (n : Nat) (h : GoesOn s) (hn : s.queue.length ≤ n) : Passes b s (Clarisse.passes b n s) := by
  induction n generalizing s with
  | zero =>
    have := List.length_eq_zero_iff.mp (Nat.le_zero.mp hn)
    exact absurd (by rw [this]; rfl) h.2
  | succ n ih =>
    unfold Clarisse.passes
    cases hp : pass b s with
    | mk s₁ g =>
      have := h.shorter hp
      cases g with
      | false => exact .stop hp
      | true => exact .goto hp (ih (pass_goto hp) (show s₁.queue.length ≤ n by omega))

theorem Passes.unique {l l' : List MultiState} (h : Passes b s l) (h' : Passes b s l') : l = l' := by
  induction h generalizing l' with
  | stop hp =>
    cases h' with
    | stop hp' => rw [(Prod.mk.inj (hp.symm.trans hp')).1]
    | goto hp' _ => cases (Prod.mk.inj (hp.symm.trans hp')).2
  | goto hp _ ih =>
    cases h' with
    | stop hp' => cases (Prod.mk.inj (hp.symm.trans hp')).2
    | goto hp' hrest =>
      obtain ⟨rfl, -⟩ := Prod.mk.inj (hp.symm.trans hp')
      rw [ih hrest]

end

end Clarisse
