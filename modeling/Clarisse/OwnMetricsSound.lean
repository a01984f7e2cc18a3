import Clarisse.OwnMetrics

/-!
# Counting the timestamps of the children

`OwnInv` relates the state of the handler to the child events it has handled.
When a child's event completes the current timestamp, it is the last event of
that child so far, so one call never has more than one timestamp to submit.
-/

namespace Clarisse

open Interleave

structure OwnInv (T : Topology) (r : Nat) (w : List (Nat × Metrics)) (s : OwnState) : Prop where
  counted : ∀ t, t < s.counter ↔ ∀ c ∈ T.children r, t < (stream c w).length
  table : ∀ t, s.hashTs t =
    if s.counter ≤ t ∧ level Metrics.timestamp t w ≠ [] then some (level Metrics.timestamp t w).length else none
  stamped : InOrder Metrics.timestamp s.submitted
  length : s.submitted.length = s.counter
  announced : ∀ o ∈ s.submitted, Announces T r o
  first : s.firstPulse = true ↔ s.counter = 0
  data : 0 < s.counter → Announces T r s.data
  current : 0 < s.counter → s.data.quit = 0 → s.data.timestamp = s.counter
  ended : 0 < s.counter → s.data.quit ≠ 0 →
    ∃ c ∈ T.children r, ∃ y, (stream c w)[s.counter - 1]? = some y ∧ y.quit ≠ 0
  quits : ∀ k o, s.submitted[k]? = some o → o.quit ≠ 0 → k + 1 = s.counter ∧ s.data.quit ≠ 0

section
variable {T : Topology} {r c : Nat} {E : Nat → When → Sampling} {w : List (Nat × Metrics)} {s s' : OwnState}
    {e : Metrics}

theorem ownInv_init (hD : 0 < T.getDegreeNode r) : OwnInv T r [] {} where
  counted t := by
    have hne : (T.children r).Nonempty := by
      rw [← Finset.card_pos, T.card_children]
      exact hD
    obtain ⟨c, hc⟩ := hne
    exact ⟨fun h => absurd h (Nat.not_lt_zero _), fun h => absurd (h c hc) (Nat.not_lt_zero _)⟩
  table t := by simp [level]
  stamped := rfl
  length := rfl
  announced o h := by cases h
  first := by simp
  data h := absurd h (Nat.lt_irrefl 0)
  current h := absurd h (Nat.lt_irrefl 0)
  ended h := absurd h (Nat.lt_irrefl 0)
  quits k o h := by simp at h

theorem OwnInv.counter_le (h : OwnInv T r w s) (hc : c ∈ T.children r) : s.counter ≤ (stream c w).length := by
  rcases Nat.eq_zero_or_pos s.counter with h0 | h0
  · omega
  · have := (h.counted (s.counter - 1)).mp (by omega) c hc
    omega

variable (hi : Interleaved Metrics.timestamp (T.children r) (w ++ [(c, e)]))
include hi

theorem OwnInv.counter_le_timestamp (h : OwnInv T r w s) : s.counter ≤ e.timestamp := by
  obtain ⟨hc, ht⟩ := hi.next
  rw [ht]
  exact h.counter_le hc

theorem OwnInv.level_ne_nil (h : OwnInv T r w s) : level Metrics.timestamp s.counter (w ++ [(c, e)]) ≠ [] := by
  obtain ⟨hc, ht⟩ := hi.next
  have hle := h.counter_le_timestamp hi
  have hlt : s.counter < (stream c (w ++ [(c, e)])).length := by
    rw [stream_snoc, if_pos rfl, List.length_append, List.length_singleton]
    omega
  intro hn
  have := hi.stream_level_eq hc s.counter
  rw [hn, List.getElem?_eq_getElem hlt] at this
  cases this

theorem OwnInv.receive_table (h : OwnInv T r w s) (t : Nat) :
    (s.receive e.timestamp).hashTs t =
      if s.counter ≤ t ∧ level Metrics.timestamp t (w ++ [(c, e)]) ≠ [] then
        some (level Metrics.timestamp t (w ++ [(c, e)])).length
      else none := by
  have hle := h.counter_le_timestamp hi
  rw [level_append, receive_hashTs]
  by_cases ht : t = e.timestamp
  · subst ht
    have hlev : level Metrics.timestamp e.timestamp [(c, e)] = [(c, e)] := by simp [level]
    rw [Function.update_self, h.table, hlev, List.length_append]
    by_cases hn : level Metrics.timestamp e.timestamp w = [] <;> simp [hn, hle]
  · have hlev : level Metrics.timestamp t [(c, e)] = [] := by
      simp [level, Ne.symm ht]
    rw [Function.update_of_ne ht, h.table, hlev, List.append_nil]

theorem OwnInv.compute (h : OwnInv T r w s) :
    computeOwnMetrics T r E s e =
      if (level Metrics.timestamp s.counter (w ++ [(c, e)])).length = T.getDegreeNode r then
        submitOwn T r E e (s.receive e.timestamp)
      else .ok (s.receive e.timestamp) := by
  have hl := h.receive_table hi s.counter
  rw [if_pos ⟨Nat.le_refl _, h.level_ne_nil hi⟩] at hl
  unfold computeOwnMetrics
  simp only [receive_counter, hl]

theorem level_full_iff :
    (level Metrics.timestamp s.counter (w ++ [(c, e)])).length = T.getDegreeNode r ↔
      ∀ c' ∈ T.children r, s.counter < (stream c' (w ++ [(c, e)])).length := by
  rw [← hi.full_iff, T.card_children]

omit hi in
theorem stream_length_snoc (c' : Nat) :
    (stream c' (w ++ [(c, e)])).length = (stream c' w).length + if c = c' then 1 else 0 := by
  rw [stream_snoc]
  by_cases hc : c = c' <;> simp [hc]

theorem OwnInv.keep (h : OwnInv T r w s)
    (hn : (level Metrics.timestamp s.counter (w ++ [(c, e)])).length ≠ T.getDegreeNode r) :
    OwnInv T r (w ++ [(c, e)]) (s.receive e.timestamp) where
  counted t := by
    rw [ne_eq, level_full_iff hi] at hn
    refine ⟨?_, ?_⟩
    · intro ht c' hc'
      have := (h.counted t).mp ht c' hc'
      rw [stream_length_snoc]
      omega
    · intro ht
      rcases Nat.lt_or_ge t s.counter with hlt | hge
      · exact hlt
      · refine absurd (fun c' hc' => ?_) hn
        have := ht c' hc'
        omega
  table := h.receive_table hi
  stamped := h.stamped
  length := h.length
  announced := h.announced
  first := h.first
  data := h.data
  current := h.current
  ended h0 hq := by
    obtain ⟨c', hc', y, hy, hyq⟩ := h.ended h0 hq
    refine ⟨c', hc', y, ?_, hyq⟩
    have hlt := (List.getElem?_eq_some_iff.mp hy).1
    rw [stream_append, receive_counter, List.getElem?_append_left hlt]
    exact hy
  quits := h.quits

theorem OwnInv.closing_timestamp (h : OwnInv T r w s)
    (hf : (level Metrics.timestamp s.counter (w ++ [(c, e)])).length = T.getDegreeNode r) :
    e.timestamp = s.counter := by
  have hle := h.counter_le_timestamp hi
  rcases Nat.eq_or_lt_of_le hle with h1 | h1
  · exact h1.symm
  · -- otherwise the timestamp was complete before
    have hall : ∀ c' ∈ T.children r, s.counter < (stream c' w).length := by
      intro c' hc'
      have := (level_full_iff hi).mp hf c' hc'
      rw [stream_length_snoc] at this
      by_cases hcc : c = c'
      · subst hcc
        have := hi.next.2
        omega
      · rw [if_neg hcc] at this
        omega
    exact absurd ((h.counted s.counter).mpr hall) (Nat.lt_irrefl _)

variable (hq : ∀ c' ∈ T.children r, QuitLast (stream c' (w ++ [(c, e)])))
include hq

theorem OwnInv.running (h : OwnInv T r w s)
    (hf : (level Metrics.timestamp s.counter (w ++ [(c, e)])).length = T.getDegreeNode r) (h0 : 0 < s.counter) :
    s.data.quit = 0 := by
  by_cases hd : s.data.quit = 0
  · exact hd
  · obtain ⟨c', hc', y, hy, hyq⟩ := h.ended h0 hd
    have hlt := (List.getElem?_eq_some_iff.mp hy).1
    have := hq c' hc' (s.counter - 1) y (by rw [stream_append, List.getElem?_append_left hlt]; exact hy) hyq
    have := (level_full_iff hi).mp hf c' hc'
    omega

theorem OwnInv.stamp (h : OwnInv T r w s)
    (hf : (level Metrics.timestamp s.counter (w ++ [(c, e)])).length = T.getDegreeNode r) {agg agg' : Aggregator}
    {S : Sampling} {o : Metrics}
    (hanew : s.firstPulse ∨ e.updateFile ≠ 0 ∨ e.quit ≠ 0 →
      getMetricsValues T r S agg e s.counter s.data = .ok (agg', o))
    (hkept : ¬ (s.firstPulse ∨ e.updateFile ≠ 0 ∨ e.quit ≠ 0) → o = s.data) :
    Announces T r o ∧ o.timestamp = s.counter ∧ o.quit = e.quit := by
  by_cases hno : s.firstPulse ∨ e.updateFile ≠ 0 ∨ e.quit ≠ 0
  · obtain ⟨h1, h2, h3, -⟩ := getMetricsValues_ok (hanew hno)
    exact ⟨h1, h2, h3⟩
  · have h0 : 0 < s.counter := Nat.pos_of_ne_zero fun hz => hno (Or.inl (h.first.mpr hz))
    have hrun := h.running hi hq hf h0
    have hz : e.quit = 0 := by
      by_cases hz : e.quit = 0
      · exact hz
      · exact absurd (Or.inr (Or.inr hz)) hno
    rw [hkept hno, hz]
    exact ⟨h.data h0, h.current h0 hrun, hrun⟩

theorem OwnInv.close (h : OwnInv T r w s)
    (hf : (level Metrics.timestamp s.counter (w ++ [(c, e)])).length = T.getDegreeNode r)
    (hs : submitOwn T r E e (s.receive e.timestamp) = .ok s') :
    OwnInv T r (w ++ [(c, e)]) s' ∧
      ∃ o, s'.submitted = s.submitted ++ [o] ∧ o.timestamp = e.timestamp ∧ o.quit = e.quit := by
  have ht := h.closing_timestamp hi hf
  have hrun := h.running hi hq hf
  have hfull := (level_full_iff hi).mp hf
  obtain ⟨hc, hnext⟩ := hi.next
  obtain ⟨o, agg, hsub, hcnt, htab, hfp, hanew, hkept, hstop, hthen⟩ := submitOwn_submits hs
  rw [receive_submitted] at hsub
  rw [receive_counter] at hcnt htab hthen
  have ho := h.stamp hi hq hf hanew fun hno => (hkept hno).2
  have hd : Announces T r s'.data ∧ s'.data.quit = e.quit ∧ (e.quit = 0 → s'.data.timestamp = s.counter + 1) := by
    by_cases hz : e.quit = 0
    · obtain ⟨h1, h2, h3, -⟩ := getMetricsValues_ok (hthen hz)
      exact ⟨h1, h3, fun _ => h2⟩
    · rw [(hstop hz).1]
      exact ⟨ho.1, ho.2.2, fun he => absurd he hz⟩
  refine ⟨?_, o, hsub, ho.2.1.trans ht.symm, ho.2.2⟩
  constructor
  · intro t
    rw [hcnt]
    refine ⟨?_, ?_⟩
    · intro hlt c' hc'
      have := hfull c' hc'
      omega
    · intro hall
      -- `c` has sent nothing after its event of this timestamp
      have := hall c hc
      rw [stream_length_snoc, if_pos rfl] at this
      omega
  · intro t
    rw [htab, hcnt]
    by_cases hts : t = s.counter
    · subst hts
      rw [Function.update_self, if_neg (by omega)]
    · rw [Function.update_of_ne hts, h.receive_table hi]
      have : s.counter ≤ t ↔ s.counter + 1 ≤ t := by omega
      simp only [this]
  · rw [hsub, inOrder_snoc, h.length]
    exact ⟨h.stamped, ho.2.1⟩
  · rw [hsub, List.length_append, h.length, hcnt]; rfl
  · intro o' ho'
    rw [hsub, List.mem_append, List.mem_singleton] at ho'
    cases ho' with
    | inl hm => exact h.announced o' hm
    | inr heq => rw [heq]; exact ho.1
  · rw [hfp, hcnt]; simp
  · intro _; exact hd.1
  · intro _ hz
    rw [hcnt]
    exact hd.2.2 (hd.2.1 ▸ hz)
  · intro _ hz
    rw [hd.2.1] at hz
    refine ⟨c, hc, e, ?_, hz⟩
    rw [hcnt, stream_snoc, if_pos rfl, List.getElem?_append_right (by omega)]
    have : s.counter + 1 - 1 - (stream c w).length = 0 := by omega
    rw [this]
    rfl
  · intro k o' hk hz
    rw [hsub] at hk
    cases getElem?_snoc hk with
    | inl hold =>
      obtain ⟨h1, h2⟩ := h.quits k o' hold hz
      exact absurd (hrun (by omega)) h2
    | inr hlast =>
      obtain ⟨rfl, rfl⟩ := hlast
      rw [hcnt, h.length, hd.2.1, ← ho.2.2]
      exact ⟨rfl, hz⟩

theorem OwnInv.step (h : OwnInv T r w s) :
    computeOwnMetrics T r E s e ≠ .error .nullFound ∧
      ∀ s', computeOwnMetrics T r E s e = .ok s' → OwnInv T r (w ++ [(c, e)]) s' ∧
        if (level Metrics.timestamp s.counter (w ++ [(c, e)])).length = T.getDegreeNode r then
          ∃ o, s'.submitted = s.submitted ++ [o] ∧ o.timestamp = e.timestamp
        else s'.submitted = s.submitted := by
  rw [h.compute hi]
  by_cases hf : (level Metrics.timestamp s.counter (w ++ [(c, e)])).length = T.getDegreeNode r
  · rw [if_pos hf]
    refine ⟨fun he => submitOwn_halt he rfl, fun s' hs => ?_⟩
    rw [if_pos hf]
    obtain ⟨hinv, o, hsub, ht, -⟩ := h.close hi hq hf hs
    exact ⟨hinv, o, hsub, ht⟩
  · rw [if_neg hf]
    refine ⟨nofun, fun s' hs => ?_⟩
    rw [if_neg hf]
    cases hs
    exact ⟨h.keep hi hf, rfl⟩

end

section
variable {T : Topology} {r : Nat} {E : Nat → When → Sampling} {w : List (Nat × Metrics)}

theorem quitLast_left {u v : List (Nat × Metrics)} (hq : ∀ c ∈ T.children r, QuitLast (stream c (u ++ v))) :
    ∀ c ∈ T.children r, QuitLast (stream c u) :=
  fun c hc => quitLast_of_le (stream_le c (List.prefix_append u v)) (hq c hc)

theorem handleAll_ownInv (hi : Interleaved Metrics.timestamp (T.children r) w)
    (hq : ∀ c ∈ T.children r, QuitLast (stream c w)) (hD : 0 < T.getDegreeNode r) :
    handleAll T r E (w.map Prod.snd) ≠ .error .nullFound ∧
      ∀ s, handleAll T r E (w.map Prod.snd) = .ok s → OwnInv T r w s := by
  induction w using List.reverseRecOn with
  | nil =>
    refine ⟨nofun, fun s hs => ?_⟩
    cases hs
    exact ownInv_init hD
  | append_singleton w x ih =>
    obtain ⟨c, e⟩ := x
    obtain ⟨ih1, ih2⟩ := ih hi.left (quitLast_left hq)
    rw [List.map_append, List.map_singleton, handleAll_snoc]
    cases hs : handleAll T r E (w.map Prod.snd) with
    | error h =>
      rw [hs] at ih1
      exact ⟨fun he => ih1 (by cases he; rfl), fun s he => by cases he⟩
    | ok s =>
      obtain ⟨h1, h2⟩ := (ih2 s hs).step (E := E) hi hq
      exact ⟨h1, fun s' hs' => (h2 s' hs').1⟩

/-- Every own event has the timestamp and the flag of the child event that closed its pulse. -/
theorem handleAll_origin (hi : Interleaved Metrics.timestamp (T.children r) w)
    (hq : ∀ c ∈ T.children r, QuitLast (stream c w)) (hD : 0 < T.getDegreeNode r) {s : OwnState}
    (hs : handleAll T r E (w.map Prod.snd) = .ok s) :
    ∀ o ∈ s.submitted, ∃ x ∈ w, x.2.timestamp = o.timestamp ∧ x.2.quit = o.quit := by
  induction w using List.reverseRecOn generalizing s with
  | nil =>
    cases hs
    intro o ho
    cases ho
  | append_singleton w x ih =>
    obtain ⟨c, e⟩ := x
    have hinv := (handleAll_ownInv (E := E) hi.left (quitLast_left hq) hD).2
    rw [List.map_append, List.map_singleton, handleAll_snoc] at hs
    cases hm : handleAll T r E (w.map Prod.snd) with
    | error _ => rw [hm] at hs; cases hs
    | ok m =>
      rw [hm] at hs
      have hold : ∀ o ∈ m.submitted, ∃ x ∈ w ++ [(c, e)], x.2.timestamp = o.timestamp ∧ x.2.quit = o.quit := by
        intro o ho
        obtain ⟨x, hx, h⟩ := ih hi.left (quitLast_left hq) hm o ho
        exact ⟨x, List.mem_append_left _ hx, h⟩
      have hc := (hinv m hm).compute (E := E) hi
      rw [show (Except.ok m).bind _ = computeOwnMetrics T r E m e from rfl, hc] at hs
      split at hs
      · obtain ⟨-, o, hsub, ht, hoq⟩ := (hinv m hm).close hi hq ‹_› hs
        rw [hsub]
        intro o' ho'
        rw [List.mem_append, List.mem_singleton] at ho'
        cases ho' with
        | inl ho' => exact hold o' ho'
        | inr ho' => exact ⟨(c, e), by simp, by rw [ho', ht], by rw [ho', hoq]⟩
      · cases hs
        exact hold

/-! ## The counts in the words of the table -/

def senders (T : Topology) (r t : Nat) (w : List (Nat × Metrics)) : Finset Nat :=
  (T.children r).filter fun c => ∃ e ∈ stream c w, e.timestamp = t

structure CountsTimestamps (T : Topology) (r : Nat) (w : List (Nat × Metrics)) (s : OwnState) : Prop where
  counter : ∀ t, t < s.counter ↔ senders T r t w = T.children r
  table : ∀ t, s.hashTs t =
    if s.counter ≤ t ∧ (senders T r t w).Nonempty then some (senders T r t w).card else none
  submitted : s.submitted.map Metrics.timestamp = List.range s.counter

theorem senders_eq (hi : Interleaved Metrics.timestamp (T.children r) w) (t : Nat) :
    senders T r t w = (T.children r).filter fun c => t < (stream c w).length := by
  apply Finset.filter_congr
  intro c hc
  exact inOrder_mem _ (hi.order c hc) t

theorem OwnInv.counts {s : OwnState} (h : OwnInv T r w s) (hi : Interleaved Metrics.timestamp (T.children r) w) :
    CountsTimestamps T r w s where
  counter t := by
    rw [senders_eq hi, Finset.filter_eq_self, h.counted]
  table t := by
    have hl := hi.level_length t
    rw [← senders_eq hi] at hl
    have hne : level Metrics.timestamp t w ≠ [] ↔ (senders T r t w).Nonempty := by
      rw [← List.length_pos_iff, hl, Finset.card_pos]
    rw [h.table, hl]
    simp only [hne]
  submitted := by
    rw [h.stamped, h.length]

/-- After every handled event the counter, the table and the submitted events are
those of the timestamps received, and the lookup of the counter has not failed;
the event `e` handled last is answered iff it is the last of its timestamp. -/
theorem handleAll_counts (hi : Interleaved Metrics.timestamp (T.children r) w)
    (hq : ∀ c ∈ T.children r, QuitLast (stream c w)) (hD : 0 < T.getDegreeNode r) :
    handleAll T r E (w.map Prod.snd) ≠ .error .nullFound ∧
      ∀ s, handleAll T r E (w.map Prod.snd) = .ok s → CountsTimestamps T r w s ∧
        ∀ u c e s₀, w = u ++ [(c, e)] → handleAll T r E (u.map Prod.snd) = .ok s₀ →
          if senders T r e.timestamp w = T.children r then
            ∃ o, s.submitted = s₀.submitted ++ [o] ∧ o.timestamp = e.timestamp
          else s.submitted = s₀.submitted := by
  obtain ⟨h1, h2⟩ := handleAll_ownInv (E := E) hi hq hD
  refine ⟨h1, fun s hs => ⟨(h2 s hs).counts hi, ?_⟩⟩
  intro u c e s₀ hw hs₀
  subst hw
  have h₀ := (handleAll_ownInv (E := E) hi.left (quitLast_left hq) hD).2 s₀ hs₀
  rw [List.map_append, List.map_singleton, handleAll_snoc, hs₀] at hs
  have hstep := ((h₀.step hi hq).2 s hs).2
  have hsend : ∀ t, senders T r t (u ++ [(c, e)]) = T.children r ↔
      (level Metrics.timestamp t (u ++ [(c, e)])).length = T.getDegreeNode r := by
    intro t
    rw [senders_eq hi, Finset.filter_eq_self, ← hi.full_iff, T.card_children]
  by_cases hf : (level Metrics.timestamp s₀.counter (u ++ [(c, e)])).length = T.getDegreeNode r
  · rw [if_pos hf] at hstep
    have ht := h₀.closing_timestamp hi hf
    rw [if_pos ((hsend _).mpr (ht ▸ hf))]
    exact hstep
  · rw [if_neg hf] at hstep
    rw [if_neg, hstep]
    -- the event of a later timestamp cannot complete it while the current one is open
    rw [hsend]
    intro hfull
    have hle := hi.level_anti (h₀.counter_le_timestamp hi)
    have := hi.level_le s₀.counter
    rw [T.card_children] at this
    omega

end

def oneAhead : List (Nat × Metrics) :=
  [(1, default), (1, { (default : Metrics) with timestamp := 1, quit := 1 }), (2, default)]

theorem handleAll_counts_oneAhead :
    let E : Nat → When → Sampling := fun _ _ => .constant ["load"] 7
    handleAll twoLeaves 0 E (oneAhead.map Prod.snd) ≠ .error .nullFound ∧
      ∀ s, handleAll twoLeaves 0 E (oneAhead.map Prod.snd) = .ok s → CountsTimestamps twoLeaves 0 oneAhead s ∧
        ∀ u c e s₀, oneAhead = u ++ [(c, e)] → handleAll twoLeaves 0 E (u.map Prod.snd) = .ok s₀ →
          if senders twoLeaves 0 e.timestamp oneAhead = twoLeaves.children 0 then
            ∃ o, s.submitted = s₀.submitted ++ [o] ∧ o.timestamp = e.timestamp
          else s.submitted = s₀.submitted :=
  handleAll_counts ⟨by decide, by decide⟩ (by decide) (by decide)

end Clarisse
