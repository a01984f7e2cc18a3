import Clarisse.Stone

/-!
# When a complete pulse is left waiting

After each run the stone has submitted every complete pulse exactly when the
arrival order is drained: of the events of pulse `p + 1` that are queued when
pulse `p` becomes complete, all but the first need the arrival of an event of a
still later pulse before pulse `p + 1` becomes complete itself.
-/

namespace Clarisse

open Interleave

/-- The last arrival of `u` is the last event of pulse `p` of the `K` streams. -/
def Completes (K p : Nat) (u : List Metrics) : Prop :=
  (eventsAt p u).length = K ∧ ∃ e, u.getLast? = some e ∧ e.timestamp = p

def later (p : Nat) (v : List Metrics) : Nat := v.countP fun e => p < e.timestamp

def Drained (K : Nat) (es : List Metrics) : Prop :=
  ∀ p u v, (u ++ v) <+: es → Completes K p u → Completes K (p + 1) (u ++ v) →
    (eventsAt (p + 1) u).length ≤ 1 + later (p + 1) v

theorem later_snoc (p : Nat) (v : List Metrics) (e : Metrics) :
    later p (v ++ [e]) = later p v + if p < e.timestamp then 1 else 0 := by
  rw [later, List.countP_append, List.countP_singleton, later]
  simp

theorem Drained.left {K : Nat} {u v : List Metrics} (h : Drained K (u ++ v)) : Drained K u :=
  fun p x y hp => h p x y (hp.trans (List.prefix_append _ _))

theorem completes_unique {K p : Nat} {es u u' : List Metrics} (hu : u <+: es) (hu' : u' <+: es)
    (h : Completes K p u) (h' : Completes K p u') : u = u' := by
  have key : ∀ x y : List Metrics, x <+: y → Completes K p x → Completes K p y → x = y := by
    intro x y hxy hx hy
    obtain ⟨z, rfl⟩ := hxy
    rcases List.eq_nil_or_concat z with hz | ⟨z', e, rfl⟩
    · rw [hz, List.append_nil]
    · obtain ⟨hlen, e', he, ht⟩ := hy
      rw [List.concat_eq_append] at hlen he
      have hlast : e = e' := by
        rw [← List.append_assoc, List.getLast?_concat] at he
        exact Option.some.inj he
      subst hlast
      rw [eventsAt, ← List.append_assoc, items_snoc, if_pos ht, items_append] at hlen
      have := hx.1
      rw [eventsAt] at this
      simp only [List.length_append, List.length_singleton] at hlen
      omega
  rcases List.prefix_or_prefix_of_prefix hu hu' with hxy | hxy
  · exact key _ _ hxy h h'
  · exact (key _ _ hxy h' h).symm

/-- The state between two runs that has left no complete pulse waiting so far:
`u` ends with the event that completed the pulse before the current one. -/
structure CaughtUp (K : Nat) (es : List Metrics) (s : MultiState) : Prop where
  incomplete : (eventsAt s.pulseTimestamp es).length ≠ K
  since : ∃ u v, es = u ++ v ∧
    ((s.pulseTimestamp = 0 ∧ u = []) ∨ ∃ p, s.pulseTimestamp = p + 1 ∧ Completes K p u) ∧
    s.count + ((eventsAt s.pulseTimestamp u).length - 1 - later s.pulseTimestamp v) =
      (eventsAt s.pulseTimestamp es).length

section
variable {b : Bool} {K : Nat} {es : List Metrics} {e : Metrics} {s s' : MultiState}

theorem head_of_pos (hdeg : ∀ t a, (eventsAt t es).head? = some a → a.degree + 1 = K) {t : Nat}
    (h : 0 < (eventsAt t es).length) : ∃ a, (eventsAt t es).head? = some a ∧ a.degree + 1 = K := by
  cases hl : eventsAt t es with
  | nil => rw [hl] at h; exact absurd h (Nat.lt_irrefl 0)
  | cons a l => exact ⟨a, rfl, hdeg t a (by rw [hl]; rfl)⟩

theorem CaughtUp.step (h : CaughtUp K es s) (hs : Settled b K es s) (hadv : Advance (es ++ [e]) s s')
    (hst : Stair Metrics.timestamp K (es ++ [e]))
    (hdeg : ∀ t a, (eventsAt t (es ++ [e])).head? = some a → a.degree + 1 = K) :
    if (eventsAt s.pulseTimestamp (es ++ [e])).length = K then
      if s.count + 1 = K then CaughtUp K (es ++ [e]) s' ∧ s'.pulseTimestamp = s.pulseTimestamp + 1
      else s'.pulseTimestamp = s.pulseTimestamp
    else CaughtUp K (es ++ [e]) s' ∧ s'.pulseTimestamp = s.pulseTimestamp := by
  obtain ⟨u, v, hes, hu, hcount⟩ := h.since
  have hinc := h.incomplete
  have hP := hs.fresh hst
  have hle := stair_items_le hst.left s.pulseTimestamp
  have hsnoc : (eventsAt s.pulseTimestamp (es ++ [e])).length =
      (eventsAt s.pulseTimestamp es).length + if e.timestamp = s.pulseTimestamp then 1 else 0 := by
    rw [eventsAt, items_snoc]
    by_cases he : e.timestamp = s.pulseTimestamp <;> simp [he]
  have hcl := hs.count_le
  by_cases he : e.timestamp = s.pulseTimestamp
  · -- an event of the current pulse: one more of it is merged
    rw [if_pos he] at hsnoc
    have hpos : 0 < (eventsAt s.pulseTimestamp (es ++ [e])).length := by omega
    have hlt : s.count < (eventsAt s.pulseTimestamp (es ++ [e])).length := by omega
    obtain ⟨a, ha, hda⟩ := head_of_pos hdeg hpos
    have hmove := hadv.move a ha hlt
    by_cases hfull : (eventsAt s.pulseTimestamp (es ++ [e])).length = K
    · rw [if_pos hfull]
      by_cases hc : s.count + 1 = K
      · rw [if_pos hc]
        rw [if_neg (by omega)] at hmove
        obtain ⟨hp', hc'⟩ := hmove
        refine ⟨⟨?_, es ++ [e], [], (List.append_nil _).symm,
          Or.inr ⟨s.pulseTimestamp, hp', hfull, e, ?_, he⟩, ?_⟩, hp'⟩
        · have := hst.last.2 (s.pulseTimestamp + 1) (by omega)
          rw [hp', eventsAt, items_snoc_of_ne _ _ (by omega)]
          exact Nat.ne_of_lt this
        · rw [List.getLast?_concat]
        · rw [hp', hc', later, List.countP_nil]
          omega
      · rw [if_neg hc]
        rw [if_pos (by omega)] at hmove
        exact hmove.1
    · rw [if_neg hfull]
      rw [if_pos (by omega)] at hmove
      obtain ⟨hp', hc'⟩ := hmove
      refine ⟨⟨by rw [hp']; exact hfull, u, v ++ [e], by rw [hes, List.append_assoc], ?_, ?_⟩, hp'⟩
      · rw [hp']; exact hu
      · rw [hp', hc', later_snoc, if_neg (by omega)]
        omega
  · -- an event of a later pulse: one of the backlog is merged
    rw [if_neg he, Nat.add_zero] at hsnoc
    rw [if_neg (by rw [hsnoc]; exact hinc)]
    have hcaught : ∀ c', s'.pulseTimestamp = s.pulseTimestamp → s'.count = c' →
        c' + ((eventsAt s.pulseTimestamp u).length - 1 - (later s.pulseTimestamp v + 1)) =
          (eventsAt s.pulseTimestamp es).length →
        CaughtUp K (es ++ [e]) s' ∧ s'.pulseTimestamp = s.pulseTimestamp := by
      intro c' hp' hc' heq
      refine ⟨⟨by rw [hp', hsnoc]; exact hinc, u, v ++ [e], by rw [hes, List.append_assoc], ?_, ?_⟩, hp'⟩
      · rw [hp']; exact hu
      · rw [hp', hc', later_snoc, if_pos (by omega), hsnoc]
        exact heq
    rcases Nat.lt_or_ge s.count (eventsAt s.pulseTimestamp es).length with hlt | hge
    · have hlt' : s.count < (eventsAt s.pulseTimestamp (es ++ [e])).length := by omega
      obtain ⟨a, ha, hda⟩ := head_of_pos hdeg (Nat.zero_lt_of_lt hlt')
      have hmove := hadv.move a ha hlt'
      rw [if_pos (by omega)] at hmove
      exact hcaught _ hmove.1 hmove.2 (by omega)
    · have hstay := hadv.stay (by omega)
      exact hcaught _ hstay.1 hstay.2 (by omega)

theorem CaughtUp.drained_snoc (h : CaughtUp K es s) (hs : Settled b K es s)
    (hst : Stair Metrics.timestamp K (es ++ [e]))
    (hanti : ∀ t u, t ≤ u → (eventsAt u (es ++ [e])).length ≤ (eventsAt t (es ++ [e])).length) :
    Drained K (es ++ [e]) ↔
      Drained K es ∧ ((eventsAt s.pulseTimestamp (es ++ [e])).length = K → s.count + 1 = K) := by
  obtain ⟨u₀, v₀, hes, hu₀, hcount⟩ := h.since
  have hle := stair_items_le hst.left s.pulseTimestamp
  have hinc := h.incomplete
  have hsnoc : ∀ t, (eventsAt t (es ++ [e])).length = (eventsAt t es).length + if e.timestamp = t then 1 else 0 := by
    intro t
    rw [eventsAt, items_snoc]
    by_cases he : e.timestamp = t <;> simp [he]
  refine ⟨?_, ?_⟩
  · intro hd
    refine ⟨hd.left, fun hfull => ?_⟩
    have hP := hsnoc s.pulseTimestamp
    by_cases he : e.timestamp = s.pulseTimestamp
    · rw [if_pos he] at hP
      rcases hu₀ with ⟨-, hnil⟩ | ⟨p, hp, hc⟩
      · rw [hnil] at hcount
        simp only [eventsAt, items, List.filter_nil, List.length_nil] at hcount hP
        simp only [eventsAt, items] at hfull
        omega
      · have := hd p u₀ (v₀ ++ [e]) (by rw [hes]; simp) hc
          ⟨by rw [← List.append_assoc, ← hes, ← hp]; exact hfull, e,
            by rw [← List.append_assoc, List.getLast?_concat],
            by omega⟩
        rw [← hp, later_snoc, if_neg (by omega)] at this
        omega
    · rw [if_neg he] at hP
      omega
  · intro hd p u v huv hc hc'
    obtain ⟨hd, hlast⟩ := hd
    rcases List.prefix_concat_iff.mp huv with heq | hpre
    · -- `e` completes pulse `p + 1`, which is the current one
      obtain ⟨hlen, e', he', hte⟩ := hc'
      rw [heq, List.getLast?_concat] at he'
      obtain rfl : e = e' := Option.some.inj he'
      rw [heq] at hlen
      have hP := hsnoc s.pulseTimestamp
      have hp := hsnoc (p + 1)
      rw [if_pos hte] at hp
      have hge : s.pulseTimestamp ≤ p + 1 := by
        rcases Nat.lt_or_ge (p + 1) s.pulseTimestamp with hlt | hge
        · have := hs.full _ hlt; omega
        · exact hge
      have hcur : s.pulseTimestamp = p + 1 := by
        rcases Nat.eq_or_lt_of_le hge with h1 | h1
        · exact h1
        · have := hanti _ _ hge
          rw [if_neg (by omega)] at hP
          omega
      rw [hcur] at hcount hlast
      have hcnt := hlast hlen
      rcases hu₀ with ⟨h0, -⟩ | ⟨p', hp', hc₀⟩
      · omega
      · obtain rfl : p = p' := by omega
        have hu : u = u₀ := completes_unique (heq ▸ List.prefix_append u v) (hes ▸ ⟨v₀ ++ [e], by simp⟩) hc hc₀
        have hv : v = v₀ ++ [e] := by
          rw [hes, hu, List.append_assoc] at heq
          exact List.append_cancel_left heq
        rw [hu, hv, later_snoc, if_neg (by omega)]
        omega
    · exact hd p u v hpre hc hc'

theorem prompt_iff_drained (hK : 2 ≤ K) (hst : Stair Metrics.timestamp K es) (hw : Wide K es)
    (hanti : ∀ u, u <+: es → ∀ t t', t ≤ t' → (eventsAt t' u).length ≤ (eventsAt t u).length)
    (hdeg : ∀ t a, (eventsAt t es).head? = some a → a.degree + 1 = K) :
    ((∀ u, u <+: es → (eventsAt (feed b u).pulseTimestamp u).length ≠ K) ↔ Drained K es) ∧
      ((∀ u, u <+: es → (eventsAt (feed b u).pulseTimestamp u).length ≠ K) → CaughtUp K es (feed b es)) := by
  induction es using List.reverseRecOn with
  | nil =>
    have hnil : CaughtUp K [] (feed b []) := by
      refine ⟨?_, [], [], rfl, Or.inl ⟨rfl, rfl⟩, rfl⟩
      change 0 ≠ K
      omega
    refine ⟨⟨fun _ => ?_, fun _ => ?_⟩, fun _ => hnil⟩
    · intro p u v huv hc
      obtain ⟨rfl, rfl⟩ := List.append_eq_nil_iff.mp (List.prefix_nil.mp huv)
      obtain ⟨-, e, he, -⟩ := hc
      cases he
    · intro u hu
      rw [List.prefix_nil.mp hu]
      exact hnil.incomplete
  | append_singleton es e ih =>
    have hw' : Wide K es := fun x hx => hw x (List.mem_append_left _ hx)
    have hs := feed_settled (b := b) hK hst.left hw'
    obtain ⟨hiff, hcaught⟩ := ih hst.left hw' (fun u hu => hanti u (hu.trans (List.prefix_append _ _)))
      fun t a ha => hdeg t a (eventsAt_head_append ha)
    have hadv := (hs.enqueue hK hst hw).2.1
    rw [← feed_snoc] at hadv
    have hsplit : (∀ u, u <+: es ++ [e] → (eventsAt (feed b u).pulseTimestamp u).length ≠ K) ↔
        (∀ u, u <+: es → (eventsAt (feed b u).pulseTimestamp u).length ≠ K) ∧
          (eventsAt (feed b (es ++ [e])).pulseTimestamp (es ++ [e])).length ≠ K := by
      refine ⟨?_, ?_⟩
      · intro h
        exact ⟨fun u hu => h u (hu.trans (List.prefix_append _ _)), h _ (List.prefix_refl _)⟩
      · intro h u hu
        rcases List.prefix_concat_iff.mp hu with rfl | hu
        · exact h.2
        · exact h.1 u hu
    have hstep : CaughtUp K es (feed b es) → _ := fun hc => hc.step hs hadv hst hdeg
    refine ⟨?_, ?_⟩
    · rw [hsplit]
      by_cases hd : Drained K es
      · have hc := hcaught (hiff.mpr hd)
        rw [hc.drained_snoc hs hst (hanti _ (List.prefix_refl _))]
        have := hstep hc
        refine ⟨?_, ?_⟩
        · intro h
          refine ⟨hd, fun hfull => ?_⟩
          rw [if_pos hfull] at this
          by_cases hcnt : (feed b es).count + 1 = K
          · exact hcnt
          · rw [if_neg hcnt] at this
            rw [this] at h
            exact absurd hfull h.2
        · intro h
          refine ⟨hiff.mpr hd, ?_⟩
          split at this
          · rename_i hfull
            rw [if_pos (h.2 hfull)] at this
            exact this.1.incomplete
          · exact this.1.incomplete
      · exact ⟨fun h => absurd (hiff.mp h.1) hd, fun h => absurd h.left hd⟩
    · intro h
      rw [hsplit] at h
      have := hstep (hcaught h.1)
      split at this
      · rename_i hfull
        split at this
        · exact this.1
        · rw [this] at h
          exact absurd hfull h.2
      · exact this.1

end

/-! ## The arrivals at one rank -/

section
variable {T : Topology} {r : Nat} {w : List (Option Nat × Metrics)}

theorem Arrivals.isLeast_iff (h : Arrivals T r w) (hD : 0 < T.getDegreeNode r) (b : Bool) :
    IsLeast {n | ∃ i ∈ sources T r, (stream i w).length = n} (feed b (w.map Prod.snd)).submitted.length ↔
      (eventsAt (feed b (w.map Prod.snd)).pulseTimestamp (w.map Prod.snd)).length ≠ T.getDegreeNode r + 1 := by
  have hs := h.settled hD b
  rw [h.inOrder.isLeast_iff, hs.submitted_length, card_sources, ← eventsAt_length]
  refine ⟨?_, ?_⟩
  · intro hm
    exact hm.2
  · intro hm
    refine ⟨fun t ht => ?_, hm⟩
    rw [← eventsAt_length]
    exact hs.full t ht

theorem Arrivals.eventsAt_anti (h : Arrivals T r w) {u : List Metrics} (hu : u <+: w.map Prod.snd) {t t' : Nat}
    (ht : t ≤ t') : (eventsAt t' u).length ≤ (eventsAt t u).length := by
  obtain ⟨v, hv⟩ := hu
  obtain ⟨w₁, w₂, rfl, rfl, -⟩ := List.map_eq_append_iff.mp hv.symm
  rw [eventsAt_length, eventsAt_length]
  exact h.left.inOrder.level_anti ht

theorem Arrivals.prompt_iff (h : Arrivals T r w) (ho : OwnLast T r w) (hD : 0 < T.getDegreeNode r) (b : Bool) :
    (∀ u, u <+: w.map Prod.snd → (eventsAt (feed b u).pulseTimestamp u).length ≠ T.getDegreeNode r + 1) ↔
      Drained (T.getDegreeNode r + 1) (w.map Prod.snd) :=
  (prompt_iff_drained (by omega) (Interleaved.stair_sources h.inOrder) h.wide
    (fun u hu t t' ht => h.eventsAt_anti hu ht) fun t a ha => by rw [h.head_degree ho hD ha]).1

theorem Arrivals.isLeast_of_drained (h : Arrivals T r w) (ho : OwnLast T r w) (hD : 0 < T.getDegreeNode r) (b : Bool)
    (hd : Drained (T.getDegreeNode r + 1) (w.map Prod.snd)) {u : List (Option Nat × Metrics)} (hu : u <+: w) :
    IsLeast {n | ∃ i ∈ sources T r, (stream i u).length = n} (feed b (u.map Prod.snd)).submitted.length := by
  have hp := (h.prompt_iff ho hD b).mpr hd
  obtain ⟨v, rfl⟩ := hu
  exact (h.left.isLeast_iff hD b).mpr (hp _ (by rw [List.map_append]; exact List.prefix_append _ _))

/-- After each run the submitted events are as many as the shortest stream iff the
order is drained. -/
theorem submitted_isLeast_iff (h : Arrivals T r w) (ho : OwnLast T r w) (hD : 0 < T.getDegreeNode r) (b : Bool) :
    (∀ u, u <+: w → IsLeast {n | ∃ i ∈ sources T r, (stream i u).length = n}
      (feed b (u.map Prod.snd)).submitted.length) ↔ Drained (T.getDegreeNode r + 1) (w.map Prod.snd) := by
  refine ⟨?_, ?_⟩
  · intro hm
    rw [← h.prompt_iff ho hD b]
    intro u hu
    obtain ⟨v, hv⟩ := hu
    obtain ⟨w₁, w₂, rfl, rfl, -⟩ := List.map_eq_append_iff.mp hv.symm
    exact (h.left.isLeast_iff hD b).mp (hm w₁ (List.prefix_append _ _))
  · intro hd u hu
    exact h.isLeast_of_drained ho hD b hd hu

end

/-- Two of three leaves are a pulse ahead when pulse 0 becomes complete; each own
event follows the last child event of its pulse. -/
def twoAhead : List (Option Nat × Metrics) :=
  [(some 1, 0), (some 1, 1), (some 2, 0), (some 2, 1), (some 3, 0), (none, 0), (some 3, 1), (none, 1)].map
    fun (x : Option Nat × Nat) => (x.1, oneMetric threeLeaves (threeLeaves.announced 0 x.1) x.2)

theorem twoAhead_arrivals : Arrivals threeLeaves 0 twoAhead where
  inOrder := ⟨by decide, by decide⟩
  header := by decide

theorem submitted_isLeast_twoAhead :
    (∀ u, u <+: twoAhead → IsLeast {n | ∃ i ∈ sources threeLeaves 0, (stream i u).length = n}
      (feed false (u.map Prod.snd)).submitted.length) ↔
        Drained (threeLeaves.getDegreeNode 0 + 1) (twoAhead.map Prod.snd) :=
  submitted_isLeast_iff twoAhead_arrivals (by decide) (by decide) false

/-- All events of pulse 1 have arrived, and the script has submitted only pulse 0. -/
theorem twoAhead_stalls :
    ∃ (T : Topology) (r : Nat) (w : List (Option Nat × Metrics)), Arrivals T r w ∧ OwnLast T r w ∧
      0 < T.getDegreeNode r ∧ ¬ ∀ u, u <+: w → IsLeast {n | ∃ i ∈ sources T r, (stream i u).length = n}
        (feed false (u.map Prod.snd)).submitted.length := by
  refine ⟨threeLeaves, 0, twoAhead, twoAhead_arrivals, by decide, by decide, fun h => ?_⟩
  obtain ⟨⟨i, hi, hlen⟩, -⟩ := h twoAhead (List.prefix_refl _)
  have h2 : ∀ i ∈ sources threeLeaves 0, (stream i twoAhead).length = 2 := by decide
  have h1 : (feed false (twoAhead.map Prod.snd)).submitted.length = 1 := by decide
  have := h2 i hi
  omega

end Clarisse
