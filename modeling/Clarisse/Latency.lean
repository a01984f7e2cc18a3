import Clarisse.Stone
import Mathlib.Order.Bounds.Basic

/-!
# The start time of a pulse

In the benchmarking build the leaves stamp their events with the time and the
own events carry -1. The script takes the smaller start time inside the loop
over the columns, so an event without columns is not looked at.
-/

namespace Clarisse

open Interleave

def childStarts (w : List (Option Nat × Metrics)) (p : Nat) : Set Rat :=
  {t | ∃ c e, (some c, e) ∈ level Metrics.timestamp p w ∧ e.startTime = t}

/-- `n` columns in every event, -1 as the start time of the own events only. -/
structure Timed (n : Nat) (w : List (Option Nat × Metrics)) : Prop where
  metricsNr : ∀ x ∈ w, x.2.metricsNr = n
  own : ∀ x ∈ w, x.1 = none → x.2.startTime = -1
  child : ∀ x ∈ w, x.1 ≠ none → x.2.startTime ≠ -1

instance (n : Nat) (w : List (Option Nat × Metrics)) : Decidable (Timed n w) :=
  decidable_of_iff
    (∀ x ∈ w, x.2.metricsNr = n ∧ (x.1 = none → x.2.startTime = -1) ∧ (x.1 ≠ none → x.2.startTime ≠ -1))
    ⟨fun h => ⟨fun x hx => (h x hx).1, fun x hx => (h x hx).2.1, fun x hx => (h x hx).2.2⟩,
      fun h x hx => ⟨h.metricsNr x hx, h.own x hx, h.child x hx⟩⟩

section
variable {acc : AggregatedEvent} {a : Metrics} {rest : List Metrics}

theorem merge_start : (acc.merge true a).header.startTime =
    if 0 < a.metricsNr ∧ a.startTime ≠ -1 ∧ a.startTime < acc.header.startTime then a.startTime
    else acc.header.startTime := by
  simp [AggregatedEvent.merge]

theorem fold_start_zero (hn : ∀ x ∈ rest, x.metricsNr = 0) :
    (rest.foldl (AggregatedEvent.merge true) acc).header.startTime = acc.header.startTime := by
  induction rest generalizing acc with
  | nil => rfl
  | cons a rest ih =>
    rw [List.foldl_cons, ih fun x hx => hn x (List.mem_cons_of_mem _ hx), merge_start, if_neg]
    rw [hn a (List.mem_cons_self ..)]
    exact fun h => absurd h.1 (Int.lt_irrefl 0)

theorem fold_start_least (hn : ∀ x ∈ rest, 0 < x.metricsNr) :
    IsLeast {t | t = acc.header.startTime ∨ ∃ x ∈ rest, x.startTime ≠ -1 ∧ x.startTime = t}
      (rest.foldl (AggregatedEvent.merge true) acc).header.startTime := by
  induction rest using List.reverseRecOn with
  | nil =>
    refine ⟨Or.inl rfl, ?_⟩
    rintro t (rfl | ⟨x, hx, -⟩)
    · exact le_refl _
    · cases hx
  | append_singleton rest a ih =>
    obtain ⟨hmem, hlow⟩ := ih fun x hx => hn x (List.mem_append_left _ hx)
    have ha : 0 < a.metricsNr := hn a (by simp)
    rw [List.foldl_append, List.foldl_cons, List.foldl_nil, merge_start]
    generalize (rest.foldl (AggregatedEvent.merge true) acc).header.startTime = m at hmem hlow
    have hmem' : m = acc.header.startTime ∨ ∃ x ∈ rest ++ [a], x.startTime ≠ -1 ∧ x.startTime = m := by
      refine hmem.imp id ?_
      rintro ⟨x, hx, h⟩
      exact ⟨x, List.mem_append_left _ hx, h⟩
    have hlow' : ∀ t, (t = acc.header.startTime ∨ ∃ x ∈ rest ++ [a], x.startTime ≠ -1 ∧ x.startTime = t) →
        m ≤ t ∨ (a.startTime ≠ -1 ∧ a.startTime = t) := by
      rintro t (ht | ⟨x, hx, hx1, ht⟩)
      · exact Or.inl (hlow (Or.inl ht))
      · rw [List.mem_append, List.mem_singleton] at hx
        rcases hx with hx | rfl
        · exact Or.inl (hlow (Or.inr ⟨x, hx, hx1, ht⟩))
        · exact Or.inr ⟨hx1, ht⟩
    by_cases hlt : a.startTime ≠ -1 ∧ a.startTime < m
    · rw [if_pos ⟨ha, hlt⟩]
      refine ⟨Or.inr ⟨a, by simp, hlt.1, rfl⟩, fun t ht => ?_⟩
      rcases hlow' t ht with h | ⟨-, h⟩
      · exact hlt.2.le.trans h
      · exact h.le
    · rw [if_neg fun h => hlt h.2]
      refine ⟨hmem', fun t ht => ?_⟩
      rcases hlow' t ht with h | ⟨h1, h2⟩
      · exact h
      · rw [← h2]
        exact not_lt.mp fun h => hlt ⟨h1, h⟩

end

section
variable {T : Topology} {r n p : Nat} {w : List (Option Nat × Metrics)} {e : Metrics}

theorem Timed.start_ne_iff (h : Timed n w) {x : Option Nat × Metrics} (hx : x ∈ w) :
    x.2.startTime ≠ -1 ↔ x.1 ≠ none :=
  ⟨fun hs hn => hs (h.own x hx hn), h.child x hx⟩

theorem Timed.childStarts_eq (h : Timed n w) {x : Option Nat × Metrics} {l : List (Option Nat × Metrics)}
    (hl : level Metrics.timestamp p w = x :: l) (hx : x.1 ≠ none) :
    childStarts w p =
      {t | t = x.2.startTime ∨ ∃ y ∈ l.map Prod.snd, y.startTime ≠ -1 ∧ y.startTime = t} := by
  have hmem : ∀ y ∈ x :: l, y ∈ w := fun y hy => (List.mem_filter.mp (hl ▸ hy : y ∈ level Metrics.timestamp p w)).1
  ext t
  rw [childStarts, hl]
  refine ⟨?_, ?_⟩
  · rintro ⟨c, e, he, rfl⟩
    rcases List.mem_cons.mp he with rfl | he
    · exact Or.inl rfl
    · have hstart : e.startTime ≠ -1 := (h.start_ne_iff (hmem _ (List.mem_cons_of_mem _ he))).mpr nofun
      exact Or.inr ⟨e, List.mem_map_of_mem he, hstart, rfl⟩
  · rintro (rfl | ⟨y, hy, hstart, rfl⟩)
    · obtain ⟨i, a⟩ := x
      cases i with
      | none => exact absurd rfl hx
      | some c => exact ⟨c, a, List.mem_cons_self .., rfl⟩
    · obtain ⟨⟨i, y⟩, hm, rfl⟩ := List.mem_map.mp hy
      have hi := (h.start_ne_iff (hmem _ (List.mem_cons_of_mem _ hm))).mp hstart
      cases i with
      | none => exact absurd rfl hi
      | some c => exact ⟨c, y, List.mem_cons_of_mem _ hm, rfl⟩

/-- The event of a pulse starts with its earliest child iff there is a column, or that
child is the first to arrive. -/
theorem submitted_start_iff (h : Arrivals T r w) (ho : OwnLast T r w) (hD : 0 < T.getDegreeNode r) (ht : Timed n w)
    (he : (feed true (w.map Prod.snd)).submitted[p]? = some e) :
    IsLeast (childStarts w p) e.startTime ↔
      0 < n ∨ ∃ first, (level Metrics.timestamp p w).head? = some first ∧
        IsLeast (childStarts w p) first.2.startTime := by
  obtain ⟨rfl, hlen⟩ := (h.settled hD true).submitted_at he
  have hitems := level_items Metrics.timestamp p w
  cases hl : level Metrics.timestamp p w with
  | nil =>
    rw [eventsAt, ← hitems, hl] at hlen
    simp at hlen
  | cons x l =>
    rw [hl, List.map_cons] at hitems
    have hmem : ∀ y ∈ x :: l, y ∈ w := fun y hy => (List.mem_filter.mp (hl ▸ hy : y ∈ level Metrics.timestamp p w)).1
    have hxw := hmem x (List.mem_cons_self ..)
    -- the own event comes after the children's, so the first one is stamped
    have hx : x.1 ≠ none := by
      have hfirst : (eventsAt p (w.map Prod.snd)).head? = some x.2 := by rw [eventsAt, ← hitems]; rfl
      obtain ⟨c, hc⟩ := ho.head_child hD hfirst
      exact (ht.start_ne_iff hxw).mp (ht.child (some c, x.2) hc (Option.some_ne_none c))
    have hstart : (aggregate true p (eventsAt p (w.map Prod.snd))).startTime =
        ((l.map Prod.snd).foldl (AggregatedEvent.merge true)
          (AggregatedEvent.first p x.2 default)).header.startTime := by
      rw [eventsAt, ← hitems]
      rfl
    have hn : ∀ y ∈ l.map Prod.snd, y.metricsNr = n := by
      intro y hy
      obtain ⟨z, hz, rfl⟩ := List.mem_map.mp hy
      exact ht.metricsNr z (hmem z (List.mem_cons_of_mem _ hz))
    rw [hstart, ht.childStarts_eq hl hx, List.head?_cons]
    rcases Nat.eq_zero_or_pos n with h0 | h0
    · rw [fold_start_zero fun y hy => by rw [hn y hy, h0]; rfl]
      simp [h0, AggregatedEvent.first]
    · exact iff_of_true (fold_start_least fun y hy => by rw [hn y hy]; exact Int.natCast_pos.mpr h0) (Or.inl h0)

end

/-- The events of pulse 0 with `n` columns, from leaf 1 at time 5, leaf 2 at time 3 and
the root itself. -/
def leafTimes (n : Nat) : List (Option Nat × Metrics) :=
  [(some 1, 5), (some 2, 3), (none, -1)].map fun (x : Option Nat × Rat) =>
    (x.1, { oneMetric twoLeaves (twoLeaves.announced 0 x.1) 0 with
      metricsNr := n, gatherInfo := List.replicate n (single 0), startTime := x.2 })

theorem submitted_start_leafTimes :
    let e := aggregate true 0 ((leafTimes 1).map Prod.snd)
    e.startTime = 3 ∧ (IsLeast (childStarts (leafTimes 1) 0) e.startTime ↔
      0 < 1 ∨ ∃ first, (level Metrics.timestamp 0 (leafTimes 1)).head? = some first ∧
        IsLeast (childStarts (leafTimes 1) 0) first.2.startTime) := by
  refine ⟨by decide, ?_⟩
  exact submitted_start_iff (T := twoLeaves) (r := 0) ⟨⟨by decide, by decide⟩, by decide⟩ (by decide) (by decide)
    (by decide) rfl

/-- Without a metric the start time is that of the leaf whose event arrives first. -/
theorem noMetrics_late_start :
    ∃ (T : Topology) (r n : Nat) (w : List (Option Nat × Metrics)) (p : Nat) (e : Metrics), Arrivals T r w ∧
      OwnLast T r w ∧ 0 < T.getDegreeNode r ∧ Timed n w ∧ (feed true (w.map Prod.snd)).submitted[p]? = some e ∧
      ¬ IsLeast (childStarts w p) e.startTime := by
  refine ⟨twoLeaves, 0, 0, leafTimes 0, 0, aggregate true 0 ((leafTimes 0).map Prod.snd),
    ⟨⟨by decide, by decide⟩, by decide⟩, by decide, by decide, by decide, rfl, ?_⟩
  intro h
  have h3 : (3 : Rat) ∈ childStarts (leafTimes 0) 0 :=
    ⟨2, _, List.mem_of_mem_tail (by exact List.mem_cons_self ..), rfl⟩
  have h5 : (aggregate true 0 ((leafTimes 0).map Prod.snd)).startTime = 5 := by decide
  have := h.2 h3
  rw [h5] at this
  exact absurd this (by decide)

end Clarisse
