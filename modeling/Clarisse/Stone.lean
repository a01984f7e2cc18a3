import Clarisse.MultiFuncSound
import Mathlib.Data.Finset.Option

/-!
# The arrivals at a multi stone

The stone of rank `r` gets one stream of events from each child and the stream
of the rank's own events. A run of the script takes one event of the open pulse,
and one more of the next pulse when it submits, so an event that is already
queued when its pulse opens has to wait for a later arrival.
-/

namespace Clarisse

open Interleave

/-- The streams at the stone of `r`: `some c` from the child `c`, `none` its own. -/
def sources (T : Topology) (r : Nat) : Finset (Option Nat) := (T.children r).insertNone

/-- The `parent_rank` that the events of a stream carry at `r`. -/
def Topology.announced (T : Topology) (r : Nat) : Option Nat → Int
  | none => T.getParent r
  | some _ => r

structure Arrivals (T : Topology) (r : Nat) (w : List (Option Nat × Metrics)) : Prop where
  inOrder : Interleaved Metrics.timestamp (sources T r) w
  header : ∀ x ∈ w, x.2.parentRank = T.announced r x.1 ∧ x.2.maxDegree = T.maxDegree ∧ x.2.nprocs = T.nprocs

/-- An own event arrives after the events of its pulse from all children. -/
def OwnLast (T : Topology) (r : Nat) (w : List (Option Nat × Metrics)) : Prop :=
  ∀ u e v, w = u ++ (none, e) :: v → ∀ c ∈ T.children r, ∃ e', (some c, e') ∈ u ∧ e'.timestamp = e.timestamp

instance (T : Topology) (r : Nat) (w : List (Option Nat × Metrics)) : Decidable (OwnLast T r w) :=
  decidable_of_iff (∀ i : Fin w.length, (w.get i).1 = none → ∀ c ∈ T.children r,
      ∃ x ∈ w.take i, x.1 = some c ∧ x.2.timestamp = (w.get i).2.timestamp) <| by
    refine ⟨?_, ?_⟩
    · intro h u e v hw c hc
      subst hw
      have := h ⟨u.length, by simp⟩ (by simp) c hc
      obtain ⟨⟨_, e'⟩, hx, rfl, ht⟩ := this
      simp only [List.take_left'] at hx
      exact ⟨e', hx, by simpa using ht⟩
    · intro h i hi c hc
      have hw : w = w.take i ++ (none, (w.get i).2) :: w.drop (i + 1) := by
        rw [← hi]
        simp
      obtain ⟨e', he', ht⟩ := h _ _ _ hw c hc
      exact ⟨_, he', rfl, ht⟩

theorem card_sources (T : Topology) (r : Nat) : (sources T r).card = T.getDegreeNode r + 1 := by
  rw [sources, Finset.card_insertNone, T.card_children]

theorem mem_sources {T : Topology} {r c : Nat} : some c ∈ sources T r ↔ c ∈ T.children r :=
  Finset.some_mem_insertNone

theorem getParent_le (T : Topology) (r : Nat) : T.getParent r ≤ r := by
  rcases Nat.eq_zero_or_pos r with h | h
  · subst h
    have hd : (0 : Int) < T.maxDegree := Int.natCast_pos.mpr T.maxDegree_pos
    have : Int.tdiv (-1) (T.maxDegree : Int) = -Int.tdiv 1 (T.maxDegree : Int) := Int.neg_tdiv _ _
    have h1 : 0 ≤ Int.tdiv 1 (T.maxDegree : Int) := Int.tdiv_nonneg (by omega) (by omega)
    rw [Topology.getParent]
    change Int.tdiv (-1) _ ≤ 0
    omega
  · rw [T.getParent_pos h]
    have := T.parent_lt h
    omega

theorem degree_ge {T : Topology} {r : Nat} {e : Metrics} (hp : e.parentRank ≤ r) (hd : e.maxDegree = T.maxDegree)
    (hn : e.nprocs = T.nprocs) : T.getDegreeNode r ≤ e.degree := by
  rw [Metrics.degree, hd, hn]
  exact degreeLoop_anti (by omega) hp

theorem degree_self {T : Topology} {r : Nat} {e : Metrics} (hp : e.parentRank = r) (hd : e.maxDegree = T.maxDegree)
    (hn : e.nprocs = T.nprocs) : e.degree = T.getDegreeNode r := by
  rw [Metrics.degree, hd, hn, hp]; rfl

theorem eventsAt_length (t : Nat) (w : List (Option Nat × Metrics)) :
    (eventsAt t (w.map Prod.snd)).length = (level Metrics.timestamp t w).length := by
  rw [eventsAt, ← level_items, List.length_map]

theorem eventsAt_head_append {t : Nat} {u v : List Metrics} {a : Metrics} (h : (eventsAt t u).head? = some a) :
    (eventsAt t (u ++ v)).head? = some a := by
  rw [eventsAt, items_append]
  cases hu : items Metrics.timestamp t u with
  | nil => rw [eventsAt, hu] at h; cases h
  | cons x l => rw [eventsAt, hu] at h; exact h

section
variable {T : Topology} {r : Nat} {w : List (Option Nat × Metrics)}

theorem Arrivals.left {u v : List (Option Nat × Metrics)} (h : Arrivals T r (u ++ v)) : Arrivals T r u where
  inOrder := h.inOrder.left
  header x hx := h.header x (List.mem_append_left _ hx)

theorem OwnLast.left {u v : List (Option Nat × Metrics)} (h : OwnLast T r (u ++ v)) : OwnLast T r u := by
  intro x e y he
  exact h x e (y ++ v) (by rw [he]; simp)

theorem Interleaved.stair_sources (h : Interleaved Metrics.timestamp (sources T r) w) :
    Stair Metrics.timestamp (T.getDegreeNode r + 1) (w.map Prod.snd) := by
  have := h.stair
  rw [card_sources] at this
  exact this

theorem Arrivals.wide (h : Arrivals T r w) : Wide (T.getDegreeNode r + 1) (w.map Prod.snd) := by
  intro e he
  obtain ⟨⟨s, e⟩, hm, rfl⟩ := List.mem_map.mp he
  obtain ⟨hp, hd, hn⟩ := h.header _ hm
  refine Nat.succ_le_succ (degree_ge ?_ hd hn)
  rw [hp]
  cases s with
  | none => exact getParent_le T r
  | some c => exact Int.le_refl _

theorem Arrivals.settled (h : Arrivals T r w) (hD : 0 < T.getDegreeNode r) (b : Bool) :
    Settled b (T.getDegreeNode r + 1) (w.map Prod.snd) (feed b (w.map Prod.snd)) :=
  feed_settled (by omega) (Interleaved.stair_sources h.inOrder) h.wide

theorem OwnLast.head_child (ho : OwnLast T r w) (hD : 0 < T.getDegreeNode r) {t : Nat} {a : Metrics}
    (ha : (eventsAt t (w.map Prod.snd)).head? = some a) : ∃ c, (some c, a) ∈ w := by
  rw [eventsAt, ← level_items, List.head?_map, Option.map_eq_some_iff] at ha
  obtain ⟨⟨s, a⟩, hx, rfl⟩ := ha
  have hm := List.mem_filter.mp (List.mem_of_mem_head? hx)
  cases s with
  | some c => exact ⟨c, hm.1⟩
  | none =>
    obtain ⟨u, v, rfl⟩ := List.append_of_mem hm.1
    have hat : a.timestamp = t := by simpa using hm.2
    -- some child's event of the pulse is before the first own event of the pulse
    obtain ⟨u, v, he, hno⟩ : ∃ u' v', u ++ (none, a) :: v = u' ++ (none, a) :: v' ∧ (none, a) ∉ u' := by
      have hmem : ((none : Option Nat), a) ∈ u ++ (none, a) :: v := by simp
      exact List.eq_append_cons_of_mem hmem
    obtain ⟨c, hc⟩ : ∃ c, c ∈ T.children r := by
      rw [← T.card_children, Finset.card_pos] at hD
      exact hD
    obtain ⟨e', he', ht'⟩ := ho u a v he c hc
    rw [he, level_append, List.head?_append] at hx
    cases hl : (level Metrics.timestamp t u).head? with
    | none =>
      rw [List.head?_eq_none_iff] at hl
      have : (some c, e') ∈ level Metrics.timestamp t u :=
        List.mem_filter.mpr ⟨he', by simpa [hat] using ht'⟩
      rw [hl] at this
      cases this
    | some z =>
      rw [hl] at hx
      obtain rfl : z = (none, a) := by simpa using hx
      exact absurd (List.mem_filter.mp (List.mem_of_mem_head? hl)).1 hno

theorem Arrivals.head_degree (h : Arrivals T r w) (ho : OwnLast T r w) (hD : 0 < T.getDegreeNode r) {t : Nat}
    {a : Metrics} (ha : (eventsAt t (w.map Prod.snd)).head? = some a) : a.degree = T.getDegreeNode r := by
  obtain ⟨c, hc⟩ := ho.head_child hD ha
  obtain ⟨hp, hd, hn⟩ := h.header _ hc
  exact degree_self hp hd hn

variable {b : Bool} {p : Nat} {e : Metrics}

theorem Arrivals.submitted_full (h : Arrivals T r w) (hD : 0 < T.getDegreeNode r)
    (he : (feed b (w.map Prod.snd)).submitted[p]? = some e) :
    (level Metrics.timestamp p w).length = T.getDegreeNode r + 1 := by
  rw [← eventsAt_length]
  exact ((h.settled hD b).submitted_at he).2

/-! ## The flags of a pulse -/

/-- `quit` and `update_file` of `e` are set iff some event of pulse `p` has them set. -/
def FlagsMerged (w : List (Option Nat × Metrics)) (p : Nat) (e : Metrics) : Prop :=
  (e.quit ≠ 0 ↔ ∃ x ∈ level Metrics.timestamp p w, x.2.quit ≠ 0) ∧
    (e.updateFile ≠ 0 ↔ ∃ x ∈ level Metrics.timestamp p w, x.2.updateFile ≠ 0)

/-- The first event of pulse `p` to arrive has every flag that an event of the pulse has. -/
def FirstHasFlags (w : List (Option Nat × Metrics)) (p : Nat) : Prop :=
  ∀ a ∈ (level Metrics.timestamp p w).head?, ∀ x ∈ level Metrics.timestamp p w,
    (x.2.quit ≠ 0 → a.2.quit ≠ 0) ∧ (x.2.updateFile ≠ 0 → a.2.updateFile ≠ 0)

theorem Arrivals.submitted_flags (h : Arrivals T r w) (hD : 0 < T.getDegreeNode r)
    (he : (feed b (w.map Prod.snd)).submitted[p]? = some e) :
    ∃ a, (level Metrics.timestamp p w).head? = some a ∧ e.quit = a.2.quit ∧ e.updateFile = a.2.updateFile := by
  obtain ⟨a, rest, ha, -, -, hu, -, -, -, hq, -⟩ := (h.settled hD b).submitted_first (Nat.succ_pos _) he
  have hm := level_items Metrics.timestamp p w
  rw [eventsAt] at ha
  rw [ha] at hm
  cases hl : level Metrics.timestamp p w with
  | nil => rw [hl] at hm; cases hm
  | cons x l =>
    rw [hl, List.map_cons] at hm
    obtain ⟨rfl, -⟩ := List.cons.inj hm
    exact ⟨x, rfl, hq, hu⟩

theorem Arrivals.flagsMerged_iff (h : Arrivals T r w) (hD : 0 < T.getDegreeNode r)
    (he : (feed b (w.map Prod.snd)).submitted[p]? = some e) : FlagsMerged w p e ↔ FirstHasFlags w p := by
  obtain ⟨a, ha, hq, hu⟩ := h.submitted_flags hD he
  have hmem : a ∈ level Metrics.timestamp p w := List.mem_of_mem_head? ha
  unfold FlagsMerged FirstHasFlags
  rw [ha, hq, hu]
  refine ⟨?_, ?_⟩
  · intro hm a' ha' x hx
    obtain rfl : a = a' := by simpa using ha'
    exact ⟨fun hx' => hm.1.mpr ⟨x, hx, hx'⟩, fun hx' => hm.2.mpr ⟨x, hx, hx'⟩⟩
  · intro hf
    have hf := hf a rfl
    refine ⟨⟨fun hn => ⟨a, hmem, hn⟩, ?_⟩, ⟨fun hn => ⟨a, hmem, hn⟩, ?_⟩⟩
    · intro hex
      obtain ⟨x, hx, hn⟩ := hex
      exact (hf x hx).1 hn
    · intro hex
      obtain ⟨x, hx, hn⟩ := hex
      exact (hf x hx).2 hn

theorem Arrivals.flagsMerged_agree {w' : List (Option Nat × Metrics)} {e' : Metrics} (h : Arrivals T r w)
    (h' : Arrivals T r w') (hs : ∀ i ∈ sources T r, stream i w = stream i w') (hm : FlagsMerged w p e)
    (hm' : FlagsMerged w' p e') : (e.quit ≠ 0 ↔ e'.quit ≠ 0) ∧ (e.updateFile ≠ 0 ↔ e'.updateFile ≠ 0) := by
  have hlev : ∀ x, x ∈ level Metrics.timestamp p w ↔ x ∈ level Metrics.timestamp p w' := by
    intro x
    obtain ⟨i, x⟩ := x
    rw [level, level, List.mem_filter, List.mem_filter, ← mem_stream, ← mem_stream]
    by_cases hi : i ∈ sources T r
    · rw [hs i hi]
    · rw [mem_stream, mem_stream]
      exact ⟨fun hx => absurd (h.inOrder.tag _ hx.1) hi, fun hx => absurd (h'.inOrder.tag _ hx.1) hi⟩
  rw [hm.1, hm.2, hm'.1, hm'.2]
  exact ⟨exists_congr fun x => and_congr_left' (hlev x), exists_congr fun x => and_congr_left' (hlev x)⟩

/-- The event of a pulse merges the flags of its events iff the first of them to
arrive has them all; two orders for which that is so submit the same flags. -/
theorem submitted_flagsMerged_iff (h : Arrivals T r w) (hD : 0 < T.getDegreeNode r)
    (he : (feed b (w.map Prod.snd)).submitted[p]? = some e) :
    (level Metrics.timestamp p w).length = T.getDegreeNode r + 1 ∧ (FlagsMerged w p e ↔ FirstHasFlags w p) ∧
      ∀ w' e', Arrivals T r w' → (∀ i ∈ sources T r, stream i w = stream i w') →
        (feed b (w'.map Prod.snd)).submitted[p]? = some e' → FirstHasFlags w p → FirstHasFlags w' p →
          (e.quit ≠ 0 ↔ e'.quit ≠ 0) ∧ (e.updateFile ≠ 0 ↔ e'.updateFile ≠ 0) := by
  refine ⟨h.submitted_full hD he, h.flagsMerged_iff hD he, ?_⟩
  intro w' e' h' hs he' hf hf'
  exact h.flagsMerged_agree h' hs ((h.flagsMerged_iff hD he).mpr hf) ((h'.flagsMerged_iff hD he').mpr hf')

end

def oneMetric (T : Topology) (parentRank : Int) (t : Nat) : Metrics where
  metricsNr := 1
  gatherInfo := [single 0]
  maxDegree := T.maxDegree
  updateFile := 0
  parentRank := parentRank
  nprocs := T.nprocs
  timestamp := t
  quit := 0
  startTime := 0
  contributions := []


def lateQuit : List (Option Nat × Metrics) :=
  [(some 1, 0), (some 2, 1), (none, 1)].map fun (x : Option Nat × Int) =>
    (x.1, { oneMetric twoLeaves (twoLeaves.announced 0 x.1) 0 with quit := x.2 })

theorem lateQuit_arrivals : Arrivals twoLeaves 0 lateQuit where
  inOrder := ⟨by decide, by decide⟩
  header := by decide

theorem submitted_flagsMerged_lateQuit :
    let e := aggregate false 0 (lateQuit.map Prod.snd)
    (level Metrics.timestamp 0 lateQuit).length = twoLeaves.getDegreeNode 0 + 1 ∧
      (FlagsMerged lateQuit 0 e ↔ FirstHasFlags lateQuit 0) ∧
      ∀ w' e', Arrivals twoLeaves 0 w' → (∀ i ∈ sources twoLeaves 0, stream i lateQuit = stream i w') →
        (feed false (w'.map Prod.snd)).submitted[0]? = some e' → FirstHasFlags lateQuit 0 → FirstHasFlags w' 0 →
          (e.quit ≠ 0 ↔ e'.quit ≠ 0) ∧ (e.updateFile ≠ 0 ↔ e'.updateFile ≠ 0) :=
  submitted_flagsMerged_iff lateQuit_arrivals (by decide) rfl

theorem lateQuit_lost :
    ∃ (T : Topology) (r : Nat) (w : List (Option Nat × Metrics)) (p : Nat) (e : Metrics), Arrivals T r w ∧
      0 < T.getDegreeNode r ∧ (feed false (w.map Prod.snd)).submitted[p]? = some e ∧ ¬ FlagsMerged w p e := by
  refine ⟨twoLeaves, 0, lateQuit, 0, aggregate false 0 (lateQuit.map Prod.snd), lateQuit_arrivals, by decide,
    rfl, ?_⟩
  intro h
  exact absurd (h.1.mpr ⟨_, List.mem_of_mem_tail (by exact List.mem_cons_self ..), by decide⟩) (by decide)

end Clarisse
