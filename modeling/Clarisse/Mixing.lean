import Clarisse.Aggregation

/-!
# Metrics that are averaged together

Every rank reads the metrics file by itself, so an aggregated event can hold
samplings of different lists. When the reads for a pulse see one list, and the
leaves notice every edit, each aggregated event holds that list only, once for
every rank of the subtree.
-/

namespace Clarisse

open Interleave

/-- Pulse `k` is the first one, or its list has another length than the one before;
then `update_file` is set. -/
def Noticed (F : Nat → List String) : Nat → Prop
  | 0 => True
  | k + 1 => (F (k + 1)).length ≠ (F k).length

/-- The samplings for pulse `k` list `F k`. What an inner rank lists one pulse ahead
may be out of date when the leaves notice the edit, and an edit that they do not
notice follows one that they do. -/
structure InStep (E : Nat → Nat → When → Sampling) (F : Nat → List String) : Prop where
  wellFormed : ∀ k, F k ≠ []
  current : ∀ r k, (E r k .current).Lists (F k)
  ahead : ∀ r k, ∃ names, names ≠ [] ∧ (E r k .next).Lists names ∧ (¬ Noticed F k → names = F k)
  edits : ∀ k, F (k + 1) ≠ F k → Noticed F (k + 1) ∨ Noticed F k

def Merges (m : Nat) (names : List String) (e : Metrics) : Prop :=
  e.contributions = List.replicate m (names.map some)

section
variable {T : Topology} {E : Nat → Nat → When → Sampling} {F : Nat → List String} {σ : Net} {r k : Nat}

theorem InStep.samples (h : InStep E F) (r : Nat) :
    Samples (E r) (fun k => ¬ Noticed F k) (fun k names _ => names = F k)
      (fun k names _ => ¬ Noticed F k → names = F k) where
  fileNow k agg nr := by
    obtain ⟨values, -, hs⟩ := sampleFile_total (h.current r k) agg nr
    exact ⟨F k, values, h.wellFormed k, rfl, hs⟩
  fileAhead k agg nr := by
    obtain ⟨names, hne, hl, hn⟩ := h.ahead r k
    obtain ⟨values, -, hs⟩ := sampleFile_total hl agg nr
    exact ⟨names, values, _, hne, hn, hs⟩
  settle _ _ _ hc ha := ha hc
  memoryNow k agg names values hh hn := by
    obtain ⟨values', -, hs⟩ := sampleMemory_total (E r k .current) hh values
    exact ⟨values', hs, hn⟩
  memoryAhead k agg names values hc hh hn := by
    obtain ⟨values', -, hs⟩ := sampleMemory_total (E r (k + 1) .next) hh values
    refine ⟨values', hs, fun hc' => ?_⟩
    by_cases he : F (k + 1) = F k
    · rw [hn, he]
    · cases h.edits k he with
      | inl hu => exact absurd hu hc'
      | inr hu => exact absurd hu hc
  not_clear_zero h := h trivial
  clear_succ k names values names' values' hn hn' hl hu := by
    rw [hn, hn'] at hl
    exact hu hl

theorem flatMap_replicate {α β : Type} {f : α → List β} {c : α → Nat} {y : β} {l : List α}
    (h : ∀ x ∈ l, f x = List.replicate (c x) y) : l.flatMap f = List.replicate (l.map c).sum y := by
  induction l with
  | nil => rfl
  | cons x l ih =>
    rw [List.flatMap_cons, h x (List.mem_cons_self ..), ih fun z hz => h z (List.mem_cons_of_mem _ hz),
      List.map_cons, List.sum_cons, List.replicate_append_replicate]

theorem level_merges {w : List (Option Nat × Metrics)} {names : List String}
    (hi : Interleaved Metrics.timestamp (sources T r) w) (hr : r < T.nprocs)
    (hf : (level Metrics.timestamp k w).length = (sources T r).card)
    (hx : ∀ x ∈ level Metrics.timestamp k w, Merges (T.part r x.1).card names x.2) :
    (eventsAt k (w.map Prod.snd)).flatMap Metrics.contributions =
      List.replicate (T.subtree r).card (names.map some) := by
  rw [eventsAt, ← level_items, List.flatMap_map, flatMap_replicate hx]
  congr 1
  have htags : ((level Metrics.timestamp k w).map fun x => (T.part r x.1).card) =
      ((level Metrics.timestamp k w).map Prod.fst).map fun i => (T.part r i).card := by
    rw [List.map_map]
    rfl
  rw [htags, ((hi.full_perm hf).map _).sum_eq, Finset.sum_map_toList, ← T.biUnion_part hr]
  exact (Finset.card_biUnion fun i hi j hj hne => T.part_disjoint hi hj hne).symm

theorem Sampled.merges {e : Metrics} (h : Sampled (fun names _ => names = F k) e) : Merges 1 (F k) e := by
  obtain ⟨names, -, -, hc, rfl⟩ := h
  exact hc

theorem Healthy.merges (h : Healthy T E (fun k => ¬ Noticed F k) (fun _ k names _ => names = F k) σ)
    (h2 : 2 ≤ T.nprocs) (hE : InStep E F) :
    ∀ r < T.nprocs, ∀ e ∈ σ.out T r, Merges (T.subtree r).card (F e.timestamp) e := by
  refine T.child_induction fun r hr ih => ?_
  intro e he
  have hk := getElem?_of_mem (h.sent h2 r hr).inOrder he
  unfold NetOf.out at hk
  cases hleaf : T.isLeaf r with
  | true =>
    rw [hleaf] at hk
    have hone : (T.subtree r).card = 1 := by
      rw [T.subtree_leaf h2 hr hleaf, Finset.card_singleton]
    rw [hone]
    exact ((h.leafContent r).submitted _ e hk).1.merges
  | false =>
    rw [hleaf] at hk
    have hn := h.inner h2 hleaf
    have hlen := (hn.settled.submitted_at hk).2
    rw [eventsAt_length, ← card_sources] at hlen
    obtain ⟨a, rest, ha, -, -, -, -, -, -, -, hc⟩ := hn.settled.submitted_first (Nat.succ_pos _) hk
    rw [Merges, hc, ← List.flatMap_cons, ← ha]
    refine level_merges hn.arrived hr hlen fun x hx => ?_
    obtain ⟨i, x⟩ := x
    have hi := (hn.arrived.mem_level hx).1
    obtain ⟨hw, ht⟩ := List.mem_filter.mp hx
    rw [decide_eq_true_eq] at ht
    rw [← ht]
    cases i with
    | some c => exact ih c (mem_sources.mp hi) x ((h.arrivedLe r c (mem_sources.mp hi)).subset (mem_stream.mpr hw))
    | none =>
      have hmem := (h.arrivedOwn r).subset (mem_stream.mpr hw)
      have hs := (h.ownContent h2 hE.samples hleaf).submitted _ x (getElem?_of_mem hn.own.stamped hmem)
      exact hs.1.merges

/-- The script submits no event with samplings of different lists. -/
theorem submitted_merges (h2 : 2 ≤ T.nprocs) (hE : InStep E F) (hσ : Reachable T E σ) (hr : r < T.nprocs)
    (hl : T.isLeaf r = false) :
    ∀ e ∈ (σ.node r).multi.submitted,
      e.contributions = List.replicate (T.subtree r).card ((F e.timestamp).map some) := by
  intro e he
  exact (hσ.healthy h2 hE.samples).merges h2 hE r hr e (by rw [NetOf.out, hl]; exact he)

end

/-- A metric is added for pulse 1, which the inner ranks first see when they close it. -/
def added (_rank k : Nat) (w : When) : Sampling :=
  .constant (if k = 0 ∨ (k = 1 ∧ w = .next) then ["load"] else ["load", "free"]) 0

def addedNames (k : Nat) : List String := if k = 0 then ["load"] else ["load", "free"]

theorem inStep_added : InStep added addedNames where
  wellFormed k := by
    unfold addedNames
    split <;> simp
  current r k := by
    cases k with
    | zero => exact ⟨⟨_, rfl, rfl⟩, rfl⟩
    | succ k => exact ⟨⟨_, rfl, by simp [addedNames]⟩, by simp [added, addedNames, Sampling.constant]⟩
  ahead r k := by
    match k with
    | 0 => exact ⟨["load"], by simp, ⟨⟨_, rfl, rfl⟩, rfl⟩, fun _ => rfl⟩
    | 1 =>
      have hn : Noticed addedNames 1 := show (addedNames 1).length ≠ (addedNames 0).length by decide
      exact ⟨["load"], by simp, ⟨⟨_, rfl, rfl⟩, rfl⟩, fun h => absurd hn h⟩
    | k + 2 =>
      exact ⟨["load", "free"], by simp, ⟨⟨_, rfl, by simp⟩, by simp [added, Sampling.constant]⟩, fun _ => rfl⟩
  edits k h := by
    cases k with
    | zero => exact Or.inr trivial
    | succ k => exact absurd rfl h

def afterAdded : Net :=
  (Transition.exec (netStep chain added) (netInit chain) (chainPulse ++ chainPulse)).getD (netInit chain)

theorem submitted_merges_added :
    (afterAdded.node 1).multi.submitted.length = 2 ∧
      ∀ e ∈ (afterAdded.node 1).multi.submitted,
        e.contributions = List.replicate (chain.subtree 1).card ((addedNames e.timestamp).map some) := by
  have hr : Reachable chain added afterAdded := ⟨chainPulse ++ chainPulse, rfl⟩
  exact ⟨rfl, submitted_merges (by decide) inStep_added hr (by decide) (by decide)⟩

/-- The contents `C 0`, `C 1`, ... of the file, as the ranks find them: each rank finds
them in that order, in every sampling one of them. -/
structure Edits (E : Nat → Nat → When → Sampling) (C : Nat → List String) : Prop where
  wellFormed : ∀ i, C i ≠ []
  reads : ∀ r, ∃ version : Nat → When → Nat,
    (∀ k, version k .next ≤ version k .current ∧ version k .current ≤ version (k + 1) .next) ∧
      ∀ k w, (E r k w).file = some (listing (C (version k w))) ∧ (E r k w).file' = some (listing (C (version k w)))

def replacedNames (k : Nat) : List String := if k = 0 then ["load"] else ["free"]

/-- The one metric is replaced; leaf 1 first sees it for pulse 1, all others for pulse 0. -/
def lateLeaf (rank k : Nat) (_ : When) : Sampling :=
  .constant (if rank = 1 ∧ k = 0 then ["load"] else ["free"]) 0

def twoLeavesPulse : List Act := [.leaf 1 false, .leaf 2 false, .terminal 1, .terminal 2, .multi 1, .multi 2, .own 0]

def afterLateLeaf : Net :=
  (Transition.exec (netStep twoLeaves lateLeaf) (netInit twoLeaves) twoLeavesPulse).getD (netInit twoLeaves)

theorem edits_lateLeaf : Edits lateLeaf replacedNames where
  wellFormed i := by
    unfold replacedNames
    split <;> simp
  reads r := by
    refine ⟨fun k _ => if r = 1 ∧ k = 0 then 0 else 1, fun k => ⟨Nat.le_refl _, ?_⟩, fun k w => ?_⟩
    · simp only [Nat.succ_ne_zero, and_false, if_false]
      split <;> simp
    · by_cases h : r = 1 ∧ k = 0
      · simp only [lateLeaf, if_pos h]
        exact ⟨rfl, rfl⟩
      · simp only [lateLeaf, if_neg h]
        exact ⟨rfl, rfl⟩

theorem lateLeaf_mixed :
    ¬ ∀ (T : Topology) (E : Nat → Nat → When → Sampling) (C : Nat → List String) (σ : Net) (r : Nat),
      2 ≤ T.nprocs → Edits E C → Reachable T E σ → r < T.nprocs → T.isLeaf r = false →
        ∀ e ∈ (σ.node r).multi.submitted, ∀ x ∈ e.contributions, ∀ y ∈ e.contributions, x = y := by
  intro h
  have hr : Reachable twoLeaves lateLeaf afterLateLeaf := ⟨twoLeavesPulse, rfl⟩
  have hall :=
    h twoLeaves lateLeaf replacedNames afterLateLeaf 0 (by decide) edits_lateLeaf hr (by decide) (by decide)
  have hsub : ((afterLateLeaf.node 0).multi.submitted.map Metrics.contributions) =
      [[[some "load"], [some "free"], [some "free"]]] := rfl
  obtain ⟨e, he, hc⟩ := List.map_eq_singleton_iff.mp hsub
  have := hall e (by rw [he]; exact List.mem_singleton_self _) [some "load"] (by rw [hc]; simp)
    [some "free"] (by rw [hc]; simp)
  exact absurd this (by decide)

end Clarisse
