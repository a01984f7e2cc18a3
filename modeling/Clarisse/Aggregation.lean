import Clarisse.Contents
import Clarisse.Digest
import Clarisse.Relay
import Mathlib.Algebra.BigOperators.Ring.Finset
import Mathlib.Data.Rat.BigOperators
import Mathlib.Logic.Relation

/-!
# What the root is told

When every rank measures the same number of metrics, the event of pulse `k` that
a rank sends holds in column `j` the digest of what the ranks of its subtree
measured, and the results that `final_result` stores are those of all ranks.
-/

namespace Clarisse

open Interleave

/-! ## The ranks below a rank -/

namespace Topology

section
variable (T : Topology)

def Below : Nat → Nat → Prop := Relation.ReflTransGen fun c p => 0 < c ∧ T.parent c = p

open Classical in
noncomputable def subtree (r : Nat) : Finset Nat := (Finset.range T.nprocs).filter fun x => T.Below x r

variable {T}
variable {r c x : Nat}

theorem mem_subtree : x ∈ T.subtree r ↔ x < T.nprocs ∧ T.Below x r := by
  simp [subtree]

theorem Below.le (h : T.Below x r) : r ≤ x := by
  induction h with
  | refl => exact Nat.le_refl _
  | tail _ hs ih =>
    obtain ⟨h0, rfl⟩ := hs
    exact Nat.le_trans (Nat.le_of_lt (T.parent_lt h0)) ih

theorem below_zero (x : Nat) : T.Below x 0 := by
  induction x using Nat.strong_induction_on with
  | _ x ih =>
    rcases Nat.eq_zero_or_pos x with h0 | h0
    · subst h0
      exact Relation.ReflTransGen.refl
    · exact Relation.ReflTransGen.head ⟨h0, rfl⟩ (ih _ (T.parent_lt h0))

theorem subtree_disjoint {c' : Nat} (hc : c ∈ T.children r) (hc' : c' ∈ T.children r) (h : c ≠ c') :
    Disjoint (T.subtree c) (T.subtree c') := by
  have key : ∀ {a b : Nat}, a ∈ T.children r → b ∈ T.children r → T.Below a b → a = b := by
    intro a b ha hb hab
    cases Relation.ReflTransGen.cases_head hab with
    | inl he => exact he
    | inr hs =>
      obtain ⟨p, ⟨-, rfl⟩, hp⟩ := hs
      rw [(T.mem_children.mp ha).2.2] at hp
      have := Below.le hp
      have := (T.lt_of_mem_children hb).1
      omega
  rw [Finset.disjoint_left]
  intro x hx hx'
  have htotal := Relation.ReflTransGen.total_of_right_unique (fun a b c hb hc => hb.2.symm.trans hc.2)
    (mem_subtree.mp hx).2 (mem_subtree.mp hx').2
  cases htotal with
  | inl hb => exact h (key hc hc' hb)
  | inr hb => exact h (key hc' hc hb).symm

theorem not_mem_subtree (hc : c ∈ T.children r) : r ∉ T.subtree c := by
  intro hr
  have := (mem_subtree.mp hr).2.le
  have := (T.lt_of_mem_children hc).1
  omega

theorem subtree_eq (hr : r < T.nprocs) : T.subtree r = insert r ((T.children r).biUnion T.subtree) := by
  ext x
  rw [Finset.mem_insert, Finset.mem_biUnion]
  refine ⟨?_, ?_⟩
  · intro hx
    obtain ⟨hn, hb⟩ := mem_subtree.mp hx
    cases Relation.ReflTransGen.cases_tail hb with
    | inl he => exact Or.inl he.symm
    | inr hs =>
      obtain ⟨c, hc, h0, hp⟩ := hs
      have hcn : c < T.nprocs := Nat.lt_of_le_of_lt (Below.le hc) hn
      exact Or.inr ⟨c, T.mem_children.mpr ⟨h0, hcn, hp⟩, mem_subtree.mpr ⟨hn, hc⟩⟩
  · intro hx
    cases hx with
    | inl he => exact mem_subtree.mpr ⟨he ▸ hr, he ▸ Relation.ReflTransGen.refl⟩
    | inr hs =>
      obtain ⟨c, hc, hx⟩ := hs
      obtain ⟨hn, hb⟩ := mem_subtree.mp hx
      obtain ⟨h0, -, hp⟩ := T.mem_children.mp hc
      exact mem_subtree.mpr ⟨hn, hb.tail ⟨h0, hp⟩⟩

theorem subtree_of_child (hc : c ∈ T.children r) (hx : x ∈ T.subtree c) : x ∈ T.subtree r := by
  have hlt := T.lt_of_mem_children hc
  rw [subtree_eq (Nat.lt_trans hlt.1 hlt.2), Finset.mem_insert, Finset.mem_biUnion]
  exact Or.inr ⟨c, hc, hx⟩

theorem subtree_leaf (h2 : 2 ≤ T.nprocs) (hr : r < T.nprocs) (hl : T.isLeaf r = true) : T.subtree r = {r} := by
  have hnone : T.children r = ∅ := by
    rw [← Finset.card_eq_zero, T.card_children]
    exact (T.isLeaf_iff h2 r).mp hl
  rw [subtree_eq hr, hnone, Finset.biUnion_empty, insert_empty_eq]

theorem subtree_zero : T.subtree 0 = Finset.range T.nprocs := by
  ext x
  rw [mem_subtree, Finset.mem_range]
  exact and_iff_left (below_zero x)

noncomputable def part (r : Nat) : Option Nat → Finset Nat
  | none => {r}
  | some c => T.subtree c

theorem part_disjoint {i j : Option Nat} (hi : i ∈ sources T r) (hj : j ∈ sources T r) (h : i ≠ j) :
    Disjoint (T.part r i) (T.part r j) := by
  cases i with
  | none =>
    cases j with
    | none => exact absurd rfl h
    | some c => exact Finset.disjoint_singleton_left.mpr (not_mem_subtree (mem_sources.mp hj))
  | some c =>
    cases j with
    | none => exact Finset.disjoint_singleton_right.mpr (not_mem_subtree (mem_sources.mp hi))
    | some c' => exact subtree_disjoint (mem_sources.mp hi) (mem_sources.mp hj) fun he => h (congrArg some he)

theorem biUnion_part (hr : r < T.nprocs) : (sources T r).biUnion (T.part r) = T.subtree r := by
  rw [subtree_eq hr]
  ext x
  rw [Finset.mem_biUnion, Finset.mem_insert, Finset.mem_biUnion]
  refine ⟨?_, ?_⟩
  · intro hx
    obtain ⟨i, hi, hx⟩ := hx
    cases i with
    | none => exact Or.inl (Finset.mem_singleton.mp hx)
    | some c => exact Or.inr ⟨c, mem_sources.mp hi, hx⟩
  · intro hx
    cases hx with
    | inl he => exact ⟨none, Finset.none_mem_insertNone, Finset.mem_singleton.mpr he⟩
    | inr hs =>
      obtain ⟨c, hc, hx⟩ := hs
      exact ⟨some c, mem_sources.mpr hc, hx⟩

end

end Topology

/-! ## Columns -/

def Aggregators.digest (g : Aggregators) : Digest Int := ⟨g.min, g.max, g.sum⟩

theorem digest_merge (g a : Aggregators) : (g.merge a).digest = g.digest.merge a.digest := by
  simp only [Aggregators.merge, Aggregators.digest, Digest.merge]
  congr 1
  · split <;> omega
  · split <;> omega

theorem digest_fold (j : Nat) (rest : List Metrics) (g : Aggregators) :
    (rest.foldl (fun g x => g.merge (x.column j)) g).digest =
      rest.foldl (fun d x => d.merge (x.column j).digest) g.digest := by
  induction rest generalizing g with
  | nil => rfl
  | cons x rest ih => rw [List.foldl_cons, List.foldl_cons, ih, digest_merge]

/-- Every sampling of a rank measures `n` metrics, those for pulse `k` at `v k`. -/
structure Measures (E : Nat → When → Sampling) (n : Nat) (v : Nat → Nat → Int) : Prop where
  lists : ∀ k w, ∃ names, names.length = n ∧ (E k w).Lists names
  value : ∀ k w j name, j < n → (E k w).probe.measure j name = some (v k j)

def Measured (n : Nat) (v : Nat → Int) (names : List String) (values : List Aggregators) : Prop :=
  names.length = n ∧ values = (List.range n).map fun j => single (v j)

/-- The columns of `e` digest what the ranks `X` measured for its pulse. -/
structure Digests (n : Nat) (v : Nat → Nat → Nat → Int) (X : Finset Nat) (e : Metrics) : Prop where
  metricsNr : e.metricsNr = n
  column : ∀ j < n, Digest.Of (fun r => v r e.timestamp j) X (e.column j).digest

section
variable {T : Topology} {r n k : Nat}

theorem Measures.samples {E : Nat → When → Sampling} {v : Nat → Nat → Int} (h : Measures E n v) (hn : 1 ≤ n) :
    Samples E (0 < ·) (fun k => Measured n (v k)) (fun k => Measured n (v k)) := by
  have hfile : ∀ k w agg nr, ∃ names, names ≠ [] ∧ names.length = n ∧
      sampleFile (E k w) agg nr = .ok (⟨some (names.map some), names.length, agg.totalMetrics⟩, names.length,
        (List.range n).map fun j => single (v k j),
        decide ((names.length : Int) ≠ agg.totalMetrics) && !names.isEmpty) := by
    intro k w agg nr
    obtain ⟨names, hlen, hl⟩ := h.lists k w
    refine ⟨names, fun h0 => ?_, hlen, ?_⟩
    · rw [h0, List.length_nil] at hlen
      omega
    · have hs := sampleFile_values hl agg nr (v k) fun j hj name => h.value k w j name (hlen ▸ hj)
      rw [hs, hlen]
  have hmemory : ∀ k w (agg : Aggregator) names values, agg.Holds names → names.length = n → values.length = n →
      sampleMemory (E k w) agg values = .ok (names.length, (List.range n).map fun j => single (v k j)) := by
    intro k w agg names values hh hlen hv
    have hs := sampleMemory_values (E k w) hh (hv.trans hlen.symm) (v k) fun j hj name =>
      h.value k w j name (hlen ▸ hj)
    rw [hs, hlen]
  refine ⟨?_, ?_, fun _ _ _ _ h => h, ?_, ?_, Nat.lt_irrefl 0, fun k _ _ _ _ _ _ _ => Nat.succ_pos k⟩
  · intro k agg nr
    obtain ⟨names, hne, hlen, hs⟩ := hfile k .current agg nr
    exact ⟨names, _, hne, ⟨hlen, rfl⟩, hs⟩
  · intro k agg nr
    obtain ⟨names, hne, hlen, hs⟩ := hfile k .next agg nr
    exact ⟨names, _, _, hne, ⟨hlen, rfl⟩, hs⟩
  · intro k agg names values hh hm
    obtain ⟨hlen, rfl⟩ := hm
    exact ⟨_, hmemory k .current agg names _ hh hlen (by simp), hlen, rfl⟩
  · intro k agg names values _ hh hm
    obtain ⟨hlen, rfl⟩ := hm
    exact ⟨_, hmemory (k + 1) .next agg names _ hh hlen (by simp), hlen, rfl⟩

theorem Sampled.digests {v : Nat → Nat → Nat → Int} {e : Metrics} (h : Sampled (Measured n (v r e.timestamp)) e) :
    Digests n v {r} e := by
  obtain ⟨names, -, hnr, -, hlen, hv⟩ := h
  refine ⟨by rw [hnr, hlen], fun j hj => ?_⟩
  have hc : e.column j = single (v r e.timestamp j) := by
    rw [Metrics.column, hv, List.getD_eq_getElem?_getD, List.getElem?_map, List.getElem?_range hj]
    rfl
  rw [hc]
  exact Digest.Of.single r

theorem aggregate_column (b : Bool) (p : Nat) (a : Metrics) (rest : List Metrics) (j : Nat)
    (hj : ∀ x ∈ a :: rest, (j : Int) < x.metricsNr) :
    (aggregate b p (a :: rest)).column j = rest.foldl (fun g x => g.merge (x.column j)) (a.column j) := by
  have hm : (accumulate b p (a :: rest) default).header.metricsNr = a.metricsNr := by
    rw [accumulate_header]
    rfl
  have ha := hj a (List.mem_cons_self ..)
  rw [Metrics.column, aggregate, AggregatedEvent.event, List.getD_eq_getElem?_getD, List.getElem?_map,
    List.getElem?_range (by omega)]
  exact accumulate_column b p a rest default j hj

theorem digests_aggregate {v : Nat → Nat → Nat → Int} {w : List (Option Nat × Metrics)}
    (hi : Interleaved Metrics.timestamp (sources T r) w) (hr : r < T.nprocs)
    (hf : (level Metrics.timestamp k w).length = (sources T r).card)
    (hx : ∀ x ∈ level Metrics.timestamp k w, Digests n v (T.part r x.1) x.2) :
    Digests n v (T.subtree r) (aggregate false k (eventsAt k (w.map Prod.snd))) := by
  have htag := hi.full_perm hf
  rw [eventsAt, ← level_items]
  cases hl : level Metrics.timestamp k w with
  | nil =>
    rw [hl, List.length_nil, card_sources] at hf
    omega
  | cons a rest =>
    have hmem : ∀ x ∈ a :: rest, x ∈ level Metrics.timestamp k w := fun x hx => hl ▸ hx
    have hstamp : ∀ x ∈ a :: rest, x.2.timestamp = k := fun x hx => by
      simpa using (List.mem_filter.mp (hmem x hx)).2
    have hnr : ∀ x ∈ a.2 :: rest.map Prod.snd, x.metricsNr = n := fun x hx' => by
      obtain ⟨y, hy, rfl⟩ := List.mem_map.mp (List.map_cons (f := Prod.snd) .. ▸ hx')
      exact (hx y (hmem y hy)).metricsNr
    rw [List.map_cons]
    refine ⟨?_, ?_⟩
    · rw [aggregate, AggregatedEvent.event, accumulate_header]
      exact hnr a.2 (List.mem_cons_self ..)
    · intro j hj
      have ht : (aggregate false k (a.2 :: rest.map Prod.snd)).timestamp = k := by
        rw [aggregate, AggregatedEvent.event, accumulate_header]
        rfl
      have hcol := aggregate_column false k a.2 (rest.map Prod.snd) j fun x hx' => by
        rw [hnr x hx']
        omega
      let g : Option Nat × Metrics → Option Nat × Digest Int := fun x => (x.1, (x.2.column j).digest)
      have htags : ((g a :: rest.map g).map Prod.fst) = (level Metrics.timestamp k w).map Prod.fst := by
        simp [hl, g]
      have hfold : Digest.Of (fun r => v r k j) (((g a :: rest.map g).map Prod.fst).toFinset.biUnion (T.part r))
          ((rest.map g).foldl (fun d x => d.merge x.2) (g a).2) := Digest.Of.fold (g a) (rest.map g)
        (by rw [htags]; exact hi.tags_nodup k)
        (fun y hy => by
          obtain ⟨x, hx', rfl⟩ := List.mem_map.mp (List.map_cons (f := g) .. ▸ hy)
          have := (hx x (hmem x hx')).column j hj
          rwa [hstamp x hx'] at this)
        (fun y hy z hz hne => by
          obtain ⟨x, hx', rfl⟩ := List.mem_map.mp (List.map_cons (f := g) .. ▸ hy)
          obtain ⟨x', hx'', rfl⟩ := List.mem_map.mp (List.map_cons (f := g) .. ▸ hz)
          exact T.part_disjoint (hi.mem_level (hmem x hx')).1 (hi.mem_level (hmem x' hx'')).1 hne)
      have hset : ((g a :: rest.map g).map Prod.fst).toFinset = sources T r := by
        rw [htags, List.toFinset_eq_of_perm _ _ htag, Finset.toList_toFinset]
      rw [hset, T.biUnion_part hr] at hfold
      rw [ht, hcol, digest_fold]
      simpa [List.foldl_map, g] using hfold

end

/-! ## The tree -/

section
variable {T : Topology} {E : Nat → Nat → When → Sampling} {n : Nat} {v : Nat → Nat → Nat → Int} {σ σ' : Net}

theorem Healthy.digests (h : Healthy T E (0 < ·) (fun r k => Measured n (v r k)) σ) (h2 : 2 ≤ T.nprocs)
    (hE : ∀ r, Samples (E r) (0 < ·) (fun k => Measured n (v r k)) (fun k => Measured n (v r k))) :
    ∀ r < T.nprocs, ∀ e ∈ σ.out T r, Digests n v (T.subtree r) e := by
  refine T.child_induction fun r hr ih => ?_
  intro e he
  have hk := getElem?_of_mem (h.sent h2 r hr).inOrder he
  unfold NetOf.out at hk
  cases hleaf : T.isLeaf r with
  | true =>
    rw [hleaf] at hk
    rw [T.subtree_leaf h2 hr hleaf]
    exact ((h.leafContent r).submitted _ e hk).1.digests
  | false =>
    rw [hleaf] at hk
    have hn := h.inner h2 hleaf
    obtain ⟨he, hlen⟩ := hn.settled.submitted_at hk
    rw [eventsAt_length, ← card_sources] at hlen
    rw [he]
    refine digests_aggregate hn.arrived hr hlen fun x hx => ?_
    obtain ⟨i, a⟩ := x
    have hi := (hn.arrived.mem_level hx).1
    have hw := (List.mem_filter.mp hx).1
    cases i with
    | some c => exact ih c (mem_sources.mp hi) a ((h.arrivedLe r c (mem_sources.mp hi)).subset (mem_stream.mpr hw))
    | none =>
      have hmem := (h.arrivedOwn r).subset (mem_stream.mpr hw)
      have hs := (h.ownContent h2 hE hleaf).submitted _ a (getElem?_of_mem hn.own.stamped hmem)
      exact hs.1.digests

/-! ## The root -/

theorem finalResult_results (nprocs : Nat) {s : RootState} {e : Metrics}
    (h : s.pulse ≠ 0 → s.monitoringResults.length = n) (he : e.metricsNr = n) :
    (finalResult nprocs s e).monitoringResults = (List.range n).map fun j => (e.column j).result nprocs := by
  have hlen : (allocResults s e).length = e.metricsNr.toNat := by
    unfold allocResults
    split
    · rw [List.length_replicate]
    · rename_i hp
      rw [h fun h0 => hp (Or.inl h0), he, Int.toNat_natCast]
  rw [finalResult, writeResults_spec nprocs e hlen, he, Int.toNat_natCast]
  rfl

theorem foldl_pulse (nprocs : Nat) (l : List Metrics) : (l.foldl (finalResult nprocs) {}).pulse = l.length := by
  induction l using List.reverseRecOn with
  | nil => rfl
  | append_singleton l e ih =>
    rw [List.foldl_append, List.length_append]
    exact congrArg (· + 1) ih

theorem foldl_results (nprocs : Nat) {l : List Metrics} (hl : ∀ e ∈ l, e.metricsNr = n) :
    l.length ≠ 0 → (l.foldl (finalResult nprocs) {}).monitoringResults.length = n := by
  induction l using List.reverseRecOn with
  | nil => exact fun h => absurd rfl h
  | append_singleton l e ih =>
    have hr := ih fun x hx => hl x (List.mem_append_left _ hx)
    have hp := foldl_pulse nprocs l
    intro _
    rw [List.foldl_append, List.foldl_cons, List.foldl_nil,
      finalResult_results nprocs (fun h0 => hr (hp ▸ h0)) (hl e (by simp)),
      List.length_map, List.length_range]

theorem pulse_eq_count {as : List Act} (h : Transition.exec (netStep T E) (netInit T) as = some σ) :
    σ.root.pulse = as.count .final := by
  induction as using List.reverseRecOn generalizing σ with
  | nil => cases h; rfl
  | append_singleton as a ih =>
    obtain ⟨m, hm, hs⟩ := Transition.exec_snoc _ h
    have := ih hm
    rw [List.count_append]
    cases (netStep_steps hs).2 with
    | final _ e he => exact congrArg (· + 1) this
    | leafHalt r fin d hp => simpa using this
    | ownHalt c r e d hc he ho => simpa using this
    | leaf r fin l hr hl hq hp => exact this.trans (by simp)
    | terminal c r e own hc he ho => exact this.trans (by simp)
    | multi c r e hc he => exact this.trans (by simp)
    | own r e hr hl he => exact this.trans (by simp)

theorem Aggregators.result_digest {g : Aggregators} {f : Nat → Int} {X : Finset Nat} (h : Digest.Of f X g.digest)
    (nprocs : Nat) :
    IsLeast (f '' X) (g.result nprocs).min ∧ IsGreatest (f '' X) (g.result nprocs).max ∧
      (g.result nprocs).avg = (∑ r ∈ X, (f r : Rat)) / nprocs := by
  refine ⟨h.min, h.max, ?_⟩
  have hs : g.sum = ∑ r ∈ X, f r := h.sum
  rw [Aggregators.result, hs, Int.cast_sum]

/-- The call of `final_result` after `k` calls is for timestamp `k`, and stores for
each metric the minimum, the maximum and the average over all ranks. -/
theorem finalResult_aggregates (h2 : 2 ≤ T.nprocs) (hn : 1 ≤ n) (hE : ∀ r, Measures (E r) n (v r)) {as : List Act}
    (hs : Transition.exec (netStep T E) (netInit T) (as ++ [.final]) = some σ) :
    ∃ m event, Transition.exec (netStep T E) (netInit T) as = some m ∧ (m.out T 0)[as.count .final]? = some event ∧
      σ.root = finalResult T.nprocs m.root event ∧ event.timestamp = as.count .final ∧
      σ.root.monitoringResults.length = n ∧
      ∀ j < n, ∃ metric, σ.root.monitoringResults[j]? = some metric ∧
        IsLeast ((fun r => v r (as.count .final) j) '' Finset.range T.nprocs) metric.min ∧
        IsGreatest ((fun r => v r (as.count .final) j) '' Finset.range T.nprocs) metric.max ∧
        metric.avg = (∑ r ∈ Finset.range T.nprocs, (v r (as.count .final) j : Rat)) / T.nprocs := by
  obtain ⟨m, hm, hstep⟩ := Transition.exec_snoc _ hs
  have hS := fun r => (hE r).samples hn
  have h := Reachable.healthy ⟨as, hm⟩ h2 hS
  have hdig := h.digests h2 hS 0 (by omega)
  have hpulse := pulse_eq_count hm
  cases (netStep_steps hstep).2 with
  | final _ e he =>
    have hmem := List.mem_of_getElem? he
    have ht : e.timestamp = m.root.pulse := inOrder_get _ (h.sent h2 0 (by omega)).inOrder he
    have hlen : m.root.pulse ≠ 0 → m.root.monitoringResults.length = n := by
      intro h0
      have hnr : ∀ x ∈ (m.out T 0).take m.root.pulse, x.metricsNr = n := fun x hx =>
        (hdig x (List.mem_of_mem_take hx)).metricsNr
      have hfold := foldl_results T.nprocs hnr
      rw [← h.root, List.length_take, Nat.min_eq_left h.rootLe] at hfold
      exact hfold h0
    have hres := finalResult_results T.nprocs hlen (hdig e hmem).metricsNr
    refine ⟨m, e, hm, hpulse ▸ he, rfl, ht.trans hpulse, ?_, fun j hj => ?_⟩
    · rw [hres, List.length_map, List.length_range]
    · refine ⟨(e.column j).result T.nprocs, ?_, ?_⟩
      · rw [hres, List.getElem?_map, List.getElem?_range hj]
        rfl
      · have hd := (hdig e hmem).column j hj
        rw [T.subtree_zero, ht, hpulse] at hd
        exact Aggregators.result_digest hd T.nprocs

end

theorem measures_loads (r : Nat) : Measures (loads r) 1 fun _ _ => r where
  lists _ _ := ⟨["load"], rfl, ⟨["load"], rfl, rfl⟩, rfl⟩
  value _ _ _ _ _ := rfl

theorem finalResult_aggregates_chain :
    ∃ σ, Transition.exec (netStep chain loads) (netInit chain) (chainPulse ++ [.final]) = some σ ∧
      ∃ m event, Transition.exec (netStep chain loads) (netInit chain) chainPulse = some m ∧
        (m.out chain 0)[chainPulse.count .final]? = some event ∧
        σ.root = finalResult chain.nprocs m.root event ∧ event.timestamp = chainPulse.count .final ∧
        σ.root.monitoringResults.length = 1 ∧
        ∀ j < 1, ∃ metric, σ.root.monitoringResults[j]? = some metric ∧
          IsLeast ((fun r : Nat => (r : Int)) '' Finset.range chain.nprocs) metric.min ∧
          IsGreatest ((fun r : Nat => (r : Int)) '' Finset.range chain.nprocs) metric.max ∧
          metric.avg = (∑ r ∈ Finset.range chain.nprocs, ((r : Int) : Rat)) / chain.nprocs :=
  ⟨_, rfl, @finalResult_aggregates chain loads 1 (fun r _ _ => r) _ (by decide) (by decide) measures_loads _ rfl⟩

end Clarisse
