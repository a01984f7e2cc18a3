import Clarisse.Aggregation
import Clarisse.Timing

/-!
# The latency of a pulse

Over the whole tree: the root records for each pulse the time from the earliest
reading that a leaf has made for it to the reading of `final_result`.
-/

namespace Clarisse.Benchmark

open Interleave

/-- At every inner rank the own event of a pulse arrives after the children's. -/
def OwnLastAll (T : Topology) (σ : Net) : Prop :=
  ∀ r, r < T.nprocs → T.isLeaf r = false → OwnLast T r (σ.node r).arrived

def leafStarts (T : Topology) (σ : Net) (r k : Nat) : Set Rat :=
  {t | ∃ l ∈ T.subtree r, T.isLeaf l = true ∧ ∃ e, (σ.leaf l).submitted[k]? = some e ∧ e.startTime = t}

def finals (as : List Act) : List Rat :=
  as.filterMap fun a =>
    match a with
    | .final t => some t
    | _ => none

theorem getElem?_of_le {l m : List Metrics} (h : l <+: m) {k : Nat} {e : Metrics} (hk : l[k]? = some e) :
    m[k]? = some e := by
  obtain ⟨v, rfl⟩ := h
  rw [List.getElem?_append_left (List.getElem?_eq_some_iff.mp hk).1, hk]

section
variable {T : Topology} {r n p : Nat} {w : List (Option Nat × Metrics)} {e : Metrics}

/-! ## At one stone -/

theorem earliest_child (h : Arrivals T r w) (ho : OwnLast T r w) (hD : 0 < T.getDegreeNode r) (ht : Timed n w)
    (hn : 0 < n) (he : (feed true (w.map Prod.snd)).submitted[p]? = some e) :
    IsLeast (childStarts w p) e.startTime := by
  obtain ⟨rfl, hlen⟩ := (h.settled hD true).submitted_at he
  have hitems := level_items Metrics.timestamp p w
  cases hl : level Metrics.timestamp p w with
  | nil =>
    rw [eventsAt, ← hitems, hl] at hlen
    simp at hlen
  | cons x l =>
    rw [hl, List.map_cons] at hitems
    have hmem : ∀ y ∈ x :: l, y ∈ w := fun y hy =>
      (List.mem_filter.mp (hl ▸ hy : y ∈ level Metrics.timestamp p w)).1
    have hx : x.1 ≠ none := by
      obtain ⟨c, hc⟩ := ho.head_child hD (t := p) (a := x.2) (by rw [eventsAt, ← hitems]; rfl)
      exact (ht.start_ne_iff (hmem x (List.mem_cons_self ..))).mp (ht.child (some c, x.2) hc (Option.some_ne_none c))
    have hcols : ∀ y ∈ l.map Prod.snd, 0 < y.metricsNr := by
      intro y hy
      obtain ⟨z, hz, rfl⟩ := List.mem_map.mp hy
      rw [ht.metricsNr z (hmem z (List.mem_cons_of_mem _ hz))]
      exact Int.natCast_pos.mpr hn
    rw [ht.childStarts_eq hl hx, eventsAt, ← hitems]
    exact @fold_start_least (AggregatedEvent.first p x.2 default) _ hcols

end

/-! ## Up the tree -/

section
variable {T : Topology} {maxTimestamps n : Nat} {E : Nat → Nat → When → Sampling} {σ σ' : Net} {τ : Clarisse.Net}
  {as : List Act} {a : Act} {r : Nat}

theorem OwnLastAll.follows (ho : OwnLastAll T σ) (h : Follows T E maxTimestamps σ τ) : Clarisse.OwnLastAll T τ :=
  fun r hr hl => ownLast_untimed (h.node r).arrived (ho r hr hl)

theorem Follows.arrivals (h : Follows T E maxTimestamps σ τ) (h2 : 2 ≤ T.nprocs) (ho : OwnLastAll T σ)
    (hl : T.isLeaf r = false) : Arrivals T r (σ.node r).arrived :=
  arrivals_untimed (h.node r).arrived (h.history.arrivals h2 (ho.follows h) hl)

theorem Follows.columns (h : Follows T E maxTimestamps σ τ) (hτ : Reachable T E τ) (h2 : 2 ≤ T.nprocs)
    (hE : Counts E n) (hl : T.isLeaf r = false) {x : Option Nat × Metrics} (hx : x ∈ (σ.node r).arrived) :
    x.2.metricsNr = n := by
  obtain ⟨i, e⟩ := x
  obtain ⟨e', he', hu⟩ := mem_untimedLog (h.node r).arrived hx
  rw [(sameFields hu).metricsNr]
  cases i with
  | none => exact hτ.own_counts h2 hE hl e' ((h.history.arrivedOwn r).subset (mem_stream.mpr he'))
  | some c =>
    have hc := mem_sources.mp (h.history.arrivedTag r hl _ he')
    have hout := (h.history.arrivedLe r c hc).subset (mem_stream.mpr he')
    exact hτ.out_counts h2 hE (T.lt_of_mem_children hc).2 e' hout

theorem starts_earliest (hlogs : Logs T as σ) (h : Follows T E maxTimestamps σ τ) (hτ : Reachable T E τ)
    (h2 : 2 ≤ T.nprocs) (hE : Counts E n) (hn : 0 < n) (ho : OwnLastAll T σ) (hclock : (-1 : Rat) ∉ readings as) :
    ∀ r < T.nprocs, ∀ k e, (σ.out T r)[k]? = some e → IsLeast (leafStarts T σ r k) e.startTime := by
  refine T.child_induction fun r hr ih => ?_
  intro k e he
  cases hl : T.isLeaf r with
  | true =>
    replace he : (σ.leaf r).submitted[k]? = some e := by
      rw [NetOf.out, hl] at he
      exact he
    refine ⟨⟨r, ?_, hl, e, he, rfl⟩, ?_⟩
    · rw [T.subtree_leaf h2 hr hl]
      exact Finset.mem_singleton_self r
    · rintro t ⟨l, hmem, -, x, hx, rfl⟩
      rw [T.subtree_leaf h2 hr hl, Finset.mem_singleton] at hmem
      rw [hmem, he] at hx
      cases hx
      exact le_refl _
  | false =>
    rw [NetOf.out, hl] at he
    have hD := (T.degree_pos_iff h2 r).mpr hl
    have harr := h.arrivals h2 ho hl
    -- an event of a child starts with the reading of a leaf
    have hchild : ∀ c x, (some c, x) ∈ (σ.node r).arrived → ∃ k', IsLeast (leafStarts T σ c k') x.startTime := by
      intro c x hx
      have hc := mem_sources.mp (harr.inOrder.tag _ hx)
      obtain ⟨k', hk'⟩ := List.mem_iff_getElem?.mp ((hlogs.arrivedLe r c hc).subset (mem_stream.mpr hx))
      exact ⟨k', ih c hc k' x hk'⟩
    have htimed : Timed n (σ.node r).arrived := by
      refine ⟨fun x hx => h.columns hτ h2 hE hl hx, fun x hx hi => ?_, fun x hx hi => ?_⟩
      · obtain ⟨i, x⟩ := x
        cases hi
        exact (hlogs.own r).submitted x ((hlogs.arrivedOwn r).subset (mem_stream.mpr hx))
      · obtain ⟨i, x⟩ := x
        cases i with
        | none => exact absurd rfl hi
        | some c =>
          obtain ⟨k', ⟨l, -, -, y, hy, hyt⟩, -⟩ := hchild c x hx
          intro hneg
          have := hlogs.leaf l y (List.mem_of_getElem? hy)
          rw [hyt, hneg] at this
          exact hclock this
    rw [hlogs.multi r] at he
    obtain ⟨⟨c, x, hx, hxt⟩, hlow⟩ := earliest_child harr (ho r hr hl) hD htimed hn he
    have hfull := harr.submitted_full hD he
    have hget : ∀ c x, (some c, x) ∈ level Metrics.timestamp k (σ.node r).arrived →
        c ∈ T.children r ∧ (σ.out T c)[k]? = some x := by
      intro c x hx
      obtain ⟨hi, hk⟩ := harr.inOrder.mem_level hx
      have hc := mem_sources.mp hi
      exact ⟨hc, getElem?_of_le (hlogs.arrivedLe r c hc) hk⟩
    obtain ⟨hc, hout⟩ := hget c x hx
    obtain ⟨⟨l, hmem, hleaf, y, hy, hyt⟩, -⟩ := ih c hc k x hout
    refine ⟨⟨l, T.subtree_of_child hc hmem, hleaf, y, hy, hyt.trans hxt⟩, ?_⟩
    rintro t ⟨l, hmem, hleaf, y, hy, rfl⟩
    rw [T.subtree_eq hr, Finset.mem_insert, Finset.mem_biUnion] at hmem
    rcases hmem with rfl | ⟨d, hd, hmem⟩
    · rw [hl] at hleaf
      cases hleaf
    · -- the pulse is complete, so the child above that leaf has sent its event
      rw [← card_sources] at hfull
      have hlt := (harr.inOrder.full_iff k).mp hfull (some d) (mem_sources.mpr hd)
      have hz := List.getElem?_eq_getElem hlt
      have hlevel :
          (some d, (stream (some d) (σ.node r).arrived)[k]) ∈ level Metrics.timestamp k (σ.node r).arrived := by
        refine mem_stream.mp ?_
        rw [harr.inOrder.stream_level_eq (mem_sources.mpr hd), hz]
        simp
      have hbelow := (ih d hd k _ (hget d _ hlevel).2).2 ⟨l, hmem, hleaf, y, hy, rfl⟩
      exact le_trans (hlow ⟨d, _, hlevel, rfl⟩) hbelow

/-! ## The table -/

theorem netStep_arrived (hs : netStep T maxTimestamps E σ a = some σ') (q : Nat) :
    (σ.node q).arrived <+: (σ'.node q).arrived := by
  have hset : ∀ {r n}, (σ.node r).arrived <+: n.arrived → (σ.node q).arrived <+: ((σ.setNode r n).node q).arrived :=
    fun h => setNode_forall (P := fun q n => (σ.node q).arrived <+: n.arrived) (fun q => List.prefix_refl _) h q
  cases (netStep_steps hs).2 with
  | leafHalt => exact List.prefix_refl _
  | ownHalt => exact List.prefix_refl _
  | final => exact List.prefix_refl _
  | leaf => exact List.prefix_refl _
  | terminal c r e own hc he ho => exact hset (n := (σ.node r).handle c e own) (List.prefix_refl _)
  | multi c r e hc he => exact hset (n := (σ.node r).enqueue true (some c) e) (List.prefix_append _ _)
  | own r e hr hl he => exact hset (n := (σ.node r).enqueue true none e) (List.prefix_append _ _)

theorem OwnLastAll.earlier (ho : OwnLastAll T σ') (hs : Transition.exec (netStep T maxTimestamps E) σ as = some σ') :
    OwnLastAll T σ := by
  intro r hr hl
  have hle := Transition.exec_invariant (I := fun m : Net => (σ.node r).arrived <+: (m.node r).arrived) _
    (fun m a m' h hm => h.trans (netStep_arrived hm r)) (List.prefix_refl _) hs
  obtain ⟨v, hv⟩ := hle
  exact OwnLast.left (hv.symm ▸ ho r hr hl)

theorem readings_append (as bs : List Act) : readings (as ++ bs) = readings as ++ readings bs :=
  List.filterMap_append

theorem finals_snoc_of_root (as : List Act) (hs : netStep T maxTimestamps E σ a = some σ') :
    (σ'.root = σ.root ∧ finals (as ++ [a]) = finals as) ∨
      ∃ t e, a = .final t ∧ (σ.out T 0)[σ.root.pulse]? = some e ∧
        σ'.root = finalResult maxTimestamps t σ.root e ∧ finals (as ++ [a]) = finals as ++ [t] ∧
          readings (as ++ [a]) = readings as ++ [t] := by
  cases (netStep_steps hs).2 with
  | final t e he => exact Or.inr ⟨t, e, rfl, he, rfl, by simp [finals], by simp [readings]⟩
  | leafHalt => exact Or.inl ⟨rfl, by simp [finals]⟩
  | ownHalt => exact Or.inl ⟨rfl, by simp [finals]⟩
  | leaf => exact Or.inl ⟨rfl, by simp [finals]⟩
  | terminal => exact Or.inl ⟨rfl, by simp [finals]⟩
  | multi => exact Or.inl ⟨rfl, by simp [finals]⟩
  | own => exact Or.inl ⟨rfl, by simp [finals]⟩

theorem finals_length (hs : Transition.exec (netStep T maxTimestamps E) (netInit T maxTimestamps) as = some σ) :
    (finals as).length = σ.root.pulse := by
  induction as using List.reverseRecOn generalizing σ with
  | nil =>
    cases hs
    rfl
  | append_singleton as a ih =>
    obtain ⟨m, hm, ha⟩ := Transition.exec_snoc _ hs
    rcases finals_snoc_of_root as ha with ⟨hr, hf⟩ | ⟨t, e, -, -, hr, hf, -⟩
    · rw [hr, hf, ih hm]
    · rw [hr, hf, List.length_append, ih hm]
      rfl

theorem table_entries (h2 : 2 ≤ T.nprocs) (hmax : 1 ≤ maxTimestamps) (hE : Counts E n)
    (hs : Transition.exec (netStep T maxTimestamps E) (netInit T maxTimestamps) as = some σ) :
    ∀ k < σ.root.pulse, ∃ t e, (finals as)[k]? = some t ∧ (σ.out T 0)[k]? = some e ∧
      σ.root.benchmarkingResults[k]? = some (t - e.startTime) ∧
        ((readings as).Pairwise (· ≤ ·) → ∃ bs, bs <+: as ∧ ∃ m,
          Transition.exec (netStep T maxTimestamps E) (netInit T maxTimestamps) bs = some m ∧
            (m.out T 0)[k]? = some e ∧ ∀ x ∈ readings bs, x ≤ t) := by
  induction as using List.reverseRecOn generalizing σ with
  | nil =>
    cases hs
    exact fun k hk => absurd hk (Nat.not_lt_zero k)
  | append_singleton as a ih =>
    obtain ⟨m, hm, ha⟩ := Transition.exec_snoc _ hs
    have hsorted : (readings (as ++ [a])).Pairwise (· ≤ ·) → (readings as).Pairwise (· ≤ ·) :=
      fun h => h.sublist readings_snoc.sublist
    have hlater : ∀ (k : Nat) t e, (finals as)[k]? = some t → (m.out T 0)[k]? = some e →
        (finals (as ++ [a]))[k]? = some t ∧ (σ.out T 0)[k]? = some e := by
      intro k t e ht he
      refine ⟨?_, getElem?_of_le (netStep_out ha 0) he⟩
      have hlt := (List.getElem?_eq_some_iff.mp ht).1
      rw [finals, List.filterMap_append]
      exact (List.getElem?_append_left hlt).trans ht
    intro k hk
    rcases finals_snoc_of_root as ha with ⟨hr, -⟩ | ⟨t, e, rfl, he, hr, hf, hread⟩
    · rw [hr] at hk ⊢
      obtain ⟨t, e, ht, he, hres, hbefore⟩ := ih hm k hk
      obtain ⟨ht', he'⟩ := hlater k t e ht he
      refine ⟨t, e, ht', he', hres, fun hp => ?_⟩
      obtain ⟨bs, hbs, hrest⟩ := hbefore (hsorted hp)
      exact ⟨bs, hbs.trans (List.prefix_append _ _), hrest⟩
    · have hlen : (record maxTimestamps t m.root e).length = maxTimestamps := record_length (table_length hm)
      have hlt := (final_event h2 hmax hE hm he).1
      rw [hr] at hk ⊢
      change k < m.root.pulse + 1 at hk
      simp only [finalResult]
      rcases Nat.lt_or_eq_of_le (Nat.le_of_lt_succ hk) with hk | rfl
      · obtain ⟨t', e', ht, he', hres, hbefore⟩ := ih hm k hk
        obtain ⟨ht', hout⟩ := hlater k t' e' ht he'
        refine ⟨t', e', ht', hout, ?_, fun hp => ?_⟩
        · have h0 : m.root.pulse ≠ 0 := by omega
          rw [record, if_neg h0, List.getElem?_set_ne (by omega)]
          exact hres
        · obtain ⟨bs, hbs, hrest⟩ := hbefore (hsorted hp)
          exact ⟨bs, hbs.trans (List.prefix_append _ _), hrest⟩
      · refine ⟨t, e, ?_, getElem?_of_le (netStep_out ha 0) he, ?_, fun hp => ?_⟩
        · rw [hf, ← finals_length hm, List.getElem?_concat_length]
        · rw [record, List.length_set] at hlen
          rw [record, List.getElem?_set_self (by rw [hlen]; exact hlt)]
        · rw [hread, List.pairwise_append] at hp
          exact ⟨as, List.prefix_append _ _, m, hm, he, fun x hx => hp.2.2 x hx t (List.mem_singleton_self t)⟩

/-- With a column in every event and own events arriving last, each pulse is recorded with
the time from the earliest reading of a leaf for it to the reading of its call of
`final_result`, which is not negative on a clock that does not go back. -/
theorem latency_recorded (h2 : 2 ≤ T.nprocs) (hmax : 1 ≤ maxTimestamps) (hE : Counts E n) (hn : 0 < n)
    (hs : Transition.exec (netStep T maxTimestamps E) (netInit T maxTimestamps) as = some σ) (ho : OwnLastAll T σ)
    (hclock : (-1 : Rat) ∉ readings as) :
    ∀ k < σ.root.pulse, ∃ t s, (finals as)[k]? = some t ∧ IsLeast (leafStarts T σ 0 k) s ∧
      σ.root.benchmarkingResults[k]? = some (t - s) ∧ ((readings as).Pairwise (· ≤ ·) → 0 ≤ t - s) := by
  obtain ⟨τ, hτ, h⟩ := run_follows h2 hmax hs
  intro k hk
  obtain ⟨t, e, ht, he, hres, hbefore⟩ := table_entries h2 hmax hE hs k hk
  have hstarts := starts_earliest (logs_exec hs) h hτ h2 hE hn ho hclock
  refine ⟨t, e.startTime, ht, hstarts 0 T.nprocs_pos k e he, hres, fun hp => ?_⟩
  -- the event had been sent when the call took it, and its start is a reading made by then
  obtain ⟨bs, ⟨cs, rfl⟩, m, hm, hem, hle⟩ := hbefore hp
  rw [Transition.exec_append, hm, Option.bind_some] at hs
  rw [readings_append, List.mem_append, not_or] at hclock
  obtain ⟨υ, hυ, hυm⟩ := run_follows h2 hmax hm
  obtain ⟨⟨l, -, -, x, hx, hxt⟩, -⟩ := starts_earliest (logs_exec hm) hυm hυ h2 hE hn (ho.earlier hs) hclock.1 0
    T.nprocs_pos k e hem
  have hread := (logs_exec hm).leaf l x (List.mem_of_getElem? hx)
  rw [hxt] at hread
  exact sub_nonneg.mpr (hle _ hread)

end

def laterLeafFirst : List Act :=
  [.leaf 2 3, .leaf 1 5, .terminal 1, .terminal 2, .multi 1, .multi 2, .own 0, .final 8]

def afterLaterLeafFirst : Net :=
  (Transition.exec (netStep twoLeaves 1 (named ["a"])) (netInit twoLeaves 1) laterLeafFirst).getD
    (netInit twoLeaves 1)

example : afterLaterLeafFirst.root.benchmarkingResults = [5] := by decide +kernel

theorem latency_recorded_laterLeafFirst : ∃ t s, (finals laterLeafFirst)[0]? = some t ∧
    IsLeast (leafStarts twoLeaves afterLaterLeafFirst 0 0) s ∧
      afterLaterLeafFirst.root.benchmarkingResults[0]? = some (t - s) ∧
        ((readings laterLeafFirst).Pairwise (· ≤ ·) → 0 ≤ t - s) := by
  have ho : OwnLastAll twoLeaves afterLaterLeafFirst := by
    unfold OwnLastAll
    decide
  exact latency_recorded (n := 1) (by decide) (Nat.le_refl 1) (counts_named ["a"]) (by decide) rfl ho (by decide) 0
    (by decide)

end Clarisse.Benchmark
