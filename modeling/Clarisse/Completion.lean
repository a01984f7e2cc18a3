import Clarisse.Builds
import Clarisse.PulseTimes

/-!
# The benchmarking build completes

Every run ends, since no leaf sends more than `max_timestamps` events. When the
order of arrivals is drained at every stone, the last state has the whole table
recorded, printed once, and the root finished.
-/

namespace Clarisse.Benchmark

open Interleave

section
variable {T : Topology} {maxTimestamps n : Nat} {E : Nat → Nat → When → Sampling} {σ σ' : Net} {τ : Clarisse.Net}
  {as : List Act} {r : Nat}

/-! ## The leaves -/

theorem Follows.leaf_last (h : Follows T E maxTimestamps σ τ) (hpos : 0 < (τ.leaf r).counter) :
    (τ.leaf r).data ∈ (τ.leaf r).submitted ∧ (τ.leaf r).data.timestamp + 1 = (τ.leaf r).counter := by
  have hl := h.history.leaf r
  have hlast := hl.last hpos
  refine ⟨List.mem_of_getLast? hlast, ?_⟩
  rw [List.getLast?_eq_getElem?, hl.length] at hlast
  have := inOrder_get _ hl.stamped hlast
  omega

theorem Follows.leaf_le (h : Follows T E maxTimestamps σ τ) (r : Nat) : (τ.leaf r).counter ≤ maxTimestamps := by
  rcases Nat.eq_zero_or_pos (τ.leaf r).counter with h0 | hpos
  · omega
  · obtain ⟨hmem, ht⟩ := h.leaf_last hpos
    have := ((h.ends r).submitted _ hmem).1
    omega

theorem Follows.leaf_ended (h : Follows T E maxTimestamps σ τ) (hq : (τ.leaf r).data.quit ≠ 0) :
    (τ.leaf r).counter = maxTimestamps := by
  have hpos : 0 < (τ.leaf r).counter := Nat.pos_of_ne_zero fun h0 => hq ((h.history.leaf r).first h0)
  obtain ⟨hmem, ht⟩ := h.leaf_last hpos
  have := ((h.ends r).submitted _ hmem).2.mp hq
  omega

/-! ## Every run ends -/

theorem run_length (h2 : 2 ≤ T.nprocs) (hmax : 1 ≤ maxTimestamps)
    (hs : Transition.exec (netStep T maxTimestamps E) (netInit T maxTimestamps) as = some σ) :
    as.length ≤ 3 * T.nprocs * maxTimestamps + 1 := by
  obtain ⟨bs, hm, hq⟩ := Transition.exists_matching (Clarisse.netStep T E) (exists_matches maxTimestamps) as
    (Clarisse.netInit T)
  have hrel := Transition.exec_lockstep (netStep T maxTimestamps E) (fun σ τ a b h hab hb => h.lockstep h2 hab hb) hm
    (follows_init hmax) hq
  rw [hs] at hrel
  cases hb : Transition.exec (Clarisse.netStep T E) (Clarisse.netInit T) bs with
  | none =>
    rw [hb] at hrel
    cases hrel
  | some τ =>
    rw [hb] at hrel
    cases hrel with
    | some h =>
      have hlen := Transition.exec_length_le (Clarisse.netStep T E) (I := fun _ => True) (fun _ _ _ _ _ => trivial)
        (fun _ _ _ _ hs => potential_step hs) trivial hb
      have hle := h.history.potential_le h2 fun l _ _ => h.leaf_le l
      rw [hm.length_eq]
      omega

/-! ## When no step is enabled -/

theorem Follows.quiescent (h : Follows T E maxTimestamps σ τ) (hrun : τ.halted = none)
    (hidle : ∀ a, netStep T maxTimestamps E σ a = none) : Quiescent T E τ := by
  have hnot : ∀ {a : Act} {b : Clarisse.Act}, a.Matches b → ¬ Clarisse.Enabled T τ b := by
    intro a b hab hb
    have hsome : (netStep T maxTimestamps E σ a).isSome :=
      netStep_isSome_iff.mpr ⟨h.halted.trans hrun, (h.enabled_iff hab).mpr hb⟩
    rw [hidle a] at hsome
    cases hsome
  constructor
  · intro r hr hl hq
    exact hnot (.leaf r 0 false) ⟨hr, hl, hq⟩
  · intro b
    obtain ⟨a, hab⟩ : ∃ a : Act, a.Matches b := by
      cases b with
      | leaf r fin => exact ⟨_, .leaf r 0 fin⟩
      | terminal c => exact ⟨_, .terminal c⟩
      | multi c => exact ⟨_, .multi c⟩
      | own r => exact ⟨_, .own r⟩
      | final => exact ⟨_, .final 0⟩
    rw [← Option.not_isSome_iff_eq_none, Clarisse.netStep_isSome_iff]
    exact fun hb => hnot hab hb.2

theorem eventsAt_untimed {w w' : List (Option Nat × Metrics)} (h : untimedLog w = untimedLog w') (t : Nat) :
    (eventsAt t (w.map Prod.snd)).length = (eventsAt t (w'.map Prod.snd)).length := by
  have key : ∀ v : List (Option Nat × Metrics),
      (eventsAt t (v.map Prod.snd)).length = (eventsAt t ((untimedLog v).map Prod.snd)).length := by
    intro v
    simp only [eventsAt, items, untimedLog, List.filter_map, List.length_map]
    rfl
  rw [key w, key w', h]

theorem Follows.arrived_quit (h : Follows T E maxTimestamps σ τ) (h2 : 2 ≤ T.nprocs) (hl : T.isLeaf r = false)
    {e : Metrics} (he : e ∈ (τ.node r).arrived.map Prod.snd) : e.quit ≠ 0 ↔ e.timestamp + 1 = maxTimestamps := by
  obtain ⟨⟨i, e⟩, hx, rfl⟩ := List.mem_map.mp he
  have hleaf : FromLeaf T τ e := by
    cases i with
    | some c =>
      have hc := mem_sources.mp (h.history.arrivedTag r hl _ hx)
      exact h.history.fromLeaf h2 c (T.lt_of_mem_children hc).2 e
        ((h.history.arrivedLe r c hc).subset (mem_stream.mpr hx))
    | none =>
      exact h.history.own_fromLeaf h2 hl (fun c hc => h.history.fromLeaf h2 c (T.lt_of_mem_children hc).2) e
        ((h.history.arrivedOwn r).subset (mem_stream.mpr hx))
  obtain ⟨l, x, -, hx, ht, hq⟩ := hleaf
  rw [← ht, ← hq]
  exact ((h.ends l).submitted x hx).2

theorem Follows.keeps (h : Follows T E maxTimestamps σ τ) (hlogs : Logs T as σ) (hτ : Reachable T E τ)
    (h2 : 2 ≤ T.nprocs) (hE : ∀ r, WellFormed (E r)) (ho : OwnLastAll T σ)
    (hd : ∀ r, r < T.nprocs → T.isLeaf r = false →
      Drained (T.getDegreeNode r + 1) ((σ.node r).arrived.map Prod.snd)) : Keeps T E τ where
  toHealthy := hτ.healthy h2 fun r => (hE r).samples
  prompt r hl := by
    obtain ⟨c, hc⟩ := exists_child h2 hl
    have hr : r < T.nprocs := (T.lt_of_mem_children hc).1.trans (T.lt_of_mem_children hc).2
    have hD := (T.degree_pos_iff h2 r).mpr hl
    refine ⟨?_, fun e he hq first hf => ?_⟩
    · have hwait := ((h.arrivals h2 ho hl).prompt_iff (ho r hr hl) hD true).mpr (hd r hr hl) _ (List.prefix_refl _)
      rw [← hlogs.multi r, eventsAt_untimed (h.node r).arrived] at hwait
      have hpulse := congrArg MultiState.pulseTimestamp (h.node r).multi
      change (σ.node r).multi.pulseTimestamp = (τ.node r).multi.pulseTimestamp at hpulse
      rwa [hpulse] at hwait
    · have hmem := List.mem_of_mem_head? hf
      rw [eventsAt, mem_items] at hmem
      rw [h.arrived_quit h2 hl he] at hq
      rw [h.arrived_quit h2 hl hmem.1, hmem.2, hq]

theorem counts_wellFormed (hE : Counts E n) (hn : 0 < n) (r : Nat) : WellFormed (E r) := by
  intro k w
  obtain ⟨names, hlen, hl⟩ := hE r k w
  exact ⟨names, List.ne_nil_of_length_pos (hlen ▸ hn), hl⟩

/-! ## The root -/

theorem root_finishes (h2 : 2 ≤ T.nprocs) (hmax : 1 ≤ maxTimestamps) (hE : Counts E n) (hn : 0 < n)
    (hs : Transition.exec (netStep T maxTimestamps E) (netInit T maxTimestamps) as = some σ) :
    (σ.root.pulse < maxTimestamps ∧ σ.root.printed = [] ∧ σ.root.rootFinished = false) ∨
      (σ.root.pulse = maxTimestamps ∧ σ.root.printed = [σ.root.benchmarkingResults] ∧
        σ.root.rootFinished = true) := by
  induction as using List.reverseRecOn generalizing σ with
  | nil =>
    cases hs
    exact Or.inl ⟨hmax, rfl, rfl⟩
  | append_singleton as a ih =>
    obtain ⟨m, hm, ha⟩ := Transition.exec_snoc _ hs
    rcases netStep_root ha with hr | ⟨endTime, e, rfl, he, hr⟩
    · rw [hr]
      exact ih hm
    · obtain ⟨hlt, hfin⟩ := final_event h2 hmax hE hm he
      rcases ih hm with ⟨-, hprint, hdone⟩ | ⟨hp, -⟩
      · rw [hr]
        by_cases hl : m.root.pulse + 1 = maxTimestamps
        · have : Finishes maxTimestamps e := hfin.mpr (Or.inl hl)
          exact Or.inr ⟨hl, by simp [finalResult, this, hprint], by simp [finalResult, this]⟩
        · have : ¬ Finishes maxTimestamps e := fun hf => by
            have := hfin.mp hf
            omega
          exact Or.inl ⟨by simp only [finalResult]; omega, by simp [finalResult, this, hprint],
            by simp [finalResult, this, hdone]⟩
      · omega

theorem idle_completes (h2 : 2 ≤ T.nprocs) (hmax : 1 ≤ maxTimestamps) (hE : Counts E n) (hn : 0 < n)
    (hs : Transition.exec (netStep T maxTimestamps E) (netInit T maxTimestamps) as = some σ)
    (hidle : ∀ a, netStep T maxTimestamps E σ a = none) (ho : OwnLastAll T σ)
    (hd : ∀ r, r < T.nprocs → T.isLeaf r = false →
      Drained (T.getDegreeNode r + 1) ((σ.node r).arrived.map Prod.snd)) :
    σ.halted = none ∧ (∀ r, r < T.nprocs → (σ.out T r).length = maxTimestamps) ∧
      σ.root.pulse = maxTimestamps ∧ σ.root.benchmarkingResults.length = maxTimestamps ∧
        σ.root.printed = [σ.root.benchmarkingResults] ∧ σ.root.rootFinished = true := by
  obtain ⟨τ, hτ, h⟩ := run_follows h2 hmax hs
  have hkeeps := h.keeps (logs_exec hs) hτ h2 (counts_wellFormed hE hn) ho hd
  have hq := h.quiescent hkeeps.running hidle
  have hout : ∀ r, r < T.nprocs → (σ.out T r).length = maxTimestamps := by
    intro r hr
    obtain ⟨⟨l, hmem, hleaf, hk⟩, -⟩ := hkeeps.out_isLeast h2 hq r hr
    rw [h.out_length, ← hk]
    exact h.leaf_ended (hq.leaves l (Topology.mem_subtree.mp hmem).1 hleaf)
  have hpulse : σ.root.pulse = maxTimestamps := by
    have hle := hq.out_le hkeeps.running
    rw [← h.pulse, ← h.out_length, hout 0 T.nprocs_pos] at hle
    have hle' := h.history.rootLe
    rw [← h.pulse, ← h.out_length, hout 0 T.nprocs_pos] at hle'
    exact Nat.le_antisymm hle' hle
  rcases root_finishes h2 hmax hE hn hs with ⟨hlt, -⟩ | ⟨-, hprint, hdone⟩
  · omega
  · exact ⟨h.halted.trans hkeeps.running, hout, hpulse, table_length hs (by omega), hprint, hdone⟩

/-- Every run is bounded, and one that no step extends, with own events last and drained
arrivals, has the events of all pulses sent by every rank, each recorded in the table,
which the root has printed once. -/
theorem benchmark_completes (h2 : 2 ≤ T.nprocs) (hmax : 1 ≤ maxTimestamps) (hE : Counts E n) (hn : 0 < n)
    (hs : Transition.exec (netStep T maxTimestamps E) (netInit T maxTimestamps) as = some σ) :
    as.length ≤ 3 * T.nprocs * maxTimestamps + 1 ∧
      ((∀ a, netStep T maxTimestamps E σ a = none) → OwnLastAll T σ →
        (∀ r, r < T.nprocs → T.isLeaf r = false →
          Drained (T.getDegreeNode r + 1) ((σ.node r).arrived.map Prod.snd)) →
        σ.halted = none ∧ (∀ r, r < T.nprocs → (σ.out T r).length = maxTimestamps) ∧
          σ.root.pulse = maxTimestamps ∧ σ.root.benchmarkingResults.length = maxTimestamps ∧
            σ.root.printed = [σ.root.benchmarkingResults] ∧ σ.root.rootFinished = true) :=
  ⟨run_length h2 hmax hs, idle_completes h2 hmax hE hn hs⟩

end

/-- The second event of leaf 1 has arrived when the first pulse becomes complete. -/
def oneAhead : List Act :=
  [.leaf 1 3, .leaf 1 4, .leaf 2 5, .leaf 2 6, .terminal 1, .terminal 1, .terminal 2, .terminal 2, .multi 1, .multi 1,
    .multi 2, .own 0, .final 8, .multi 2, .own 0, .final 9]

def afterOneAhead : Net :=
  (Transition.exec (netStep twoLeaves 2 (named ["a"])) (netInit twoLeaves 2) oneAhead).getD (netInit twoLeaves 2)

theorem oneAhead_idle (a : Act) : netStep twoLeaves 2 (named ["a"]) afterOneAhead a = none := by
  have hleaf : ∀ r < 3, twoLeaves.isLeaf r = true → (afterOneAhead.leaf r).data.quit ≠ 0 := by decide
  have hchild : ∀ c < 3, 0 < c → (afterOneAhead.out twoLeaves c).length = 2 ∧
      (stream c (afterOneAhead.node (twoLeaves.parent c)).handled).length = 2 ∧
        (stream (some c) (afterOneAhead.node (twoLeaves.parent c)).arrived).length = 2 := by decide
  have hown : ∀ r < 3, (stream none (afterOneAhead.node r).arrived).length =
      (afterOneAhead.node r).own.submitted.length := by decide
  rw [← Option.not_isSome_iff_eq_none, netStep_isSome_iff]
  rintro ⟨-, h⟩
  cases a with
  | leaf r startTime => exact hleaf r h.1 h.2.1 h.2.2
  | terminal c =>
    obtain ⟨h1, h2, -⟩ := hchild c h.2.1 h.1
    exact absurd h.2.2 (by omega)
  | multi c =>
    obtain ⟨h1, -, h2⟩ := hchild c h.2.1 h.1
    exact absurd h.2.2 (by omega)
  | own r => exact absurd h.2.2 (Nat.not_lt.mpr (hown r h.1).ge)
  | final endTime =>
    have : ¬ afterOneAhead.root.pulse < (afterOneAhead.out twoLeaves 0).length := by decide
    exact this h

theorem oneAhead_ordered : OwnLastAll twoLeaves afterOneAhead ∧
    ∀ r, r < twoLeaves.nprocs → twoLeaves.isLeaf r = false →
      Drained (twoLeaves.getDegreeNode r + 1) ((afterOneAhead.node r).arrived.map Prod.snd) := by
  have ho : OwnLastAll twoLeaves afterOneAhead := by
    unfold OwnLastAll
    decide
  have hlast : ∀ r < 3, ∀ e ∈ (afterOneAhead.node r).arrived.map Prod.snd, e.timestamp < 2 := by decide
  have hahead : ∀ r < 3, ∀ k ≤ 6, let u := ((afterOneAhead.node r).arrived.map Prod.snd).take k
      (eventsAt 0 u).length = twoLeaves.getDegreeNode r + 1 → (∀ e ∈ u.getLast?, e.timestamp = 0) →
        (eventsAt 1 u).length ≤ 1 := by decide
  have hlen : ∀ r < 3, ((afterOneAhead.node r).arrived.map Prod.snd).length ≤ 6 := by decide
  refine ⟨ho, fun r hr _ p u v huv hcp hc => ?_⟩
  obtain ⟨-, e, he, ht⟩ := hc
  have := hlast r hr e (huv.subset (List.mem_of_getLast? he))
  have hp : p = 0 := by omega
  subst hp
  have hu : u <+: (afterOneAhead.node r).arrived.map Prod.snd := (List.prefix_append u v).trans huv
  have hk : u.length ≤ 6 := hu.length_le.trans (hlen r hr)
  obtain ⟨hfull, e', he', ht'⟩ := hcp
  rw [List.prefix_iff_eq_take] at hu
  refine Nat.le_add_right_of_le ?_
  rw [hu] at hfull he' ⊢
  refine hahead r hr _ hk hfull fun x hx => ?_
  cases he'.symm.trans hx
  exact ht'

theorem benchmark_completes_oneAhead :
    afterOneAhead.halted = none ∧ (∀ r, r < 3 → (afterOneAhead.out twoLeaves r).length = 2) ∧
      afterOneAhead.root.pulse = 2 ∧ afterOneAhead.root.benchmarkingResults.length = 2 ∧
        afterOneAhead.root.printed = [afterOneAhead.root.benchmarkingResults] ∧
          afterOneAhead.root.rootFinished = true :=
  (@benchmark_completes twoLeaves 2 1 (named ["a"]) afterOneAhead oneAhead (by decide) (by decide)
    (counts_named ["a"]) (by decide) rfl).2 oneAhead_idle oneAhead_ordered.1 oneAhead_ordered.2

end Clarisse.Benchmark
