import Clarisse.Aggregation
import Clarisse.Shutdown
import Mathlib.Algebra.Order.BigOperators.Group.Finset

/-!
# How long a run can be

Each event is taken a fixed number of times on its way, and no rank sends more
events than any leaf below it. So the pulses of the leaves bound the length of a
run, and what is under way can always be delivered.
-/

namespace Clarisse

open Interleave

def Act.Delivers : Act → Prop
  | .leaf .. => False
  | _ => True

/-- The pulses of a leaf, or the own events that the queue of an inner rank has had. -/
def Net.own (T : Topology) (σ : Net) (r : Nat) : Nat :=
  if T.isLeaf r then (σ.leaf r).counter else (stream none (σ.node r).arrived).length

/-- What the handler and the queue of its parent, or `final_result`, have had of a rank. -/
def Net.taken (T : Topology) (σ : Net) (r : Nat) : Nat :=
  if r = 0 then σ.root.pulse
  else (stream r (σ.node (T.parent r)).handled).length + (stream (some r) (σ.node (T.parent r)).arrived).length

def Net.level (T : Topology) (σ : Net) (r : Nat) : Nat := σ.own T r + σ.taken T r

def Net.potential (T : Topology) (σ : Net) : Nat :=
  (Finset.range T.nprocs).sum (σ.level T) + if σ.halted.isSome then 1 else 0

section
variable {T : Topology} {E : Nat → Nat → When → Sampling} {σ σ' : Net} {a : Act} {r c P : Nat}

/-! ## What the leaves bound -/

theorem Inner.submitted_le {n : Node} (h : Inner T r n) {i : Option Nat} (hi : i ∈ sources T r) :
    n.multi.submitted.length ≤ (stream i n.arrived).length := by
  rw [h.settled.submitted_length]
  rcases Nat.eq_zero_or_pos n.multi.pulseTimestamp with h0 | h0
  · omega
  · have hfull := h.settled.full (n.multi.pulseTimestamp - 1) (by omega)
    rw [eventsAt_length, ← card_sources] at hfull
    have := (h.arrived.full_iff _).mp hfull i hi
    omega

theorem History.out_le_child (h : History T E σ) (h2 : 2 ≤ T.nprocs) (hl : T.isLeaf r = false)
    (hc : c ∈ T.children r) : (σ.out T r).length ≤ (σ.out T c).length := by
  rw [NetOf.out, hl]
  exact Nat.le_trans ((h.inner h2 hl).submitted_le (mem_sources.mpr hc)) (h.arrivedLe r c hc).length_le

theorem exists_child (h2 : 2 ≤ T.nprocs) (hl : T.isLeaf r = false) : ∃ c, c ∈ T.children r := by
  have : (T.children r).Nonempty := by
    rw [← Finset.card_pos, T.card_children]
    exact (T.degree_pos_iff h2 r).mpr hl
  exact this

theorem History.out_le (h : History T E σ) (h2 : 2 ≤ T.nprocs)
    (hP : ∀ l, l < T.nprocs → T.isLeaf l = true → (σ.leaf l).counter ≤ P) :
    ∀ r < T.nprocs, (σ.out T r).length ≤ P := by
  refine T.child_induction fun r hr ih => ?_
  cases hl : T.isLeaf r with
  | true =>
    rw [NetOf.out, hl]
    exact Nat.le_trans (Nat.le_of_eq (h.leaf r).length) (hP r hr hl)
  | false =>
    obtain ⟨c, hc⟩ := exists_child h2 hl
    exact Nat.le_trans (h.out_le_child h2 hl hc) (ih c hc)

theorem History.own_le (h : History T E σ) (h2 : 2 ≤ T.nprocs)
    (hP : ∀ l, l < T.nprocs → T.isLeaf l = true → (σ.leaf l).counter ≤ P) (hl : T.isLeaf r = false) :
    (stream none (σ.node r).arrived).length ≤ P := by
  obtain ⟨c, hc⟩ := exists_child h2 hl
  have hn := h.inner h2 hl
  calc (stream none (σ.node r).arrived).length ≤ (σ.node r).own.counter := by
        rw [← hn.own.length]
        exact (h.arrivedOwn r).length_le
    _ ≤ (stream c (σ.node r).handled).length := hn.own.counter_le hc
    _ ≤ (σ.out T c).length := (h.handledLe r c hc).length_le
    _ ≤ P := h.out_le h2 hP c (T.lt_of_mem_children hc).2

theorem History.level_le (h : History T E σ) (h2 : 2 ≤ T.nprocs)
    (hP : ∀ l, l < T.nprocs → T.isLeaf l = true → (σ.leaf l).counter ≤ P) (hr : r < T.nprocs) :
    σ.level T r ≤ 3 * P := by
  have hown : σ.own T r ≤ P := by
    unfold Net.own
    cases hl : T.isLeaf r with
    | true => exact hP r hr hl
    | false => exact h.own_le h2 hP hl
  have htaken : σ.taken T r ≤ 2 * P := by
    have hout := h.out_le h2 hP r hr
    unfold Net.taken
    by_cases h0 : r = 0
    · subst h0
      have := h.rootLe
      rw [if_pos rfl]
      omega
    · have hc : r ∈ T.children (T.parent r) := T.mem_children.mpr ⟨Nat.pos_of_ne_zero h0, hr, rfl⟩
      have h1 := (h.handledLe _ r hc).length_le
      have h3 := (h.arrivedLe _ r hc).length_le
      rw [if_neg h0]
      omega
  unfold Net.level
  omega

/-! ## What a step adds -/

structure Continues (σ σ' : Net) : Prop where
  leaf : ∀ q, (σ.leaf q).counter ≤ (σ'.leaf q).counter
  handled : ∀ q, (σ.node q).handled <+: (σ'.node q).handled
  arrived : ∀ q, (σ.node q).arrived <+: (σ'.node q).arrived
  root : σ.root.pulse ≤ σ'.root.pulse

theorem Continues.own_le (h : Continues σ σ') (q : Nat) : σ.own T q ≤ σ'.own T q := by
  have h1 := h.leaf q
  have h2 := (stream_le none (h.arrived q)).length_le
  unfold Net.own
  split <;> omega

theorem Continues.taken_le (h : Continues σ σ') (q : Nat) : σ.taken T q ≤ σ'.taken T q := by
  have h1 := (stream_le q (h.handled (T.parent q))).length_le
  have h2 := (stream_le (some q) (h.arrived (T.parent q))).length_le
  have h3 := h.root
  unfold Net.taken
  split <;> omega

theorem continues_setLeaf {l : LeafState} (hl : (σ.leaf r).counter ≤ l.counter) : Continues σ (σ.setLeaf r l) where
  leaf := setLeaf_forall (P := fun q m => (σ.leaf q).counter ≤ m.counter) (fun _ => Nat.le_refl _) hl
  handled _ := List.prefix_refl _
  arrived _ := List.prefix_refl _
  root := Nat.le_refl _

theorem continues_setNode {n : Node} (hh : (σ.node r).handled <+: n.handled) (ha : (σ.node r).arrived <+: n.arrived) :
    Continues σ (σ.setNode r n) where
  leaf _ := Nat.le_refl _
  handled := setNode_forall (P := fun q m => (σ.node q).handled <+: m.handled) (fun _ => List.prefix_refl _) hh
  arrived := setNode_forall (P := fun q m => (σ.node q).arrived <+: m.arrived) (fun _ => List.prefix_refl _) ha
  root := Nat.le_refl _

theorem continues_handle (c : Nat) (e : Metrics) (own : OwnState) :
    Continues σ (σ.setNode r ((σ.node r).handle c e own)) :=
  continues_setNode (List.prefix_append _ _) (List.prefix_refl _)

theorem continues_enqueue (i : Option Nat) (e : Metrics) : Continues σ (σ.setNode r ((σ.node r).enqueue false i e)) :=
  continues_setNode (List.prefix_refl _) (List.prefix_append _ _)

theorem Continues.potential_lt (h : Continues σ σ') (hr : r < T.nprocs)
    (hlt : σ.own T r < σ'.own T r ∨ σ.taken T r < σ'.taken T r) (hh : σ'.halted = σ.halted) :
    σ.potential T < σ'.potential T := by
  have hle : ∀ q, σ.level T q ≤ σ'.level T q := fun q => Nat.add_le_add (h.own_le q) (h.taken_le q)
  have hlevel : σ.level T r < σ'.level T r := by
    have h1 := h.own_le (T := T) r
    have h2 := h.taken_le (T := T) r
    unfold Net.level
    omega
  rw [Net.potential, Net.potential, hh]
  exact Nat.add_lt_add_right (Finset.sum_lt_sum (fun q _ => hle q) ⟨r, Finset.mem_range.mpr hr, hlevel⟩) _

theorem potential_halt (hh : σ.halted = none) (d : Halt) :
    σ.potential T < Net.potential T { σ with halted := some d } := by
  rw [Net.potential, Net.potential, hh]
  exact Nat.lt_succ_self _

theorem potential_step (hs : netStep T E σ a = some σ') : σ.potential T < σ'.potential T := by
  obtain ⟨hrun, hst⟩ := netStep_steps hs
  cases hst with
  | leafHalt r fin d hp => exact potential_halt hrun d
  | ownHalt c r e d hc he ho => exact potential_halt hrun d
  | leaf r fin l hr hl hq hp =>
    obtain ⟨-, -, -, -, -, hc, -⟩ := leafPulse_ok hp
    refine (continues_setLeaf (by omega)).potential_lt hr (Or.inl ?_) rfl
    simp only [Net.own, hl, setLeaf_leaf, if_true]
    omega
  | terminal c r e own hc he ho =>
    obtain ⟨h0, hn, rfl⟩ := T.mem_children.mp hc
    refine (continues_handle c e own).potential_lt hn (Or.inr ?_) rfl
    simp [Net.taken, Nat.pos_iff_ne_zero.mp h0, setNode_node, NodeOf.handle, stream_snoc]
  | multi c r e hc he =>
    obtain ⟨h0, hn, rfl⟩ := T.mem_children.mp hc
    refine (continues_enqueue (some c) e).potential_lt hn (Or.inr ?_) rfl
    simp [Net.taken, Nat.pos_iff_ne_zero.mp h0, setNode_node, NodeOf.enqueue, stream_snoc]
  | own r e hr hl he =>
    refine (continues_enqueue none e).potential_lt hr (Or.inl ?_) rfl
    simp [Net.own, hl, setNode_node, NodeOf.enqueue, stream_snoc]
  | final _ e he =>
    have hcont : Continues σ { σ with root := finalResult T.nprocs σ.root e } :=
      ⟨fun _ => Nat.le_refl _, fun _ => List.prefix_refl _, fun _ => List.prefix_refl _, Nat.le_succ _⟩
    exact hcont.potential_lt T.nprocs_pos (Or.inr (Nat.lt_succ_self _)) rfl

theorem delivers_leaf (ha : a.Delivers) (hs : netStep T E σ a = some σ') : σ'.leaf = σ.leaf := by
  cases (netStep_steps hs).2 with
  | leafHalt r fin d hp => exact ha.elim
  | leaf r fin l hr hl hq hp => exact ha.elim
  | ownHalt c r e d hc he ho => rfl
  | terminal c r e own hc he ho => rfl
  | multi c r e hc he => rfl
  | own r e hr hl he => rfl
  | final _ e he => rfl

theorem History.potential_le (h : History T E σ) (h2 : 2 ≤ T.nprocs)
    (hP : ∀ l, l < T.nprocs → T.isLeaf l = true → (σ.leaf l).counter ≤ P) :
    σ.potential T ≤ 3 * T.nprocs * P + 1 := by
  have hsum : (Finset.range T.nprocs).sum (σ.level T) ≤ T.nprocs * (3 * P) := by
    have := Finset.sum_le_card_nsmul (Finset.range T.nprocs) (σ.level T) (3 * P)
      fun r hr => h.level_le h2 hP (Finset.mem_range.mp hr)
    simpa using this
  have hhalt : (if σ.halted.isSome then 1 else 0) ≤ 1 := by split <;> omega
  have hmul : T.nprocs * (3 * P) = 3 * T.nprocs * P := by ring
  unfold Net.potential
  omega

/-- A run in which no leaf has more than `P` pulses has at most `3 * nprocs * P + 1` steps,
and what is under way at its end can be delivered: some steps that are no pulses
lead to a state where no other such step is left. -/
theorem run_drains (h2 : 2 ≤ T.nprocs) {as : List Act} (hs : Transition.exec (netStep T E) (netInit T) as = some σ)
    (hP : ∀ l, l < T.nprocs → T.isLeaf l = true → (σ.leaf l).counter ≤ P) :
    as.length ≤ 3 * T.nprocs * P + 1 ∧
      ∃ bs τ, (∀ a ∈ bs, a.Delivers) ∧ Transition.exec (netStep T E) σ bs = some τ ∧ τ.leaf = σ.leaf ∧
        (∀ a, a.Delivers → netStep T E τ a = none) ∧ as.length + bs.length ≤ 3 * T.nprocs * P + 1 := by
  have h := Reachable.history ⟨as, hs⟩
  have hlen := Transition.exec_length_le (netStep T E) (I := fun _ => True) (fun _ _ _ _ _ => trivial)
    (fun _ _ _ _ hs => potential_step hs) trivial hs
  obtain ⟨bs, τ, hbs, hexec, ⟨hτ, hleaf⟩, hend⟩ := Transition.exists_exhausted (netStep T E)
    (I := fun τ => History T E τ ∧ τ.leaf = σ.leaf) (P := Act.Delivers) (B := 3 * T.nprocs * P + 1)
    (fun _ _ _ hi ha hs => ⟨hi.1.step hs, (delivers_leaf ha hs).trans hi.2⟩)
    (fun _ _ _ _ _ hs => potential_step hs) (fun τ hi => hi.1.potential_le h2 (by rw [hi.2]; exact hP)) σ ⟨h, rfl⟩
  have hlen' := Transition.exec_length_le (netStep T E) (I := fun _ => True) (fun _ _ _ _ _ => trivial)
    (fun _ _ _ _ hs => potential_step hs) trivial hexec
  have hle := h.potential_le h2 hP
  have hle' := hτ.potential_le h2 (by rw [hleaf]; exact hP)
  exact ⟨by omega, bs, τ, hbs, hexec, hleaf, hend, by omega⟩

/-! ## What is left when nothing is left to run -/

/-- How many pulses the leaves below a rank have had. -/
def leafPulses (T : Topology) (σ : Net) (r : Nat) : Set Nat :=
  {k | ∃ l ∈ T.subtree r, T.isLeaf l = true ∧ (σ.leaf l).counter = k}

theorem Quiescent.out_le (h : Quiescent T E σ) (hrun : σ.halted = none) : (σ.out T 0).length ≤ σ.root.pulse := by
  have hidle := h.idle .final
  unfold netStep NetOf.step at hidle
  simp only [hrun, Option.isSome_none] at hidle
  cases hf : (σ.out T 0)[σ.root.pulse]? with
  | none => exact List.getElem?_eq_none_iff.mp hf
  | some x => simp [hf] at hidle

theorem Keeps.out_isLeast (h : Keeps T E σ) (h2 : 2 ≤ T.nprocs) (hq : Quiescent T E σ) :
    ∀ r < T.nprocs, IsLeast (leafPulses T σ r) (σ.out T r).length := by
  refine T.child_induction fun r hr ih => ?_
  cases hl : T.isLeaf r with
  | true =>
    have hlen : (σ.out T r).length = (σ.leaf r).counter := by
      rw [NetOf.out, hl]
      exact (h.leaf r).length
    rw [hlen]
    refine ⟨⟨r, ?_, hl, rfl⟩, ?_⟩
    · rw [T.subtree_leaf h2 hr hl]
      exact Finset.mem_singleton_self r
    · rintro k ⟨l, hmem, -, rfl⟩
      rw [T.subtree_leaf h2 hr hl, Finset.mem_singleton] at hmem
      rw [hmem]
  | false =>
    have hn := h.inner h2 hl
    have hlen : (σ.out T r).length = (σ.node r).own.counter := by
      rw [NetOf.out, hl]
      exact h.out_length h2 hq hr hl
    rw [hlen]
    refine ⟨?_, ?_⟩
    · -- the child with the shortest stream
      obtain ⟨c, hc, hshort⟩ := hq.shortest h.toHistory h.running hn
      obtain ⟨l, hmem, hleaf, hk⟩ := (ih c hc).1
      exact ⟨l, T.subtree_of_child hc hmem, hleaf, hk.trans hshort⟩
    · rintro k ⟨l, hmem, hleaf, rfl⟩
      rw [T.subtree_eq hr, Finset.mem_insert, Finset.mem_biUnion] at hmem
      rcases hmem with rfl | ⟨c, hc, hmem⟩
      · rw [hl] at hleaf
        cases hleaf
      · calc (σ.node r).own.counter ≤ (stream c (σ.node r).handled).length := hn.own.counter_le hc
          _ ≤ (σ.out T c).length := (h.handledLe r c hc).length_le
          _ ≤ (σ.leaf l).counter := (ih c hc).2 ⟨l, hmem, hleaf, rfl⟩

/-- In a run whose arrivals are kept, when nothing is left to run, every rank has sent as
many pulses as the leaf below it that stopped first, `final_result` has had those of
the root, and `hash_ts` counts the pulses that some children have sent and others not. -/
theorem pulses_reported (h2 : 2 ≤ T.nprocs) (hE : ∀ r, WellFormed (E r)) {as : List Act}
    (hk : Transition.Along (netStep T E) (ArrivesKept T) (netInit T) as)
    (hs : Transition.exec (netStep T E) (netInit T) as = some σ) (hq : Quiescent T E σ) :
    IsLeast (leafPulses T σ 0) σ.root.pulse ∧
      (∀ r, r < T.nprocs → IsLeast (leafPulses T σ r) (σ.out T r).length) ∧
      ∀ r, r < T.nprocs → T.isLeaf r = false → ∀ t, (σ.node r).own.hashTs t =
        if (σ.out T r).length ≤ t ∧ ∃ c ∈ T.children r, t < (σ.out T c).length then
          some ((T.children r).filter fun c => t < (σ.out T c).length).card
        else none := by
  have h : Keeps T E σ := Transition.along_invariant _ (fun _ _ _ h hk hs => h.step h2 hE hk hs) keeps_init hk hs
  have hleast := h.out_isLeast h2 hq
  have hroot : σ.root.pulse = (σ.out T 0).length := Nat.le_antisymm h.rootLe (hq.out_le h.running)
  refine ⟨hroot ▸ hleast 0 T.nprocs_pos, hleast, ?_⟩
  intro r hr hl t
  have hn := h.inner h2 hl
  have hlen : (σ.out T r).length = (σ.node r).own.counter := by
    rw [NetOf.out, hl]
    exact h.out_length h2 hq hr hl
  have hsenders : senders T r t (σ.node r).handled = (T.children r).filter fun c => t < (σ.out T c).length := by
    rw [senders_eq hn.handled]
    refine Finset.filter_congr fun c hc => ?_
    rw [hq.handled h.toHistory h.running hc]
  rw [(hn.own.counts hn.handled).table, hsenders, hlen]
  simp only [Finset.filter_nonempty_iff]

end

theorem run_drains_heard :
    heard.length ≤ 3 * 3 * 2 + 1 ∧
      ∃ bs τ, (∀ a ∈ bs, a.Delivers) ∧ Transition.exec (netStep twoLeaves loads) (afterRun heard) bs = some τ ∧
        τ.leaf = (afterRun heard).leaf ∧ (∀ a, a.Delivers → netStep twoLeaves loads τ a = none) ∧
          heard.length + bs.length ≤ 3 * 3 * 2 + 1 :=
  @run_drains twoLeaves loads _ 2 (by decide) heard rfl (by decide)

theorem pulses_reported_heard : IsLeast (leafPulses twoLeaves (afterRun heard) 0) (afterRun heard).root.pulse :=
  (@pulses_reported twoLeaves loads _ (by decide) wellFormed_loads heard (by decide) rfl (by decide)).1

end Clarisse
