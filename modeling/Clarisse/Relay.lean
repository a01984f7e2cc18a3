import Clarisse.History

/-!
# The degree through the relay

The script takes the degree of its rank from the first event of a pulse, and
relays that event's `parent_rank` as `(parent_rank - 1) / max_degree`. Where own
events arrive last the first event is a child's, which carries the rank itself;
that it does follows from the leaves up.
-/

namespace Clarisse

open Interleave

/-- At every inner rank the own event of a pulse arrives after the children's. -/
def OwnLastAll (T : Topology) (σ : Net) : Prop :=
  ∀ r, r < T.nprocs → T.isLeaf r = false → OwnLast T r (σ.node r).arrived

section
variable {T : Topology} {E : Nat → Nat → When → Sampling} {σ : Net} {r : Nat} {b : Bool}
variable {w : List (Option Nat × Metrics)}

/-- Every pass of every run of the script computes the degree of the rank. -/
theorem Arrivals.pass_degree (h : Arrivals T r w) (ho : OwnLast T r w) (hD : 0 < T.getDegreeNode r)
    {u : List (Option Nat × Metrics)} {x : Option Nat × Metrics} (hu : (u ++ [x]) <+: w) :
    ∀ s ∈ runPasses b ((feed b (u.map Prod.snd)).push x.2), s.currentNodeDegree = T.getDegreeNode r := by
  obtain ⟨v, rfl⟩ := hu
  have h := h.left
  have ho := ho.left
  have hmap : (u ++ [x]).map Prod.snd = u.map Prod.snd ++ [x.2] := by rw [List.map_append, List.map_singleton]
  have hst := Interleaved.stair_sources h.inOrder
  have hw := h.wide
  rw [hmap] at hst hw
  intro s hs
  obtain ⟨t, a, ha, hd⟩ := ((h.left.settled hD b).enqueue (by omega) hst hw).2.2 s hs
  rw [← hmap] at ha
  rw [hd, h.head_degree ho hD ha]

theorem Arrivals.relay (h : Arrivals T r w) (ho : OwnLast T r w) (hD : 0 < T.getDegreeNode r) :
    ∀ e ∈ (feed b (w.map Prod.snd)).submitted, e.parentRank = T.getParent r := by
  intro e he
  obtain ⟨k, hk⟩ := List.mem_iff_getElem?.mp he
  obtain ⟨a, rest, ha, -, -, -, hp, -⟩ := (h.settled hD b).submitted_first (Nat.succ_pos _) hk
  obtain ⟨c, hc⟩ := ho.head_child hD (t := k) (a := a) (by rw [ha]; rfl)
  obtain ⟨h1, h2, -⟩ := h.header _ hc
  rw [hp, h1, h2]
  rfl

theorem History.arrivals_of_children (h : History T E σ) (h2 : 2 ≤ T.nprocs) (hl : T.isLeaf r = false)
    (hc : ∀ c ∈ T.children r, ∀ e ∈ σ.out T c, e.parentRank = T.getParent c) : Arrivals T r (σ.node r).arrived := by
  have hn := h.inner h2 hl
  refine ⟨hn.arrived, fun x hx => ?_⟩
  obtain ⟨i, e⟩ := x
  have hi := hn.arrived.tag _ hx
  obtain ⟨-, h3⟩ := hn.header e (List.mem_map_of_mem hx)
  refine ⟨?_, h3⟩
  cases i with
  | none => exact (hn.own.announced e ((h.arrivedOwn r).subset (mem_stream.mpr hx))).parentRank
  | some c =>
    have hm := mem_sources.mp hi
    obtain ⟨h0, -, hp⟩ := T.mem_children.mp hm
    rw [hc c hm e ((h.arrivedLe r c hm).subset (mem_stream.mpr hx)), T.getParent_pos h0, hp]
    rfl

theorem History.parentRank (h : History T E σ) (h2 : 2 ≤ T.nprocs) (ho : OwnLastAll T σ) :
    ∀ r < T.nprocs, ∀ e ∈ σ.out T r, e.parentRank = T.getParent r := by
  refine T.child_induction fun r hr ih => ?_
  unfold NetOf.out
  cases hl : T.isLeaf r with
  | true => exact fun e he => ((h.leaf r).announced e he).parentRank
  | false =>
    rw [h.multi r]
    exact (h.arrivals_of_children h2 hl ih).relay (ho r hr hl) ((T.degree_pos_iff h2 r).mpr hl)

theorem History.arrivals (h : History T E σ) (h2 : 2 ≤ T.nprocs) (ho : OwnLastAll T σ) (hl : T.isLeaf r = false) :
    Arrivals T r (σ.node r).arrived :=
  h.arrivals_of_children h2 hl fun c hc => h.parentRank h2 ho c (T.lt_of_mem_children hc).2

/-- The degree that the script of `r` computes is that of `get_degree_node`, in
every pass of each of its runs so far, and `r` relays `get_parent` of itself. -/
theorem degree_agrees (h2 : 2 ≤ T.nprocs) (hσ : Reachable T E σ) (ho : OwnLastAll T σ) (hr : r < T.nprocs)
    (hl : T.isLeaf r = false) :
    (σ.node r).multi = feed false ((σ.node r).arrived.map Prod.snd) ∧
      (∀ u x, (u ++ [x]) <+: (σ.node r).arrived → ∀ s ∈ runPasses false ((feed false (u.map Prod.snd)).push x.2),
        s.currentNodeDegree = T.getDegreeNode r) ∧
      (0 < r → ∀ e ∈ (σ.node r).multi.submitted,
        e.parentRank = ((r : Int) - 1).tdiv T.maxDegree ∧ e.parentRank = T.getParent r) := by
  have h := hσ.history
  have hD := (T.degree_pos_iff h2 r).mpr hl
  refine ⟨h.multi r, fun u x hu => (h.arrivals h2 ho hl).pass_degree (ho r hr hl) hD hu, fun _ e he => ?_⟩
  have hp := h.parentRank h2 ho r hr e (by rw [NetOf.out, hl]; exact he)
  exact ⟨hp, hp⟩

end

def loads : Nat → Nat → When → Sampling := fun rank _ _ => .constant ["load"] rank

def chainPulse : List Act := [.leaf 2 false, .terminal 2, .multi 2, .own 1, .terminal 1, .multi 1, .own 0]

def afterChainPulse : Net :=
  (Transition.exec (netStep chain loads) (netInit chain) chainPulse).getD (netInit chain)

theorem degree_agrees_chain :
    (afterChainPulse.node 1).multi = feed false ((afterChainPulse.node 1).arrived.map Prod.snd) ∧
      (∀ u x, (u ++ [x]) <+: (afterChainPulse.node 1).arrived →
        ∀ s ∈ runPasses false ((feed false (u.map Prod.snd)).push x.2),
          s.currentNodeDegree = chain.getDegreeNode 1) ∧
      (0 < 1 → ∀ e ∈ (afterChainPulse.node 1).multi.submitted,
        e.parentRank = (((1 : Nat) : Int) - 1).tdiv chain.maxDegree ∧ e.parentRank = chain.getParent 1) := by
  have ho : OwnLastAll chain afterChainPulse := by
    unfold OwnLastAll
    decide
  have hr : Reachable chain loads afterChainPulse := ⟨chainPulse, rfl⟩
  exact degree_agrees (by decide) hr ho (by decide) (by decide)

end Clarisse
