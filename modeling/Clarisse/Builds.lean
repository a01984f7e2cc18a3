import Clarisse.Draining
import Clarisse.Finishing

/-!
# The two builds in step

The benchmarking build does what the ordinary build does when every leaf sees
`leafs_finished` at its last timestamp: the same steps are enabled, and the states
differ in the start times and in what the root makes of its events only.
-/

namespace Clarisse

open Interleave

def Enabled (T : Topology) (σ : Net) (a : Act) : Prop := σ.Enabled T OwnState.submitted RootState.pulse a

theorem netStep_isSome_iff {T : Topology} {E : Nat → Nat → When → Sampling} {σ : Net} {a : Act} :
    (netStep T E σ a).isSome ↔ σ.halted = none ∧ Enabled T σ a := NetOf.step_isSome_iff

namespace Benchmark

def Enabled (T : Topology) (σ : Net) (a : Act) : Prop := σ.Enabled T (fun s => s.submitted) RootState.pulse a

section
variable {T : Topology} {maxTimestamps : Nat} {E : Nat → Nat → When → Sampling} {σ : Net} {τ : Clarisse.Net} {a : Act}
  {b : Clarisse.Act}

theorem netStep_isSome_iff : (netStep T maxTimestamps E σ a).isSome ↔ σ.halted = none ∧ Enabled T σ a :=
  NetOf.step_isSome_iff

theorem Follows.out_length (h : Follows T E maxTimestamps σ τ) (r : Nat) :
    (σ.out T r).length = (τ.out T r).length := by
  have := congrArg List.length (h.out r)
  simpa using this

theorem Follows.enabled_iff (h : Follows T E maxTimestamps σ τ) (hab : a.Matches b) :
    Enabled T σ a ↔ Clarisse.Enabled T τ b := by
  cases hab with
  | leaf r => simp [Enabled, Clarisse.Enabled, NetOf.Enabled, h.quit r]
  | terminal c =>
    have hlen := stream_length_untimed (h.node (T.parent c)).handled
    simp [Enabled, Clarisse.Enabled, NetOf.Enabled, h.out_length c, hlen]
  | multi c =>
    have hlen := stream_length_untimed (h.node (T.parent c)).arrived
    simp [Enabled, Clarisse.Enabled, NetOf.Enabled, h.out_length c, hlen]
  | own r =>
    obtain ⟨table, hown⟩ := (h.node r).own.same
    simp [Enabled, Clarisse.Enabled, NetOf.Enabled, stream_length_untimed (h.node r).arrived, hown]
  | final endTime => simp [Enabled, Clarisse.Enabled, NetOf.Enabled, h.out_length 0, h.pulse]

theorem Follows.lockstep (h : Follows T E maxTimestamps σ τ) (h2 : 2 ≤ T.nprocs) (hab : a.Matches b)
    (hb : QuitsAt maxTimestamps τ b) :
    Option.Rel (Follows T E maxTimestamps) (netStep T maxTimestamps E σ a) (Clarisse.netStep T E τ b) := by
  have henabled : (netStep T maxTimestamps E σ a).isSome ↔ (Clarisse.netStep T E τ b).isSome := by
    rw [netStep_isSome_iff, Clarisse.netStep_isSome_iff, h.halted, h.enabled_iff hab]
  cases hs : netStep T maxTimestamps E σ a with
  | none =>
    simp only [hs, Option.isSome_none, Bool.false_eq_true, false_iff, Bool.not_eq_true, Option.isSome_eq_false_iff,
      Option.isNone_iff_eq_none] at henabled
    rw [henabled]
    exact Option.Rel.none
  | some σ' =>
    obtain ⟨τ', hstep, hfollows⟩ := h.step_matches h2 hab hb hs
    rw [hstep]
    exact Option.Rel.some hfollows

/-- Matching runs of the two builds, in which the leaves of the ordinary build see
`leafs_finished` at their last timestamp, go through together and end alike. -/
theorem builds_agree (h2 : 2 ≤ T.nprocs) (hmax : 1 ≤ maxTimestamps) :
    (∀ as bs, List.Forall₂ Act.Matches as bs →
      Transition.Along (Clarisse.netStep T E) (QuitsAt maxTimestamps) (Clarisse.netInit T) bs →
        Option.Rel (Follows T E maxTimestamps)
          (Transition.exec (netStep T maxTimestamps E) (netInit T maxTimestamps) as)
          (Transition.exec (Clarisse.netStep T E) (Clarisse.netInit T) bs)) ∧
      ∀ as, ∃ bs, List.Forall₂ Act.Matches as bs ∧
        Transition.Along (Clarisse.netStep T E) (QuitsAt maxTimestamps) (Clarisse.netInit T) bs := by
  refine ⟨fun as bs hm hq => ?_, fun as => ?_⟩
  · exact Transition.exec_lockstep _ (fun σ τ a b h hab hb => h.lockstep h2 hab hb) hm (follows_init hmax) hq
  · exact Transition.exists_matching _ (exists_matches maxTimestamps) as (Clarisse.netInit T)

end

instance (maxTimestamps : Nat) (τ : Clarisse.Net) : ∀ b, Decidable (QuitsAt maxTimestamps τ b)
  | .leaf r fin => inferInstanceAs (Decidable (fin = decide ((τ.leaf r).counter + 1 = maxTimestamps)))
  | .terminal _ => isTrue trivial
  | .multi _ => isTrue trivial
  | .own _ => isTrue trivial
  | .final => isTrue trivial

def pairFlagged : List Clarisse.Act :=
  [.leaf 1 false, .terminal 1, .multi 1, .own 0, .final, .leaf 1 true, .terminal 1, .multi 1, .own 0, .final]

theorem pairFlagged_matches : List.Forall₂ Act.Matches pairRun pairFlagged := by
  unfold pairRun pairPulse pairFlagged
  repeat constructor

theorem builds_agree_pairRun :
    Option.Rel (Follows pair (named ["a"]) 2)
      (Transition.exec (netStep pair 2 (named ["a"])) (netInit pair 2) pairRun)
      (Transition.exec (Clarisse.netStep pair (named ["a"])) (Clarisse.netInit pair) pairFlagged) :=
  (builds_agree (by decide) (by decide)).1 _ _ pairFlagged_matches (by decide)

end Benchmark

end Clarisse
