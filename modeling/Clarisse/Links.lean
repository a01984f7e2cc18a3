import Clarisse.OwnMetricsSound
import Clarisse.Stone

/-!
# The links between the ranks

Leaves submit one event a pulse on their bridge; the split stone of the parent
copies each event to the terminal stone, whose handler submits the parent's own
events, and to the multi stone, which submits the aggregated events on the
parent's bridge, or on the root to `final_result`. Every link delivers in order;
everything else may happen in any order. What the two builds do differently at the
ends of the links is left open.
-/

namespace Clarisse

open Interleave

/-- The local variables of `start_communication`, and what it has submitted. -/
structure LeafState where
  counter : Nat := 0
  data : Metrics := default
  aggregator : Aggregator := initializeMetricsAggregator
  submitted : List Metrics := []

def startCommunication (T : Topology) (rank : Nat) : LeafState where
  data := { (default : Metrics) with maxDegree := T.maxDegree, parentRank := T.getParent rank, nprocs := T.nprocs }

/-- An inner rank: the arrivals at its multi stone and the events its terminal
handler has had, with the states these lead to. -/
structure NodeOf (O : Type) where
  arrived : List (Option Nat × Metrics) := []
  multi : MultiState := {}
  handled : List (Nat × Metrics) := []
  own : O

/-- `halted` is set when a process has ended early, and with it the job. -/
structure NetOf (O R : Type) where
  leaf : Nat → LeafState
  node : Nat → NodeOf O
  root : R
  halted : Option Halt

/-- `terminal c` and `multi c` take the next event of the child `c` at its parent,
`own r` the next own event of `r` at its multi stone. -/
inductive ActOf (L F : Type) where
  | leaf (rank : Nat) (input : L)
  | terminal (child : Nat)
  | multi (child : Nat)
  | own (rank : Nat)
  | final (input : F)
  deriving DecidableEq, Repr

def ActOf.receiver {L F : Type} (T : Topology) : ActOf L F → Nat
  | .leaf r _ => r
  | .terminal c => T.parent c
  | .multi c => T.parent c
  | .own r => r
  | .final _ => 0

section
variable {L F O R : Type}

def NetOf.setLeaf (σ : NetOf O R) (r : Nat) (l : LeafState) : NetOf O R :=
  { σ with leaf := Function.update σ.leaf r l }

def NetOf.setNode (σ : NetOf O R) (r : Nat) (n : NodeOf O) : NetOf O R :=
  { σ with node := Function.update σ.node r n }

/-- What a rank has submitted on its bridge, the root for `final_result`. -/
def NetOf.out (T : Topology) (σ : NetOf O R) (r : Nat) : List Metrics :=
  if T.isLeaf r then (σ.leaf r).submitted else (σ.node r).multi.submitted

def NodeOf.handle (n : NodeOf O) (c : Nat) (e : Metrics) (own : O) : NodeOf O :=
  { n with handled := n.handled ++ [(c, e)], own := own }

def NodeOf.enqueue (benchmarking : Bool) (n : NodeOf O) (i : Option Nat) (e : Metrics) : NodeOf O :=
  { n with arrived := n.arrived ++ [(i, e)], multi := Clarisse.enqueue benchmarking n.multi e }

/-! The builds differ in the script, the leaf thread, the handler with what it has submitted,
and `final_result` with its count of pulses. -/

variable (T : Topology) (benchmarking : Bool) (leafPulse : Nat → L → LeafState → Except Halt LeafState)
  (computeOwnMetrics : Nat → O → Metrics → Except Halt O) (submitted : O → List Metrics) (pulse : R → Nat)
  (finalResult : F → R → Metrics → R)

def NetOf.step (σ : NetOf O R) (a : ActOf L F) : Option (NetOf O R) :=
  if σ.halted.isSome then none
  else
    match a with
    | .leaf r input =>
      if r < T.nprocs ∧ T.isLeaf r ∧ (σ.leaf r).data.quit = 0 then
        match leafPulse r input (σ.leaf r) with
        | .error h => some { σ with halted := some h }
        | .ok l => some (σ.setLeaf r l)
      else none
    | .terminal c =>
      if 0 < c ∧ c < T.nprocs then
        let r := T.parent c
        match (σ.out T c)[(stream c (σ.node r).handled).length]? with
        | none => none
        | some e =>
          match computeOwnMetrics r (σ.node r).own e with
          | .error h => some { σ with halted := some h }
          | .ok own => some (σ.setNode r ((σ.node r).handle c e own))
      else none
    | .multi c =>
      if 0 < c ∧ c < T.nprocs then
        let r := T.parent c
        match (σ.out T c)[(stream (some c) (σ.node r).arrived).length]? with
        | none => none
        | some e => some (σ.setNode r ((σ.node r).enqueue benchmarking (some c) e))
      else none
    | .own r =>
      if r < T.nprocs ∧ T.isLeaf r = false then
        match (submitted (σ.node r).own)[(stream none (σ.node r).arrived).length]? with
        | none => none
        | some e => some (σ.setNode r ((σ.node r).enqueue benchmarking none e))
      else none
    | .final input =>
      match (σ.out T 0)[pulse σ.root]? with
      | none => none
      | some e => some { σ with root := finalResult input σ.root e }

inductive NetOf.Steps (σ : NetOf O R) : ActOf L F → NetOf O R → Prop where
  | leafHalt (r : Nat) (input : L) (h : Halt) (hp : leafPulse r input (σ.leaf r) = .error h) (hr : r < T.nprocs)
      (hl : T.isLeaf r = true) (hq : (σ.leaf r).data.quit = 0) :
      Steps σ (.leaf r input) { σ with halted := some h }
  | ownHalt (c r : Nat) (e : Metrics) (h : Halt) (hc : c ∈ T.children r)
      (he : (σ.out T c)[(stream c (σ.node r).handled).length]? = some e)
      (ho : computeOwnMetrics r (σ.node r).own e = .error h) :
      Steps σ (.terminal c) { σ with halted := some h }
  | leaf (r : Nat) (input : L) (l : LeafState) (hr : r < T.nprocs) (hl : T.isLeaf r = true)
      (hq : (σ.leaf r).data.quit = 0) (hp : leafPulse r input (σ.leaf r) = .ok l) :
      Steps σ (.leaf r input) (σ.setLeaf r l)
  | terminal (c r : Nat) (e : Metrics) (own : O) (hc : c ∈ T.children r)
      (he : (σ.out T c)[(stream c (σ.node r).handled).length]? = some e)
      (ho : computeOwnMetrics r (σ.node r).own e = .ok own) :
      Steps σ (.terminal c) (σ.setNode r ((σ.node r).handle c e own))
  | multi (c r : Nat) (e : Metrics) (hc : c ∈ T.children r)
      (he : (σ.out T c)[(stream (some c) (σ.node r).arrived).length]? = some e) :
      Steps σ (.multi c) (σ.setNode r ((σ.node r).enqueue benchmarking (some c) e))
  | own (r : Nat) (e : Metrics) (hr : r < T.nprocs) (hl : T.isLeaf r = false)
      (he : (submitted (σ.node r).own)[(stream none (σ.node r).arrived).length]? = some e) :
      Steps σ (.own r) (σ.setNode r ((σ.node r).enqueue benchmarking none e))
  | final (input : F) (e : Metrics) (he : (σ.out T 0)[pulse σ.root]? = some e) :
      Steps σ (.final input) { σ with root := finalResult input σ.root e }

def NetOf.Enabled (σ : NetOf O R) : ActOf L F → Prop
  | .leaf r _ => r < T.nprocs ∧ T.isLeaf r = true ∧ (σ.leaf r).data.quit = 0
  | .terminal c => 0 < c ∧ c < T.nprocs ∧ (stream c (σ.node (T.parent c)).handled).length < (σ.out T c).length
  | .multi c => 0 < c ∧ c < T.nprocs ∧ (stream (some c) (σ.node (T.parent c)).arrived).length < (σ.out T c).length
  | .own r => r < T.nprocs ∧ T.isLeaf r = false ∧
      (stream none (σ.node r).arrived).length < (submitted (σ.node r).own).length
  | .final _ => pulse σ.root < (σ.out T 0).length

end

section
variable {O R : Type} {T : Topology} {σ : NetOf O R} {r : Nat}

/-! What each kind of step leaves alone, and that logs only grow. -/

theorem setLeaf_leaf (l : LeafState) : (σ.setLeaf r l).leaf r = l := Function.update_self ..

theorem setLeaf_leaf_of_ne {q : Nat} (l : LeafState) (h : q ≠ r) : (σ.setLeaf r l).leaf q = σ.leaf q :=
  Function.update_of_ne h ..

theorem setNode_node (n : NodeOf O) : (σ.setNode r n).node r = n := Function.update_self ..

theorem setNode_node_of_ne {q : Nat} (n : NodeOf O) (h : q ≠ r) : (σ.setNode r n).node q = σ.node q :=
  Function.update_of_ne h ..

theorem setNode_forall {P : Nat → NodeOf O → Prop} {n : NodeOf O} (h : ∀ q, P q (σ.node q)) (hr : P r n) (q : Nat) :
    P q ((σ.setNode r n).node q) := by
  by_cases hq : q = r
  · subst hq
    rw [setNode_node]
    exact hr
  · rw [setNode_node_of_ne n hq]
    exact h q

theorem setLeaf_forall {P : Nat → LeafState → Prop} {l : LeafState} (h : ∀ q, P q (σ.leaf q)) (hr : P r l)
    (q : Nat) :
    P q ((σ.setLeaf r l).leaf q) := by
  by_cases hq : q = r
  · subst hq
    rw [setLeaf_leaf]
    exact hr
  · rw [setLeaf_leaf_of_ne l hq]
    exact h q

theorem out_setLeaf {l : LeafState} (h : (σ.leaf r).submitted <+: l.submitted) (q : Nat) :
    σ.out T q <+: (σ.setLeaf r l).out T q := by
  unfold NetOf.out
  by_cases hq : q = r
  · subst hq
    rw [setLeaf_leaf]
    split
    · exact h
    · exact List.prefix_refl _
  · rw [setLeaf_leaf_of_ne l hq]
    exact List.prefix_refl _

theorem out_setNode {n : NodeOf O} (h : (σ.node r).multi.submitted <+: n.multi.submitted) (q : Nat) :
    σ.out T q <+: (σ.setNode r n).out T q := by
  unfold NetOf.out
  by_cases hq : q = r
  · subst hq
    rw [setNode_node]
    split
    · exact List.prefix_refl _
    · exact h
  · rw [setNode_node_of_ne n hq]
    exact List.prefix_refl _

end

section
variable {L F O R : Type} {T : Topology} {benchmarking : Bool}
  {leafPulse : Nat → L → LeafState → Except Halt LeafState}
  {computeOwnMetrics : Nat → O → Metrics → Except Halt O} {submitted : O → List Metrics} {pulse : R → Nat}
  {finalResult : F → R → Metrics → R} {σ σ' : NetOf O R} {a : ActOf L F}

theorem NetOf.step_steps
    (h : σ.step T benchmarking leafPulse computeOwnMetrics submitted pulse finalResult a = some σ') :
    σ.halted = none ∧ σ.Steps T benchmarking leafPulse computeOwnMetrics submitted pulse finalResult a σ' := by
  unfold step at h
  split at h
  · cases h
  rename_i hh
  refine ⟨by simpa using hh, ?_⟩
  cases a with
  | leaf r input =>
    simp only at h
    split at h
    · rename_i hg
      obtain ⟨hr, hl, hq⟩ := hg
      cases hp : leafPulse r input (σ.leaf r) with
      | error d => rw [hp] at h; cases h; exact .leafHalt r input d hp hr hl hq
      | ok l => rw [hp] at h; cases h; exact .leaf r input l hr hl hq hp
    · cases h
  | terminal c =>
    simp only at h
    split at h
    · rename_i hg
      have hc : c ∈ T.children (T.parent c) := T.mem_children.mpr ⟨hg.1, hg.2, rfl⟩
      cases he : (σ.out T c)[(stream c (σ.node (T.parent c)).handled).length]? with
      | none => rw [he] at h; cases h
      | some e =>
        simp only [he] at h
        cases ho : computeOwnMetrics (T.parent c) (σ.node (T.parent c)).own e with
        | error d => rw [ho] at h; cases h; exact .ownHalt c _ e d hc he ho
        | ok own => rw [ho] at h; cases h; exact .terminal c _ e own hc he ho
    · cases h
  | multi c =>
    simp only at h
    split at h
    · rename_i hg
      have hc : c ∈ T.children (T.parent c) := T.mem_children.mpr ⟨hg.1, hg.2, rfl⟩
      cases he : (σ.out T c)[(stream (some c) (σ.node (T.parent c)).arrived).length]? with
      | none => rw [he] at h; cases h
      | some e => rw [he] at h; cases h; exact .multi c _ e hc he
    · cases h
  | own r =>
    simp only at h
    split at h
    · rename_i hg
      cases he : (submitted (σ.node r).own)[(stream none (σ.node r).arrived).length]? with
      | none => rw [he] at h; cases h
      | some e => rw [he] at h; cases h; exact .own r e hg.1 hg.2 he
    · cases h
  | final input =>
    simp only at h
    cases he : (σ.out T 0)[pulse σ.root]? with
    | none => rw [he] at h; cases h
    | some e => rw [he] at h; cases h; exact .final input e he

theorem NetOf.step_root
    (h : σ.step T benchmarking leafPulse computeOwnMetrics submitted pulse finalResult a = some σ') :
    σ'.root = σ.root ∨ ∃ input, a = .final input ∧
      ∃ e ∈ (σ.out T 0)[pulse σ.root]?, σ'.root = finalResult input σ.root e := by
  cases (step_steps h).2 with
  | final input e he => exact Or.inr ⟨input, rfl, e, he, rfl⟩
  | leafHalt r input d hp => exact Or.inl rfl
  | ownHalt c r e d hc he ho => exact Or.inl rfl
  | leaf r input l hr hl hq hp => exact Or.inl rfl
  | terminal c r e own hc he ho => exact Or.inl rfl
  | multi c r e hc he => exact Or.inl rfl
  | own r e hr hl he => exact Or.inl rfl

theorem NetOf.step_leaf
    (h : σ.step T benchmarking leafPulse computeOwnMetrics submitted pulse finalResult a = some σ') (q : Nat) :
    (∃ input, a = .leaf q input) ∨ σ'.leaf q = σ.leaf q := by
  cases (step_steps h).2 with
  | leaf r input l hr hl hq hp =>
    by_cases hqr : q = r
    · exact Or.inl ⟨input, by rw [hqr]⟩
    · exact Or.inr (setLeaf_leaf_of_ne l hqr)
  | final input e he => exact Or.inr rfl
  | leafHalt r input d hp => exact Or.inr rfl
  | ownHalt c r e d hc he ho => exact Or.inr rfl
  | terminal c r e own hc he ho => exact Or.inr rfl
  | multi c r e hc he => exact Or.inr rfl
  | own r e hr hl he => exact Or.inr rfl

theorem NetOf.step_isSome_iff :
    (σ.step T benchmarking leafPulse computeOwnMetrics submitted pulse finalResult a).isSome ↔
      σ.halted = none ∧ σ.Enabled T submitted pulse a := by
  cases hh : σ.halted with
  | some d => simp [step, hh]
  | none =>
    cases a with
    | leaf r input =>
      by_cases hg : r < T.nprocs ∧ T.isLeaf r ∧ (σ.leaf r).data.quit = 0
      · cases hp : leafPulse r input (σ.leaf r) <;> simp [step, hh, Enabled, hg, hp]
      · simp [step, hh, Enabled, hg]
    | terminal c =>
      by_cases hg : 0 < c ∧ c < T.nprocs
      · by_cases hl : (stream c (σ.node (T.parent c)).handled).length < (σ.out T c).length
        · cases ho : computeOwnMetrics (T.parent c) (σ.node (T.parent c)).own
            (σ.out T c)[(stream c (σ.node (T.parent c)).handled).length] <;> simp [step, hh, Enabled, hg, hl, ho]
        · simp [step, hh, Enabled, hg, hl]
      · simp [step, hh, Enabled, hg, ← and_assoc]
    | multi c =>
      by_cases hg : 0 < c ∧ c < T.nprocs
      · by_cases hl : (stream (some c) (σ.node (T.parent c)).arrived).length < (σ.out T c).length
        · simp [step, hh, Enabled, hg, hl]
        · simp [step, hh, Enabled, hg, hl]
      · simp [step, hh, Enabled, hg, ← and_assoc]
    | own r =>
      by_cases hg : r < T.nprocs ∧ T.isLeaf r = false
      · by_cases hl : (stream none (σ.node r).arrived).length < (submitted (σ.node r).own).length
        · simp [step, hh, Enabled, hg, hl]
        · simp [step, hh, Enabled, hg, hl]
      · simp [step, hh, Enabled, hg, ← and_assoc]
    | final input =>
      by_cases hl : pulse σ.root < (σ.out T 0).length
      · simp [step, hh, Enabled, hl]
      · simp [step, hh, Enabled, hl]

end

end Clarisse
