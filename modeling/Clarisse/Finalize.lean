import Clarisse.History
import Clarisse.Relay

/-!
# The threads at the end of the job

The main threads run `monitoring_finalize`, the leaf threads the loop of
`start_communication`, and the events travel up the tree. The main threads wait
for the root and for one another, not for the leaf threads, so what a leaf
thread still uses may be gone.
-/

namespace Clarisse

/-- The next statement of a main thread: the flag of a leaf is set on the way from
`application` to `waiting`, where the root waits for `root_finished`. -/
inductive MainThread where
  | application
  | waiting
  | barrier
  | commFree
  | destroy
  | destroyed
  deriving DecidableEq, Repr

/-- Where a leaf thread that has sent its last event is with `MPI_Barrier(comm_leafs)`,
which fails when its main thread has freed the communicator. -/
inductive LeafBarrier where
  | before
  | inside
  | passed
  | failed
  deriving DecidableEq, Repr

/-- The next statement of a leaf thread; `quit` is `data.quit` of this iteration. -/
inductive LeafThread where
  | readFlag
  | submit (quit : Bool)
  | barrier (b : LeafBarrier)
  deriving DecidableEq, Repr

structure Sys where
  net : Net
  main : Nat → MainThread
  thread : Nat → LeafThread
  leafsFinished : Nat → Bool

inductive SysAct where
  | main (rank : Nat)
  | readFlag (rank : Nat)
  | submit (rank : Nat)
  | leafBarrier (rank : Nat)
  | deliver (a : Act)
  deriving DecidableEq, Repr

def MainThread.entered : MainThread → Bool
  | .application | .waiting => false
  | _ => true

def MainThread.left : MainThread → Bool
  | .commFree | .destroy | .destroyed => true
  | _ => false

/-- `comm_leafs` is `MPI_COMM_NULL`, or gone with the aggregator. -/
def MainThread.freed : MainThread → Bool
  | .destroy | .destroyed => true
  | _ => false

def LeafBarrier.reached : LeafBarrier → Bool
  | .inside | .passed => true
  | _ => false

def LeafThread.done : LeafThread → Bool
  | .barrier _ => true
  | _ => false

def LeafThread.atBarrier : LeafThread → LeafBarrier
  | .barrier b => b
  | _ => .before

def Sys.leafs (σ : Sys) (r : Nat) : LeafBarrier := (σ.thread r).atBarrier

section
variable (T : Topology)

/-- Where `monitoring_finalize` of `r` goes next; `none` while it waits. -/
def monitoringFinalize (main : Nat → MainThread) (rootFinished : Bool) (r : Nat) : Option MainThread :=
  match main r with
  | .application => some .waiting
  | .waiting => if r = 0 ∧ rootFinished = false then none else some .barrier
  | .barrier => if ∀ q < T.nprocs, (main q).entered = true then some .commFree else none
  | .commFree => some .destroy
  | .destroy => some .destroyed
  | .destroyed => none

/-- Where a leaf thread goes next at its barrier; `none` while it waits for another one. -/
def leafBarrier (main : Nat → MainThread) (leafs : Nat → LeafBarrier) (r : Nat) : Option LeafBarrier :=
  match leafs r with
  | .before => some (if (main r).freed then .failed else .inside)
  | .inside => if ∀ q < T.nprocs, T.isLeaf q = true → (leafs q).reached = true then some .passed else none
  | .passed | .failed => none

/-- An error of MPI ends the job. -/
def Aborted (leafs : Nat → LeafBarrier) : Prop := ∃ r < T.nprocs, leafs r = .failed

instance (leafs : Nat → LeafBarrier) : Decidable (Aborted T leafs) :=
  inferInstanceAs (Decidable (∃ r, r < T.nprocs ∧ leafs r = .failed))

variable (E : Nat → Nat → When → Sampling)

def sysInit : Sys where
  net := netInit T
  main _ := .application
  thread _ := .readFlag
  leafsFinished _ := false

/-- Nothing is delivered at a rank whose stones are destroyed. -/
def sysStep (σ : Sys) (a : SysAct) : Option Sys :=
  if Aborted T σ.leafs then none
  else
    match a with
    | .main r =>
      if r < T.nprocs then
        (monitoringFinalize T σ.main σ.net.root.rootFinished r).map fun next =>
          { σ with
            main := Function.update σ.main r next
            leafsFinished :=
              if σ.main r = .application ∧ T.isLeaf r then Function.update σ.leafsFinished r true
              else σ.leafsFinished }
      else none
    | .readFlag r =>
      if r < T.nprocs ∧ T.isLeaf r ∧ σ.thread r = .readFlag then
        some { σ with thread := Function.update σ.thread r (.submit (σ.leafsFinished r)) }
      else none
    | .submit r =>
      match σ.thread r with
      | .submit quit =>
        (netStep T E σ.net (.leaf r quit)).map fun net =>
          { σ with
            net := net
            thread := Function.update σ.thread r (if quit then .barrier .before else .readFlag) }
      | _ => none
    | .leafBarrier r =>
      if r < T.nprocs ∧ T.isLeaf r ∧ (σ.thread r).done then
        (leafBarrier T σ.main σ.leafs r).map fun next =>
          { σ with thread := Function.update σ.thread r (.barrier next) }
      else none
    | .deliver (.leaf ..) => none
    | .deliver a =>
      if σ.main (a.receiver T) = .destroyed then none
      else (netStep T E σ.net a).map fun net => { σ with net := net }

/-- The call of `final_result` that releases the root comes after the last event of
every leaf. -/
def ReleasedLast (σ : Sys) : SysAct → Prop
  | .deliver .final => ∀ e ∈ (σ.net.out T 0)[σ.net.root.pulse]?, e.quit ≠ 0 ∨ e.metricsNr = 0 →
      ∀ r < T.nprocs, T.isLeaf r = true → (σ.thread r).done = true
  | _ => True

instance (σ : Sys) : ∀ a, Decidable (ReleasedLast T σ a)
  | .deliver .final => inferInstanceAs (Decidable (∀ e ∈ (σ.net.out T 0)[σ.net.root.pulse]?,
      e.quit ≠ 0 ∨ e.metricsNr = 0 → ∀ r < T.nprocs, T.isLeaf r = true → (σ.thread r).done = true))
  | .deliver (.leaf ..) => isTrue trivial
  | .deliver (.terminal _) => isTrue trivial
  | .deliver (.multi _) => isTrue trivial
  | .deliver (.own _) => isTrue trivial
  | .main _ => isTrue trivial
  | .readFlag _ => isTrue trivial
  | .submit _ => isTrue trivial
  | .leafBarrier _ => isTrue trivial

structure MainsWait (main : Nat → MainThread) (rootFinished : Bool) : Prop where
  waited : (main 0).entered = true → rootFinished = true
  passed : ∀ r, (main r).left = true → ∀ q < T.nprocs, (main q).entered = true

structure FinalizeInv (σ : Sys) : Prop extends MainsWait T σ.main σ.net.root.rootFinished where
  released : σ.net.root.rootFinished = true → ∀ r < T.nprocs, T.isLeaf r = true → (σ.thread r).done = true

inductive SysSteps (σ : Sys) : SysAct → Sys → Prop where
  | main (r : Nat) (next : MainThread) (flags : Nat → Bool) (hr : r < T.nprocs)
      (hn : monitoringFinalize T σ.main σ.net.root.rootFinished r = some next) :
      SysSteps σ (.main r) { σ with main := Function.update σ.main r next, leafsFinished := flags }
  | readFlag (r : Nat) (hr : r < T.nprocs) (hl : T.isLeaf r = true) (ht : σ.thread r = .readFlag) :
      SysSteps σ (.readFlag r) { σ with thread := Function.update σ.thread r (.submit (σ.leafsFinished r)) }
  | submit (r : Nat) (quit : Bool) (net : Net) (ht : σ.thread r = .submit quit)
      (hn : netStep T E σ.net (.leaf r quit) = some net) :
      SysSteps σ (.submit r)
        { σ with
          net := net
          thread := Function.update σ.thread r (if quit then .barrier .before else .readFlag) }
  | leafBarrier (r : Nat) (b next : LeafBarrier) (hr : r < T.nprocs) (hl : T.isLeaf r = true)
      (ht : σ.thread r = .barrier b) (hb : leafBarrier T σ.main σ.leafs r = some next) :
      SysSteps σ (.leafBarrier r) { σ with thread := Function.update σ.thread r (.barrier next) }
  | deliver (a : Act) (net : Net) (ha : ∀ r quit, a ≠ .leaf r quit) (hn : netStep T E σ.net a = some net) :
      SysSteps σ (.deliver a) { σ with net := net }

end

section
variable {T : Topology} {E : Nat → Nat → When → Sampling} {σ σ' : Sys} {a : SysAct} {r : Nat}
  {mains : Nat → MainThread} {next : MainThread} {rootFinished : Bool}

theorem sysStep_steps (h : sysStep T E σ a = some σ') : ¬ Aborted T σ.leafs ∧ SysSteps T E σ a σ' := by
  unfold sysStep at h
  split at h
  · cases h
  rename_i hrun
  refine ⟨hrun, ?_⟩
  cases a with
  | main r =>
    simp only at h
    split at h
    · rename_i hr
      obtain ⟨next, hn, rfl⟩ := Option.map_eq_some_iff.mp h
      exact .main r next _ hr hn
    · cases h
  | readFlag r =>
    simp only at h
    split at h
    · rename_i hg
      cases h
      exact .readFlag r hg.1 hg.2.1 hg.2.2
    · cases h
  | submit r =>
    simp only at h
    split at h
    · rename_i quit ht
      obtain ⟨net, hn, rfl⟩ := Option.map_eq_some_iff.mp h
      exact .submit r quit net ht hn
    · cases h
  | leafBarrier r =>
    simp only at h
    split at h
    · rename_i hg
      obtain ⟨hr, hl, hd⟩ := hg
      obtain ⟨next, hb, rfl⟩ := Option.map_eq_some_iff.mp h
      cases ht : σ.thread r with
      | readFlag => simp [ht, LeafThread.done] at hd
      | submit quit => simp [ht, LeafThread.done] at hd
      | barrier b => exact .leafBarrier r b next hr hl ht hb
    · cases h
  | deliver a =>
    have key : (∀ r quit, a ≠ .leaf r quit) →
        (if σ.main (a.receiver T) = .destroyed then none
          else (netStep T E σ.net a).map fun net => { σ with net := net }) = some σ' →
        SysSteps T E σ (.deliver a) σ' := by
      intro ha h
      split at h
      · cases h
      · obtain ⟨net, hn, rfl⟩ := Option.map_eq_some_iff.mp h
        exact .deliver a net ha hn
    cases a with
    | leaf r quit => cases h
    | terminal c => exact key nofun h
    | multi c => exact key nofun h
    | own r => exact key nofun h
    | final => exact key nofun h

theorem netStep_root {ν ν' : Net} {a : Act} (h : netStep T E ν a = some ν') :
    ν'.root = ν.root ∨ (a = .final ∧ ∃ e ∈ (ν.out T 0)[ν.root.pulse]?, ν'.root = finalResult T.nprocs ν.root e) :=
  (NetOf.step_root h).imp id fun ⟨_, ha, hroot⟩ => ⟨ha, hroot⟩

theorem mainsWait_init : MainsWait T (fun _ => .application) rootFinished := ⟨nofun, nofun⟩

theorem finalizeInv_init : FinalizeInv T (sysInit T) where
  toMainsWait := mainsWait_init
  released h := by cases h

theorem monitoringFinalize_spec (h : monitoringFinalize T mains rootFinished r = some next) :
    ((mains r).entered = true → next.entered = true) ∧
      (next.entered = true → (mains r).entered = true ∨ (r = 0 → rootFinished = true)) ∧
      (next.left = true → (mains r).left = true ∨ ∀ q < T.nprocs, (mains q).entered = true) := by
  unfold monitoringFinalize at h
  cases hm : mains r with
  | application =>
    simp only [hm] at h
    cases h
    exact ⟨nofun, nofun, nofun⟩
  | waiting =>
    simp only [hm] at h
    split at h
    · cases h
    · rename_i hf
      cases h
      refine ⟨nofun, fun _ => Or.inr fun h0 => ?_, nofun⟩
      simpa [h0] using hf
  | barrier =>
    simp only [hm] at h
    split at h
    · rename_i hall
      cases h
      exact ⟨fun _ => rfl, fun _ => Or.inl rfl, fun _ => Or.inr hall⟩
    · cases h
  | commFree =>
    simp only [hm] at h
    cases h
    exact ⟨fun _ => rfl, fun _ => Or.inl rfl, fun _ => Or.inl rfl⟩
  | destroy =>
    simp only [hm] at h
    cases h
    exact ⟨fun _ => rfl, fun _ => Or.inl rfl, fun _ => Or.inl rfl⟩
  | destroyed =>
    simp only [hm] at h
    cases h

theorem MainsWait.main (h : MainsWait T mains rootFinished)
    (hn : monitoringFinalize T mains rootFinished r = some next) :
    MainsWait T (Function.update mains r next) rootFinished := by
  obtain ⟨hmono, hwait, hpass⟩ := monitoringFinalize_spec hn
  refine ⟨?_, ?_⟩
  · intro he
    by_cases h0 : (0 : Nat) = r
    · subst h0
      rw [Function.update_self] at he
      cases hwait he with
      | inl hold => exact h.waited hold
      | inr hf => exact hf rfl
    · rw [Function.update_of_ne h0] at he
      exact h.waited he
  · intro p hp q hq
    have hall : (mains q).entered = true := by
      by_cases hpr : p = r
      · subst hpr
        rw [Function.update_self] at hp
        cases hpass hp with
        | inl hold => exact h.passed p hold q hq
        | inr hall => exact hall q hq
      · rw [Function.update_of_ne hpr] at hp
        exact h.passed p hp q hq
    by_cases hqr : q = r
    · subst hqr
      rw [Function.update_self]
      exact hmono hall
    · rw [Function.update_of_ne hqr]
      exact hall

theorem done_update {thread : Nat → LeafThread} {next : LeafThread}
    (h : (thread r).done = true → next.done = true) {q : Nat}
    (hq : (thread q).done = true) : (Function.update thread r next q).done = true := by
  by_cases hqr : q = r
  · subst hqr
    rw [Function.update_self]
    exact h hq
  · rw [Function.update_of_ne hqr]
    exact hq

theorem FinalizeInv.step (h : FinalizeInv T σ) (hc : ReleasedLast T σ a) (hs : sysStep T E σ a = some σ') :
    FinalizeInv T σ' := by
  cases (sysStep_steps hs).2 with
  | main r next flags hr hn => exact ⟨h.toMainsWait.main hn, h.released⟩
  | readFlag r hr hl ht =>
    exact ⟨h.toMainsWait,
      fun hf q hq hlq => done_update (fun hd => by rw [ht] at hd; cases hd) (h.released hf q hq hlq)⟩
  | submit r quit net ht hn =>
    have hroot : net.root = σ.net.root := by
      cases netStep_root hn with
      | inl hroot => exact hroot
      | inr hf => exact absurd hf.1 nofun
    refine ⟨⟨?_, h.passed⟩, fun hf q hq hlq => ?_⟩
    · simp only [hroot]
      exact h.waited
    · simp only [hroot] at hf
      exact done_update (fun hd => by rw [ht] at hd; cases hd) (h.released hf q hq hlq)
  | leafBarrier r b next hr hl ht hb =>
    exact ⟨h.toMainsWait, fun hf q hq hlq => done_update (fun _ => rfl) (h.released hf q hq hlq)⟩
  | deliver a net ha hn =>
    cases netStep_root hn with
    | inl hroot =>
      refine ⟨⟨?_, h.passed⟩, ?_⟩
      · simp only [hroot]
        exact h.waited
      · simp only [hroot]
        exact h.released
    | inr hf =>
      obtain ⟨rfl, e, he, hroot⟩ := hf
      refine ⟨⟨fun hm => ?_, h.passed⟩, fun hf => ?_⟩
      · simp only [hroot, finalResult, Bool.or_eq_true]
        exact Or.inl (h.waited hm)
      · simp only [hroot, finalResult, Bool.or_eq_true, decide_eq_true_eq] at hf
        cases hf with
        | inl hf => exact h.released hf
        | inr hf => exact hc e he hf

/-- In a run where the root is released last, a leaf thread whose aggregator is
destroyed neither reads the flag nor submits any more. -/
theorem destroyed_unused {as : List SysAct}
    (hc : Transition.Along (sysStep T E) (ReleasedLast T) (sysInit T) as)
    (hs : Transition.exec (sysStep T E) (sysInit T) as = some σ) (hr : r < T.nprocs) (hl : T.isLeaf r = true)
    (hd : σ.main r = .destroyed) :
    sysStep T E σ (.readFlag r) = none ∧ sysStep T E σ (.submit r) = none := by
  have h : FinalizeInv T σ :=
    Transition.along_invariant _ (fun _ _ _ h hc hs => h.step hc hs) finalizeInv_init hc hs
  have hroot := h.waited (h.passed r (by rw [hd]; rfl) 0 (by have := T.nprocs_pos; omega))
  have hdone := h.released hroot r hr hl
  simp only [sysStep]
  cases ht : σ.thread r with
  | readFlag => rw [ht] at hdone; cases hdone
  | submit quit => rw [ht] at hdone; cases hdone
  | barrier b => simp

/-! ## A root that is released earlier -/

def Busy (T : Topology) (σ : Sys) : Prop :=
  ∀ r, T.isLeaf r = true → (σ.thread r).done = false → (σ.net.leaf r).data.quit = 0

theorem busy_init : Busy T (sysInit T) := fun _ _ _ => rfl

theorem netStep_leaf {ν ν' : Net} {a : Act} (h : netStep T E ν a = some ν') (q : Nat) :
    (∃ quit, a = .leaf q quit) ∨ ν'.leaf q = ν.leaf q := NetOf.step_leaf h q

theorem leaf_quit {ν ν' : Net} {quit : Bool} (h : netStep T E ν (.leaf r quit) = some ν')
    (h0 : (ν.leaf r).data.quit = 0) : quit = true ∨ (ν'.leaf r).data.quit = 0 := by
  cases (netStep_steps h).2 with
  | leafHalt r fin d hp => exact Or.inr h0
  | leaf r fin l hr hl hq hp =>
    cases quit with
    | true => exact Or.inl rfl
    | false =>
      obtain ⟨agg, nr, values, b, -, -, -, -, hd⟩ := leafPulse_ok hp
      rw [setLeaf_leaf, hd]
      exact Or.inr rfl

theorem Busy.step (h : Busy T σ) (hs : sysStep T E σ a = some σ') : Busy T σ' := by
  cases (sysStep_steps hs).2 with
  | main r next flags hr hn => exact h
  | readFlag r hr hl ht =>
    intro q hq hd
    by_cases hqr : q = r
    · subst hqr
      exact h q hq (by rw [ht]; rfl)
    · simp only [Function.update_of_ne hqr] at hd
      exact h q hq hd
  | leafBarrier r b next hr hl ht hb =>
    intro q hq hd
    by_cases hqr : q = r
    · subst hqr
      simp only [Function.update_self] at hd
      cases hd
    · simp only [Function.update_of_ne hqr] at hd
      exact h q hq hd
  | deliver a net ha hn =>
    intro q hq hd
    cases netStep_leaf hn q with
    | inl hl =>
      obtain ⟨quit, rfl⟩ := hl
      exact absurd rfl (ha q quit)
    | inr he =>
      simp only [he]
      exact h q hq hd
  | submit r quit net ht hn =>
    intro q hq hd
    by_cases hqr : q = r
    · subst hqr
      simp only [Function.update_self] at hd
      cases leaf_quit hn (h q hq (by rw [ht]; rfl)) with
      | inl hquit =>
        rw [if_pos hquit] at hd
        cases hd
      | inr h0 => exact h0
    · simp only [Function.update_of_ne hqr] at hd
      cases netStep_leaf hn q with
      | inl hl =>
        obtain ⟨quit', he⟩ := hl
        cases he
        exact absurd rfl hqr
      | inr he =>
        simp only [he]
        exact h q hq hd

structure MainRun (T : Topology) (E : Nat → Nat → When → Sampling) (σ τ : Sys) : Prop where
  run : ∃ bs, Transition.exec (sysStep T E) σ bs = some τ
  net : τ.net = σ.net
  thread : τ.thread = σ.thread

theorem MainRun.refl (σ : Sys) : MainRun T E σ σ := ⟨⟨[], rfl⟩, rfl, rfl⟩

theorem MainRun.trans {ρ τ : Sys} (h : MainRun T E σ ρ) (h' : MainRun T E ρ τ) : MainRun T E σ τ := by
  obtain ⟨bs, hs⟩ := h.run
  obtain ⟨cs, hs'⟩ := h'.run
  refine ⟨⟨bs ++ cs, ?_⟩, h'.net.trans h.net, h'.thread.trans h.thread⟩
  rw [Transition.exec_append, hs]
  exact hs'

theorem MainRun.leafs {τ : Sys} (h : MainRun T E σ τ) : τ.leafs = σ.leafs := by
  unfold Sys.leafs
  rw [h.thread]

theorem mainRun_step {next : MainThread} (hrun : ¬ Aborted T σ.leafs) (hr : r < T.nprocs)
    (hn : monitoringFinalize T σ.main σ.net.root.rootFinished r = some next) :
    ∃ τ, MainRun T E σ τ ∧ τ.main = Function.update σ.main r next := by
  obtain ⟨flags, hs⟩ : ∃ flags, sysStep T E σ (.main r) =
      some { σ with main := Function.update σ.main r next, leafsFinished := flags } := by
    simp only [sysStep, if_neg hrun, if_pos hr, hn, Option.map_some]
    exact ⟨_, rfl⟩
  refine ⟨{ σ with main := Function.update σ.main r next, leafsFinished := flags }, ⟨⟨[.main r], ?_⟩, rfl, rfl⟩, rfl⟩
  rw [Transition.exec_cons, hs]
  rfl

theorem main_leaves_wait (hrun : ¬ Aborted T σ.leafs) (hf : σ.net.root.rootFinished = true) (hr : r < T.nprocs)
    (hm : σ.main r = .waiting) :
    ∃ τ, MainRun T E σ τ ∧ (τ.main r).entered = true ∧ ∀ q, q ≠ r → τ.main q = σ.main q := by
  have hn : monitoringFinalize T σ.main σ.net.root.rootFinished r = some .barrier := by
    simp only [monitoringFinalize, hm, hf, Bool.true_eq_false, and_false, if_false]
  obtain ⟨τ, hτ, hmain⟩ := mainRun_step (E := E) hrun hr hn
  refine ⟨τ, hτ, ?_, fun q hq => ?_⟩
  · rw [hmain, Function.update_self]; rfl
  · rw [hmain, Function.update_of_ne hq]

theorem main_enters (hrun : ¬ Aborted T σ.leafs) (hf : σ.net.root.rootFinished = true) (hr : r < T.nprocs) :
    ∃ τ, MainRun T E σ τ ∧ (τ.main r).entered = true ∧ ∀ q, q ≠ r → τ.main q = σ.main q := by
  cases hm : σ.main r with
  | application =>
    have hn : monitoringFinalize T σ.main σ.net.root.rootFinished r = some .waiting := by
      simp only [monitoringFinalize, hm]
    obtain ⟨ρ, hρ, hmain⟩ := mainRun_step (E := E) hrun hr hn
    obtain ⟨τ, hτ, he, ho⟩ :=
      main_leaves_wait (E := E) (hρ.leafs ▸ hrun) (hρ.net ▸ hf) hr (by rw [hmain, Function.update_self])
    refine ⟨τ, hρ.trans hτ, he, fun q hq => ?_⟩
    rw [ho q hq, hmain, Function.update_of_ne hq]
  | waiting => exact main_leaves_wait hrun hf hr hm
  | barrier => exact ⟨σ, .refl σ, by rw [hm]; rfl, fun _ _ => rfl⟩
  | commFree => exact ⟨σ, .refl σ, by rw [hm]; rfl, fun _ _ => rfl⟩
  | destroy => exact ⟨σ, .refl σ, by rw [hm]; rfl, fun _ _ => rfl⟩
  | destroyed => exact ⟨σ, .refl σ, by rw [hm]; rfl, fun _ _ => rfl⟩

theorem all_enter (hrun : ¬ Aborted T σ.leafs) (hf : σ.net.root.rootFinished = true) (k : Nat) (hk : k ≤ T.nprocs) :
    ∃ τ, MainRun T E σ τ ∧ ∀ q < k, (τ.main q).entered = true := by
  induction k with
  | zero => exact ⟨σ, .refl σ, nofun⟩
  | succ k ih =>
    obtain ⟨ρ, hρ, he⟩ := ih (by omega)
    obtain ⟨τ, hτ, hk', ho⟩ :=
      main_enters (E := E) (hρ.leafs ▸ hrun) (hρ.net ▸ hf) (show k < T.nprocs by omega)
    refine ⟨τ, hρ.trans hτ, fun q hq => ?_⟩
    by_cases hqk : q = k
    · rw [hqk]; exact hk'
    · rw [ho q hqk]; exact he q (by omega)

theorem main_destroys (hrun : ¬ Aborted T σ.leafs) (hr : r < T.nprocs)
    (hall : ∀ q < T.nprocs, (σ.main q).entered = true) :
    ∃ τ, MainRun T E σ τ ∧ τ.main r = .destroyed := by
  have hdestroy : ∀ ρ : Sys, ¬ Aborted T ρ.leafs → ρ.main r = .destroy →
      ∃ τ, MainRun T E ρ τ ∧ τ.main r = .destroyed := by
    intro ρ hρ hm
    have hn : monitoringFinalize T ρ.main ρ.net.root.rootFinished r = some .destroyed := by
      simp only [monitoringFinalize, hm]
    obtain ⟨τ, hτ, hmain⟩ := mainRun_step (E := E) hρ hr hn
    exact ⟨τ, hτ, by rw [hmain, Function.update_self]⟩
  have hfree : ∀ ρ : Sys, ¬ Aborted T ρ.leafs → ρ.main r = .commFree →
      ∃ τ, MainRun T E ρ τ ∧ τ.main r = .destroyed := by
    intro ρ hρ hm
    have hn : monitoringFinalize T ρ.main ρ.net.root.rootFinished r = some .destroy := by
      simp only [monitoringFinalize, hm]
    obtain ⟨ν, hν, hmain⟩ := mainRun_step (E := E) hρ hr hn
    obtain ⟨τ, hτ, hd⟩ := hdestroy ν (hν.leafs ▸ hρ) (by rw [hmain, Function.update_self])
    exact ⟨τ, hν.trans hτ, hd⟩
  cases hm : σ.main r with
  | application => have := hall r hr; rw [hm] at this; cases this
  | waiting => have := hall r hr; rw [hm] at this; cases this
  | barrier =>
    have hn : monitoringFinalize T σ.main σ.net.root.rootFinished r = some .commFree := by
      simp only [monitoringFinalize, hm, if_pos hall]
    obtain ⟨ν, hν, hmain⟩ := mainRun_step (E := E) hrun hr hn
    obtain ⟨τ, hτ, hd⟩ := hfree ν (hν.leafs ▸ hrun) (by rw [hmain, Function.update_self])
    exact ⟨τ, hν.trans hτ, hd⟩
  | commFree => exact hfree σ hrun hm
  | destroy => exact hdestroy σ hrun hm
  | destroyed => exact ⟨σ, .refl σ, hm⟩

theorem Busy.uses (h : Busy T σ) (hlive : ¬ Aborted T σ.leafs) (hrun : σ.net.halted = none) (hr : r < T.nprocs)
    (hl : T.isLeaf r = true) (hd : (σ.thread r).done = false) :
    ¬ (sysStep T E σ (.readFlag r) = none ∧ sysStep T E σ (.submit r) = none) := by
  intro hnone
  obtain ⟨hread, hsubmit⟩ := hnone
  have h0 := h r hl hd
  cases ht : σ.thread r with
  | readFlag => simp [sysStep, hlive, ht, hr, hl] at hread
  | submit quit =>
    simp only [sysStep, if_neg hlive, ht, Option.map_eq_none_iff] at hsubmit
    unfold netStep NetOf.step at hsubmit
    simp only [hrun, Option.isSome_none, if_pos (And.intro hr (And.intro hl h0))] at hsubmit
    cases hp : leafPulse (E r) quit (σ.net.leaf r) <;> simp [hp] at hsubmit
  | barrier b => rw [ht] at hd; cases hd

/-- After a `final_result` that releases the root too early some leaf thread can use
an aggregator that is destroyed. -/
theorem used_of_released_early {as : List SysAct}
    (hs : Transition.exec (sysStep T E) (sysInit T) as = some σ)
    (hf : sysStep T E σ (.deliver .final) = some σ') (hn : ¬ ReleasedLast T σ (.deliver .final)) :
    ∃ r < T.nprocs, T.isLeaf r = true ∧ ∃ τ, MainRun T E σ' τ ∧ τ.main r = .destroyed ∧
      ¬ (sysStep T E τ (.readFlag r) = none ∧ sysStep T E τ (.submit r) = none) := by
  have hbusy : Busy T σ := Transition.exec_invariant _ (fun _ _ _ h hs => Busy.step h hs) busy_init hs
  have hbusy' := hbusy.step hf
  simp only [ReleasedLast, Classical.not_forall, Bool.not_eq_true] at hn
  obtain ⟨e, he, hq, r, hr, hl, hdone⟩ := hn
  obtain ⟨hlive, hsys⟩ := sysStep_steps hf
  have hreleased : σ'.net.root.rootFinished = true ∧ σ'.net.halted = none ∧ σ'.thread = σ.thread := by
    cases hsys with
    | deliver _ net _ hnet =>
      obtain ⟨hrun, hsteps⟩ := netStep_steps hnet
      cases hsteps with
      | final _ x hx =>
        cases hx.symm.trans he
        refine ⟨?_, hrun, rfl⟩
        simp only [finalResult, Bool.or_eq_true, decide_eq_true_eq]
        exact Or.inr hq
  obtain ⟨hroot, hrun, hthread⟩ := hreleased
  have hlive' : ¬ Aborted T σ'.leafs := by
    unfold Sys.leafs
    rw [hthread]
    exact hlive
  obtain ⟨ρ, hρ, hall⟩ := all_enter (E := E) hlive' hroot T.nprocs (Nat.le_refl _)
  obtain ⟨τ, hτ, hd⟩ := main_destroys (E := E) (hρ.leafs ▸ hlive') hr hall
  have hmain := hρ.trans hτ
  have hbusyτ : Busy T τ := by
    unfold Busy
    rw [hmain.net, hmain.thread]
    exact hbusy'
  refine ⟨r, hr, hl, τ, hmain, hd, hbusyτ.uses (hmain.leafs ▸ hlive') (hmain.net ▸ hrun) hr hl ?_⟩
  rw [hmain.thread, hthread]
  exact hdone

end

def releasedLast : List SysAct :=
  [.main 1, .main 2, .main 0, .readFlag 1, .readFlag 2, .submit 1, .submit 2, .deliver (.terminal 1),
    .deliver (.terminal 2), .deliver (.multi 1), .deliver (.multi 2), .deliver (.own 0), .deliver .final,
    .main 0, .main 1, .main 2, .main 2, .main 2, .main 2]

theorem destroyed_unused_releasedLast :
    ∃ σ, Transition.exec (sysStep twoLeaves loads) (sysInit twoLeaves) releasedLast = some σ ∧
      σ.main 2 = .destroyed ∧
        sysStep twoLeaves loads σ (.readFlag 2) = none ∧ sysStep twoLeaves loads σ (.submit 2) = none :=
  ⟨_, rfl, rfl, @destroyed_unused twoLeaves loads _ 2 releasedLast (by decide) rfl (by decide) (by decide) rfl⟩

/-- Leaf 2 sleeps after pulse 0 when the last event of leaf 1 releases the root. -/
def releasedEarly : List SysAct :=
  [.readFlag 2, .submit 2, .main 1, .main 2, .main 0, .readFlag 1, .submit 1, .deliver (.terminal 1),
    .deliver (.terminal 2), .deliver (.multi 1), .deliver (.multi 2), .deliver (.own 0), .deliver .final,
    .main 0, .main 1, .main 2, .main 2, .main 2, .main 2]

theorem releasedEarly_used :
    ¬ ∀ (T : Topology) (E : Nat → Nat → When → Sampling) (as : List SysAct) (σ : Sys) (r : Nat), 2 ≤ T.nprocs →
      Transition.exec (sysStep T E) (sysInit T) as = some σ → r < T.nprocs → T.isLeaf r = true →
        σ.main r = .destroyed → sysStep T E σ (.readFlag r) = none ∧ sysStep T E σ (.submit r) = none := by
  intro h
  have := (h twoLeaves loads releasedEarly _ 2 (by decide) rfl (by decide) (by decide) rfl).1
  cases this

end Clarisse
