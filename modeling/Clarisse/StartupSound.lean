import Clarisse.Wiring
import Mathlib.Algebra.Order.BigOperators.Group.Finset
import Mathlib.Data.Finset.Max

/-!
# What the start establishes

Whatever the order of the ranks' steps, no rank exits, the start ends after a
bounded number of steps, and before any leaf sends an event the stones of all
ranks are connected along the tree.
-/

namespace Clarisse.Startup

open EvPath CString

/-! ## What a step can do -/

section
variable {T : Topology} (R : Registry T) (mem : Memory)

inductive Steps (s : State) : Act → State → Prop where
  | boot (a : BootStep) (b : Boot) (hb : bootStep T R.splitStone R.text s.boot a = some b) :
      Steps s (.boot a) (s.afterBoot R a b)
  | firstBarrier (r : Nat) (hr : r < T.nprocs) (hp : s.phase r = .booting) (hb : s.Booted T) :
      Steps s (.firstBarrier r) (s.setPhase r .setting)
  | exit (r : Nat) (hr : r < T.nprocs) (hp : s.phase r = .setting)
      (hs : setStonesActions R r (s.boot.parentAddr r) (mem.stringList r) (s.node r) = none) :
      Steps s (.setStones r) { s with exited := true }
  | setStones (r : Nat) (st : NodeState) (hr : r < T.nprocs) (hp : s.phase r = .setting)
      (hs : setStonesActions R r (s.boot.parentAddr r) (mem.stringList r) (s.node r) = some st) :
      Steps s (.setStones r) ((s.setNode r st).setPhase r .waiting)
  | secondBarrier (r : Nat) (hr : r < T.nprocs) (hp : s.phase r = .waiting) (hw : s.Reached T .waiting) :
      Steps s (.secondBarrier r) (s.setPhase r .splitting)
  | commSplit (r : Nat) (hr : r < T.nprocs) (hp : s.phase r = .splitting) (hw : s.Reached T .splitting) :
      Steps s (.commSplit r) { s.setPhase r .started with
        commLeafs := Function.update s.commLeafs r
          ((List.range T.nprocs).filter fun q => T.isLeaf q = T.isLeaf r) }

end

section
variable {T : Topology} {R : Registry T} {mem : Memory} {s s' : State} {a : Act}

theorem step_steps (h : step R mem s a = some s') : Steps R mem s a s' := by
  unfold step at h
  split at h
  · cases h
  cases a with
  | boot a =>
    simp only [Option.map_eq_some_iff] at h
    obtain ⟨b, hb, rfl⟩ := h
    exact .boot a b hb
  | firstBarrier r =>
    simp only at h
    split at h
    · rename_i hg
      cases h
      exact .firstBarrier r hg.1 hg.2.1 hg.2.2
    · cases h
  | setStones r =>
    simp only at h
    split at h
    · rename_i hg
      split at h
      · rename_i st hs
        cases h
        exact .setStones r st hg.1 hg.2 hs
      · rename_i hs
        cases h
        exact .exit r hg.1 hg.2 hs
    · cases h
  | secondBarrier r =>
    simp only at h
    split at h
    · rename_i hg
      cases h
      exact .secondBarrier r hg.1 hg.2.1 hg.2.2
    · cases h
  | commSplit r =>
    simp only at h
    split at h
    · rename_i hg
      cases h
      exact .commSplit r hg.1 hg.2.1 hg.2.2
    · cases h

/-! ## The invariant -/

variable (R) in
structure Inv (s : State) : Prop where
  alive : s.exited = false
  boot : BootInv T R.splitStone R.text s.boot
  booted : ∀ r, r < T.nprocs → s.phase r ≠ .booting → s.Booted T
  allocated : ∀ r, r < T.nprocs → T.isLeaf r = false → s.boot.pc r ≠ .recv ∧ s.boot.pc r ≠ .compute →
    (s.phase r).index ≤ 1 → Allocated R r (s.node r)
  wired : ∀ r, r < T.nprocs → 2 ≤ (s.phase r).index → Wired R r (s.node r)
  waited : ∀ r, r < T.nprocs → 3 ≤ (s.phase r).index → s.Reached T .waiting
  split : ∀ r, r < T.nprocs → 4 ≤ (s.phase r).index → s.Reached T .splitting
  group : ∀ r, r < T.nprocs → s.phase r = .started →
    s.commLeafs r = (List.range T.nprocs).filter fun q => T.isLeaf q = T.isLeaf r

theorem inv_init : Inv R (init mem T) where
  alive := rfl
  boot := bootInv_init
  booted r _ h := absurd rfl h
  allocated r _ hl h _ := by
    by_cases hr : r = 0
    · simp [init, bootInit, hr, afterRecv, T.root_not_leaf] at h
    · simp [init, bootInit, hr] at h
  wired r _ h := by simp [init, Phase.index] at h
  waited r _ h := by simp [init, Phase.index] at h
  split r _ h := by simp [init, Phase.index] at h
  group r _ h := by cases h

end

/-! ## The steps before the first barrier -/

section
variable {T : Topology} {stone : Nat → Int} {contact : Nat → String} {b b' : Boot} {a : BootStep} {r : Nat}

inductive Moves (T : Topology) (b b' : Boot) : BootStep → Prop where
  | compute (r : Nat) (hr : r < T.nprocs) (hp : b.pc r = .compute)
      (h : b'.pc = Function.update b.pc r (sendPc T r 1)) : Moves T b b' (.compute r)
  | sendBuffered (r i : Nat) (hr : r < T.nprocs) (hp : b.pc r = .send i)
      (h : b'.pc = Function.update b.pc r (sendPc T r (i + 1))) : Moves T b b' (.sendBuffered r)
  | recvBuffered (r : Nat) (hr : r < T.nprocs) (hp : b.pc r = .recv)
      (h : b'.pc = Function.update b.pc r (afterRecv T r)) : Moves T b b' (.recvBuffered r)
  | rendezvous (r i c : Nat) (hr : r < T.nprocs) (hp : b.pc r = .send i) (hc : c < T.nprocs) (hq : b.pc c = .recv)
      (h : b'.pc = Function.update (Function.update b.pc r (sendPc T r (i + 1))) c (afterRecv T c)) :
      Moves T b b' (.rendezvous r)

theorem bootStep_moves (h : bootStep T stone contact b a = some b') : Moves T b b' a := by
  cases a with
  | compute r =>
    simp only [bootStep] at h
    split at h
    · rename_i hr
      cases h
      exact .compute r hr.1 hr.2 rfl
    · cases h
  | sendBuffered r =>
    simp only [bootStep] at h
    split at h
    · rename_i i addr hp ho
      split at h
      · rename_i hr
        cases h
        exact .sendBuffered r i hr hp rfl
      · cases h
    · cases h
  | recvBuffered r =>
    simp only [bootStep] at h
    split at h
    · rename_i addr rest hp hc
      split at h
      · rename_i hr
        cases h
        exact .recvBuffered r hr hp rfl
      · cases h
    · cases h
  | rendezvous r =>
    simp only [bootStep] at h
    split at h
    · rename_i i addr hp ho
      split at h
      · rename_i hg
        cases h
        exact .rendezvous r i _ hg.1 hp hg.2.1 hg.2.2.1 rfl
      · cases h
    · cases h

theorem Moves.not_booted (h : Moves T b b' a) : ∃ q, q < T.nprocs ∧ b.pc q ≠ .barrier := by
  cases h with
  | compute r hr hp => exact ⟨r, hr, by simp [hp]⟩
  | sendBuffered r i hr hp => exact ⟨r, hr, by simp [hp]⟩
  | recvBuffered r hr hp => exact ⟨r, hr, by simp [hp]⟩
  | rendezvous r i c hr hp => exact ⟨r, hr, by simp [hp]⟩

theorem update_afterRecv {pc : Nat → BootPc} {c : Nat} (hl : T.isLeaf r = false)
    (h : Function.update pc c (afterRecv T c) r ≠ .compute) : Function.update pc c (afterRecv T c) r = pc r := by
  by_cases hrc : r = c
  · subst hrc
    simp [afterRecv, hl] at h
  · rw [Function.update_of_ne hrc]

theorem update_send {pc : Nat → BootPc} {q i : Nat} {p : BootPc} (hq : pc q = .send i)
    (h : Function.update pc q p r ≠ .recv ∧ Function.update pc q p r ≠ .compute) :
    pc r ≠ .recv ∧ pc r ≠ .compute := by
  by_cases hrq : r = q
  · subst hrq
    simp [hq]
  · rwa [Function.update_of_ne hrq] at h

theorem Moves.computed (h : Moves T b b' a) (hl : T.isLeaf r = false) (hpc : b'.pc r ≠ .recv ∧ b'.pc r ≠ .compute) :
    a = .compute r ∨ (b.pc r ≠ .recv ∧ b.pc r ≠ .compute) := by
  cases h with
  | compute q hq hp h =>
    by_cases hrq : r = q
    · exact Or.inl (by rw [hrq])
    · rw [h, Function.update_of_ne hrq] at hpc
      exact Or.inr hpc
  | sendBuffered q i hq hp h =>
    rw [h] at hpc
    exact Or.inr (update_send hp hpc)
  | recvBuffered q hq hp h =>
    rw [h] at hpc
    rw [update_afterRecv hl hpc.2] at hpc
    exact Or.inr hpc
  | rendezvous q i c hq hp hc hpcc h =>
    rw [h] at hpc
    rw [update_afterRecv hl hpc.2] at hpc
    exact Or.inr (update_send hp hpc)

/-- How far a rank has come; a later place has a higher number. -/
def stage (T : Topology) (rank : Nat) : BootPc → Nat
  | .recv => 0
  | .compute => 1
  | .send i => i + 1
  | .barrier => T.getDegreeNode rank + 2

theorem stage_sendPc {i : Nat} (hi : i ≤ T.getDegreeNode r) : stage T r (sendPc T r (i + 1)) = i + 2 := by
  unfold sendPc
  split
  · rfl
  · simp only [stage]
    omega

theorem stage_afterRecv : 0 < stage T r (afterRecv T r) := by
  unfold afterRecv
  split <;> simp [stage]

theorem stage_update {pc : Nat → BootPc} {p : BootPc} (h : stage T r (pc r) < stage T r p) (q : Nat) :
    stage T q (pc q) ≤ stage T q (Function.update pc r p q) := by
  by_cases hq : q = r
  · subst hq
    rw [Function.update_self]
    exact Nat.le_of_lt h
  · rw [Function.update_of_ne hq]

theorem Moves.raises (h : Moves T b b' a) (hi : BootInv T stone contact b) :
    (∀ q, stage T q (b.pc q) ≤ stage T q (b'.pc q)) ∧
      ∃ r, r < T.nprocs ∧ stage T r (b.pc r) < stage T r (b'.pc r) := by
  cases h with
  | compute r hr hp h =>
    have hlt : stage T r (b.pc r) < stage T r (sendPc T r 1) := by
      rw [hp, stage_sendPc (Nat.zero_le _)]
      simp [stage]
    rw [h]
    exact ⟨stage_update hlt, r, hr, by rwa [Function.update_self]⟩
  | sendBuffered r i hr hp h =>
    have hlt : stage T r (b.pc r) < stage T r (sendPc T r (i + 1)) := by
      rw [hp, stage_sendPc (hi.sending r i hp).2]
      simp [stage]
    rw [h]
    exact ⟨stage_update hlt, r, hr, by rwa [Function.update_self]⟩
  | recvBuffered r hr hp h =>
    have hlt : stage T r (b.pc r) < stage T r (afterRecv T r) := by
      rw [hp]
      exact stage_afterRecv
    rw [h]
    exact ⟨stage_update hlt, r, hr, by rwa [Function.update_self]⟩
  | rendezvous r i c hr hp hc hq h =>
    have hlt : stage T r (b.pc r) < stage T r (sendPc T r (i + 1)) := by
      rw [hp, stage_sendPc (hi.sending r i hp).2]
      simp [stage]
    have hne : c ≠ r := fun he => by
      subst he
      rw [hp] at hq
      cases hq
    have hlt' : stage T c (Function.update b.pc r (sendPc T r (i + 1)) c) < stage T c (afterRecv T c) := by
      rw [Function.update_of_ne hne, hq]
      exact stage_afterRecv
    rw [h]
    refine ⟨fun q => Nat.le_trans (stage_update hlt q) (stage_update hlt' q), r, hr, ?_⟩
    rwa [Function.update_of_ne hne.symm, Function.update_self]

theorem stage_le (hi : BootInv T stone contact b) (r : Nat) : stage T r (b.pc r) ≤ T.getDegreeNode r + 2 := by
  cases hp : b.pc r with
  | recv => simp [stage]
  | compute => simp [stage]
  | send i =>
    have := (hi.sending r i hp).2
    simp only [stage]
    omega
  | barrier => simp [stage]

end

/-! ## One step -/

section
variable {T : Topology} {R : Registry T} {mem : Memory} {s s' : State} {a : Act}

theorem Inv.allBooting (h : Inv R s) (hb : ¬ s.Booted T) {r : Nat} (hr : r < T.nprocs) : s.phase r = .booting := by
  by_cases hp : s.phase r = .booting
  · exact hp
  · exact absurd (h.booted r hr hp) hb

theorem Inv.afterBoot (h : Inv R s) {a : BootStep} {b : Boot}
    (hb : bootStep T R.splitStone R.text s.boot a = some b) : Inv R (s.afterBoot R a b) := by
  have hm := bootStep_moves hb
  have hnot : ¬ s.Booted T := by
    obtain ⟨q, hq, hp⟩ := hm.not_booted
    exact fun hx => hp (hx q hq)
  have hbooting : ∀ {r}, r < T.nprocs → s.phase r = .booting := fun hr => h.allBooting hnot hr
  constructor
  · exact h.alive
  · exact h.boot.step hb
  · exact fun r hr hp => absurd (hbooting hr) hp
  · intro r hr hl hpc hi
    by_cases hc : a = .compute r
    · subst hc
      simp only [State.afterBoot, Function.update_self]
      exact allocStones_allocated R r _
    · have hnode : (s.afterBoot R a b).node r = s.node r := by
        cases a with
        | compute q =>
          have hrq : r ≠ q := fun he => hc (by rw [he])
          simp [State.afterBoot, hrq]
        | sendBuffered q => rfl
        | recvBuffered q => rfl
        | rendezvous q => rfl
      rw [hnode]
      exact h.allocated r hr hl ((hm.computed hl hpc).resolve_left hc) hi
  · intro r hr hp
    simp [State.afterBoot, hbooting hr, Phase.index] at hp
  · intro r hr hp
    simp [State.afterBoot, hbooting hr, Phase.index] at hp
  · intro r hr hp
    simp [State.afterBoot, hbooting hr, Phase.index] at hp
  · intro r hr hp
    simp [State.afterBoot, hbooting hr] at hp

def State.goTo (s : State) (rank : Nat) (p : Phase) (st : NodeState) (group : List Nat) : State :=
  { s with
    phase := Function.update s.phase rank p
    node := Function.update s.node rank st
    commLeafs := Function.update s.commLeafs rank group }

theorem setPhase_eq {r : Nat} {p : Phase} : s.setPhase r p = s.goTo r p (s.node r) (s.commLeafs r) := by
  simp [State.setPhase, State.goTo]

theorem setNode_setPhase_eq {r : Nat} {p : Phase} {st : NodeState} :
    (s.setNode r st).setPhase r p = s.goTo r p st (s.commLeafs r) := by
  simp [State.setPhase, State.setNode, State.goTo]

theorem commLeafs_eq {r : Nat} {p : Phase} {g : List Nat} :
    { s.setPhase r p with commLeafs := Function.update s.commLeafs r g } = s.goTo r p (s.node r) g := by
  simp [State.setPhase, State.goTo]

theorem reached_goTo {r : Nat} {p q : Phase} {st : NodeState} {g : List Nat} (h : s.Reached T q)
    (hp : (s.phase r).index ≤ p.index) : (s.goTo r p st g).Reached T q := by
  intro c hc
  have := h c hc
  by_cases hcr : c = r
  · subst hcr
    simp only [State.goTo, Function.update_self]
    omega
  · simpa [State.goTo, hcr] using this

theorem Inv.goTo (h : Inv R s) {r : Nat} {p : Phase} {st : NodeState} {g : List Nat}
    (hp : (s.phase r).index ≤ p.index) (hb : s.Booted T) (hkeep : p.index ≤ 1 → st = s.node r)
    (hwired : 2 ≤ p.index → Wired R r st) (hwaited : 3 ≤ p.index → s.Reached T .waiting)
    (hsplit : 4 ≤ p.index → s.Reached T .splitting)
    (hgroup : p = .started → g = (List.range T.nprocs).filter fun q => T.isLeaf q = T.isLeaf r) :
    Inv R (s.goTo r p st g) := by
  constructor
  · exact h.alive
  · exact h.boot
  · exact fun _ _ _ => hb
  · intro q hq hl hpc hi
    by_cases hqr : q = r
    · subst hqr
      simp only [State.goTo, Function.update_self] at hi ⊢
      rw [hkeep hi]
      exact h.allocated q hq hl hpc (by omega)
    · simp only [State.goTo, Function.update_of_ne hqr] at hi ⊢
      exact h.allocated q hq hl hpc hi
  · intro q hq hi
    by_cases hqr : q = r
    · subst hqr
      simp only [State.goTo, Function.update_self] at hi ⊢
      exact hwired hi
    · simp only [State.goTo, Function.update_of_ne hqr] at hi ⊢
      exact h.wired q hq hi
  · intro q hq hi
    by_cases hqr : q = r
    · subst hqr
      simp only [State.goTo, Function.update_self] at hi
      exact reached_goTo (hwaited hi) hp
    · simp only [State.goTo, Function.update_of_ne hqr] at hi
      exact reached_goTo (h.waited q hq hi) hp
  · intro q hq hi
    by_cases hqr : q = r
    · subst hqr
      simp only [State.goTo, Function.update_self] at hi
      exact reached_goTo (hsplit hi) hp
    · simp only [State.goTo, Function.update_of_ne hqr] at hi
      exact reached_goTo (h.split q hq hi) hp
  · intro q hq hi
    by_cases hqr : q = r
    · subst hqr
      simp only [State.goTo, Function.update_self] at hi ⊢
      exact hgroup hi
    · simp only [State.goTo, Function.update_of_ne hqr] at hi ⊢
      exact h.group q hq hi

theorem Inv.setStones (h : Inv R s) {r : Nat} (hr : r < T.nprocs) (hp : s.phase r = .setting)
    (stringList : Address) :
    ∃ st, setStonesActions R r (s.boot.parentAddr r) stringList (s.node r) = some st ∧ Wired R r st := by
  have hb := h.booted r hr (by simp [hp])
  have ha : T.isLeaf r = false → Allocated R r (s.node r) := fun hl =>
    h.allocated r hr hl (by simp [hb r hr]) (by simp [hp, Phase.index])
  by_cases h0 : r = 0
  · subst h0
    exact setStonesActions_root stringList _ (ha T.root_not_leaf)
  · have hpos := Nat.pos_of_ne_zero h0
    have hpar : T.parent r < T.nprocs := Nat.lt_trans (T.parent_lt hpos) hr
    rw [h.boot.addr r hpos hr (by simp [hb r hr]), computeEvpathAddr_eq]
    cases hl : T.isLeaf r with
    | true => exact setStonesActions_leaf hpar h0 hl stringList rfl
    | false => exact setStonesActions_inner hpar h0 hl stringList rfl (ha hl)

theorem Inv.step (h : Inv R s) (hs : step R mem s a = some s') : Inv R s' := by
  cases step_steps hs with
  | boot a b hb => exact h.afterBoot hb
  | firstBarrier r hr hp hb =>
    rw [setPhase_eq]
    refine h.goTo (by simp [hp, Phase.index]) hb (fun _ => rfl) ?_ ?_ ?_ ?_ <;> simp [Phase.index]
  | exit r hr hp hset =>
    obtain ⟨st, hst, -⟩ := h.setStones hr hp (mem.stringList r)
    rw [hset] at hst
    cases hst
  | setStones r st hr hp hset =>
    obtain ⟨st', hst, hw⟩ := h.setStones hr hp (mem.stringList r)
    rw [hset] at hst
    cases hst
    rw [setNode_setPhase_eq]
    refine h.goTo (by simp [hp, Phase.index]) (h.booted r hr (by simp [hp])) ?_ (fun _ => hw) ?_ ?_ ?_ <;>
      simp [Phase.index]
  | secondBarrier r hr hp hw =>
    rw [setPhase_eq]
    refine h.goTo (by simp [hp, Phase.index]) (h.booted r hr (by simp [hp])) ?_ (fun _ => ?_) (fun _ => hw) ?_ ?_
    · simp [Phase.index]
    · exact h.wired r hr (by simp [hp, Phase.index])
    · simp [Phase.index]
    · simp
  | commSplit r hr hp hw =>
    rw [commLeafs_eq]
    refine h.goTo (by simp [hp, Phase.index]) (h.booted r hr (by simp [hp])) ?_ (fun _ => ?_) (fun _ => ?_)
      (fun _ => hw) (fun _ => rfl)
    · simp [Phase.index]
    · exact h.wired r hr (by simp [hp, Phase.index])
    · exact h.waited r hr (by simp [hp, Phase.index])

theorem inv_exec {as : List Act} (hs : Transition.exec (step R mem) (init mem T) as = some s) : Inv R s :=
  Transition.exec_invariant _ (fun _ _ _ h hs => h.step hs) inv_init hs

theorem exists_last {p : Phase} (h : ¬ s.Reached T p) :
    ∃ r, r < T.nprocs ∧ (s.phase r).index < p.index ∧ s.Reached T (s.phase r) := by
  obtain ⟨q, hq, hp⟩ : ∃ q, q < T.nprocs ∧ (s.phase q).index < p.index := by
    simpa [State.Reached] using h
  obtain ⟨r, hr, hmin⟩ := (Finset.range T.nprocs).exists_min_image (fun q => (s.phase q).index)
    ⟨q, Finset.mem_range.mpr hq⟩
  simp only [Finset.mem_range] at hr hmin
  exact ⟨r, hr, Nat.lt_of_le_of_lt (hmin q hq) hp, hmin⟩

theorem Inv.progress (h : Inv R s) (hn : ¬ s.Reached T .started) :
    ∃ a s', (∀ r, a ≠ .boot (.sendBuffered r)) ∧ Startup.step R mem s a = some s' := by
  by_cases hb : s.Booted T
  · obtain ⟨r, hr, hlt, hlast⟩ := exists_last hn
    have halive := h.alive
    cases hp : s.phase r with
    | booting => exact ⟨.firstBarrier r, _, (fun q h => by cases h), by simp [Startup.step, halive, hr, hp, hb]; rfl⟩
    | setting =>
      obtain ⟨st, hst, -⟩ := h.setStones hr hp (mem.stringList r)
      exact ⟨.setStones r, _, (fun q h => by cases h), by simp [Startup.step, halive, hr, hp, hst]; rfl⟩
    | waiting =>
      rw [hp] at hlast
      exact ⟨.secondBarrier r, _, (fun q h => by cases h), by simp [Startup.step, halive, hr, hp, hlast]; rfl⟩
    | splitting =>
      rw [hp] at hlast
      exact ⟨.commSplit r, _, (fun q h => by cases h), by simp [Startup.step, halive, hr, hp, hlast]; rfl⟩
    | started => simp [hp, Phase.index] at hlt
  · have hne : ∃ q, q < T.nprocs ∧ s.boot.pc q ≠ .barrier := by simpa [State.Booted] using hb
    obtain ⟨a, b, hbuf, hstep⟩ := h.boot.progress hne
    refine ⟨.boot a, s.afterBoot R a b, (fun r hr => hbuf r (by cases hr; rfl)), ?_⟩
    simp [Startup.step, h.alive, hstep]

/-! ## How long it takes -/

def State.level (T : Topology) (s : State) (r : Nat) : Nat := stage T r (s.boot.pc r) + (s.phase r).index

def State.potential (T : Topology) (s : State) : Nat := (Finset.range T.nprocs).sum (s.level T)

theorem potential_lt (h : ∀ q, s.level T q ≤ s'.level T q) {r : Nat} (hr : r < T.nprocs)
    (hlt : s.level T r < s'.level T r) : s.potential T < s'.potential T :=
  Finset.sum_lt_sum (fun q _ => h q) ⟨r, Finset.mem_range.mpr hr, hlt⟩

theorem potential_goTo {r : Nat} {p : Phase} {st : NodeState} {g : List Nat} (hr : r < T.nprocs)
    (hp : (s.phase r).index < p.index) : s.potential T < (s.goTo r p st g).potential T := by
  refine potential_lt (fun q => ?_) hr ?_
  · by_cases hq : q = r
    · subst hq
      simp only [State.level, State.goTo, Function.update_self]
      omega
    · simp [State.level, State.goTo, hq]
  · simp only [State.level, State.goTo, Function.update_self]
    omega

theorem Inv.potential_step (h : Inv R s) (hs : Startup.step R mem s a = some s') :
    s.potential T < s'.potential T := by
  cases step_steps hs with
  | boot a b hb =>
    obtain ⟨hle, r, hr, hlt⟩ := (bootStep_moves hb).raises h.boot
    exact potential_lt (fun q => Nat.add_le_add_right (hle q) _) hr (Nat.add_lt_add_right hlt _)
  | firstBarrier r hr hp hb =>
    rw [setPhase_eq]
    exact potential_goTo hr (by simp [hp, Phase.index])
  | exit r hr hp hset =>
    obtain ⟨st, hst, -⟩ := h.setStones hr hp (mem.stringList r)
    rw [hset] at hst
    cases hst
  | setStones r st hr hp hset =>
    rw [setNode_setPhase_eq]
    exact potential_goTo hr (by simp [hp, Phase.index])
  | secondBarrier r hr hp hw =>
    rw [setPhase_eq]
    exact potential_goTo hr (by simp [hp, Phase.index])
  | commSplit r hr hp hw =>
    rw [commLeafs_eq]
    exact potential_goTo hr (by simp [hp, Phase.index])

theorem sum_degree (T : Topology) : (Finset.range T.nprocs).sum T.getDegreeNode = T.nprocs - 1 := by
  have hmaps : Set.MapsTo T.parent (Finset.Ico 1 T.nprocs) (Finset.range T.nprocs) := by
    intro c hc
    rw [Finset.mem_coe, Finset.mem_Ico] at hc
    rw [Finset.mem_coe, Finset.mem_range]
    exact Nat.lt_trans (T.parent_lt hc.1) hc.2
  rw [← Nat.card_Ico, Finset.card_eq_sum_card_fiberwise hmaps]
  refine Finset.sum_congr rfl fun r _ => ?_
  rw [← T.card_children r]
  congr 1
  ext c
  rw [T.mem_children, Finset.mem_filter, Finset.mem_Ico, and_assoc]
  rfl

theorem Inv.potential_le (h : Inv R s) : s.potential T ≤ 7 * T.nprocs := by
  have hle : ∀ r ∈ Finset.range T.nprocs, s.level T r ≤ T.getDegreeNode r + 6 := by
    intro r _
    have h1 := stage_le h.boot r
    have h2 : (s.phase r).index ≤ 4 := by cases s.phase r <;> simp [Phase.index]
    simp only [State.level]
    omega
  have hn := T.nprocs_pos
  calc s.potential T ≤ (Finset.range T.nprocs).sum fun r => T.getDegreeNode r + 6 := Finset.sum_le_sum hle
    _ = (T.nprocs - 1) + T.nprocs * 6 := by
      rw [Finset.sum_add_distrib, sum_degree, Finset.sum_const_nat fun _ _ => rfl, Finset.card_range]
    _ ≤ 7 * T.nprocs := by omega

/-! ## Every run -/

/-- A start ends: a run is never longer than seven steps for each rank, no rank exits,
and while some rank has not started some rank can go on, also when no send is buffered. -/
theorem startup_completes {as : List Act} (hs : Transition.exec (step R mem) (init mem T) as = some s) :
    as.length ≤ 7 * T.nprocs ∧ s.exited = false ∧
      ((∃ r, r < T.nprocs ∧ s.phase r ≠ .started) →
        ∃ a s', (∀ r, a ≠ .boot (.sendBuffered r)) ∧ step R mem s a = some s') := by
  have h := inv_exec hs
  have hlen := Transition.exec_length_le (step R mem) (I := Inv R)
    (fun _ _ _ h hs => h.step hs) (fun _ _ _ h hs => h.potential_step hs) inv_init hs
  refine ⟨Nat.le_trans (Nat.le_trans (Nat.le_add_right _ _) hlen) h.potential_le, h.alive, ?_⟩
  rintro ⟨r, hr, hp⟩
  refine h.progress fun hall => hp ?_
  have := hall r hr
  cases hq : s.phase r with
  | started => rfl
  | booting => simp [hq, Phase.index] at this
  | setting => simp [hq, Phase.index] at this
  | waiting => simp [hq, Phase.index] at this
  | splitting => simp [hq, Phase.index] at this

/-! ## Where the events go -/

theorem Registry.resolve_text {r : Nat} (hr : r < T.nprocs) : R.resolve (R.text r) = some r := by
  rw [Registry.resolve, List.find?_range_eq_some]
  refine ⟨by simp, List.mem_range.mpr hr, fun q hq => ?_⟩
  have : R.text q ≠ R.text r := fun he => by
    have := R.contact_inj q r (Nat.lt_trans hq hr) hr he
    omega
  simpa using this

theorem deliver_bridge {c fuel : Nat} (h0 : 0 < c) (hc : c < T.nprocs)
    (hw : ∀ q, q < T.nprocs → Wired R q (s.node q)) :
    s.deliver R (fuel + 3) c (s.node c).bridgeStone =
      [.handler (T.parent c) .computeOwnMetrics, .queue (T.parent c) (s.node (T.parent c)).multiStone] := by
  have hp : T.parent c < T.nprocs := Nat.lt_trans (T.parent_lt h0) hc
  have hl := T.parent_not_leaf h0 hc
  have hpar := hw _ hp
  have hbridge : (s.manager c).action (s.node c).bridgeStone =
      some (.bridge (R.text (T.parent c)) (R.stone (T.parent c) 1)) :=
    (hw c hc).bridge (Nat.pos_iff_ne_zero.mp h0)
  have hsplit : (s.manager (T.parent c)).action (R.stone (T.parent c) 1) =
      some (.split [(s.node (T.parent c)).terminalStone, (s.node (T.parent c)).multiStone]) := by
    rw [← hpar.splitStone hl]
    exact hpar.split hl
  have hterm : (s.manager (T.parent c)).action (s.node (T.parent c)).terminalStone =
      some (.terminal .computeOwnMetrics) := hpar.terminal hl
  have hmulti : (s.manager (T.parent c)).action (s.node (T.parent c)).multiStone = some .multi := hpar.multi hl
  rw [State.deliver, EvPath.deliver_bridge hbridge (R.resolve_text hp), EvPath.deliver_split hsplit,
    List.flatMap_cons, List.flatMap_cons, EvPath.deliver_terminal hterm, EvPath.deliver_multi hmulti]
  rfl

theorem upward_eq {r : Nat} (hr : r < T.nprocs) (hw : ∀ q, q < T.nprocs → Wired R q (s.node q)) :
    s.upward T r = some (if r = 0 then (s.node r).agregTerminalStone else (s.node r).bridgeStone) := by
  cases hl : T.isLeaf r with
  | false =>
    simp only [State.upward, hl]
    exact (hw r hr).output hl
  | true =>
    have h0 : r ≠ 0 := fun h => by
      rw [h, T.root_not_leaf] at hl
      cases hl
    simp [State.upward, hl, h0]

/-- Before any leaf sends an event, the events of each rank go to the terminal and to the
queue of its parent, those of the root to `final_result`, and what a rank submits to
its own queue stays there. -/
theorem startup_connects {as : List Act} (hs : Transition.exec (step R mem) (init mem T) as = some s)
    (hl : ∃ l, l < T.nprocs ∧ T.isLeaf l = true ∧ s.phase l = .started) (fuel : Nat) :
    (∀ c, 0 < c → c < T.nprocs → ∃ stone, s.upward T c = some stone ∧
      s.deliver R (fuel + 3) c stone =
        [.handler (T.parent c) .computeOwnMetrics, .queue (T.parent c) (s.node (T.parent c)).multiStone]) ∧
    (∃ stone, s.upward T 0 = some stone ∧ s.deliver R (fuel + 3) 0 stone = [.handler 0 .finalResult]) ∧
    (∀ r, r < T.nprocs → T.isLeaf r = false →
      s.deliver R (fuel + 3) r (s.node r).multiStone = [.queue r (s.node r).multiStone]) ∧
    (∀ r, r < T.nprocs → s.phase r = .started → T.isLeaf r = true →
      ∀ q, q ∈ s.commLeafs r ↔ q < T.nprocs ∧ T.isLeaf q = true) ∧
    ∀ r, r < T.nprocs → (s.manager r).allocated.Nodup ∧
      (destroyStones T r (s.node r)).Perm (s.manager r).allocated := by
  have h := inv_exec hs
  obtain ⟨l, hln, hleaf, hstarted⟩ := hl
  have hreached := h.waited l hln (by simp [hstarted, Phase.index])
  have hw : ∀ q, q < T.nprocs → Wired R q (s.node q) := fun q hq => h.wired q hq (hreached q hq)
  refine ⟨?_, ?_, ?_, ?_, fun r hr => (hw r hr).allocated⟩
  · intro c h0 hc
    rw [upward_eq hc hw, if_neg (Nat.pos_iff_ne_zero.mp h0)]
    exact ⟨_, rfl, deliver_bridge h0 hc hw⟩
  · rw [upward_eq T.nprocs_pos hw, if_pos rfl]
    have hfinal : (s.manager 0).action (s.node 0).agregTerminalStone = some (.terminal .finalResult) :=
      (hw 0 T.nprocs_pos).final rfl
    exact ⟨_, rfl, EvPath.deliver_terminal hfinal⟩
  · intro r hr hl
    have hmulti : (s.manager r).action (s.node r).multiStone = some .multi := (hw r hr).multi hl
    exact EvPath.deliver_multi hmulti
  · intro r hr hp hl q
    rw [h.group r hr hp, List.mem_filter, List.mem_range, hl]
    simp

end

def smallRegistry : Registry twoLeaves where
  stone _ i := BitVec.ofNat 32 i
  contact r :=
    if r = 0 then ⟨"root", by decide, by decide⟩
    else if r = 1 then ⟨"left", by decide, by decide⟩
    else ⟨"right", by decide, by decide⟩
  stone_inj r i j hi hj h := by
    have := congrArg BitVec.toNat h
    simp only [BitVec.toNat_ofNat] at this
    omega
  contact_inj r q hr hq h := by
    have hr' : r = 0 ∨ r = 1 ∨ r = 2 := by simp [twoLeaves] at hr; omega
    have hq' : q = 0 ∨ q = 1 ∨ q = 2 := by simp [twoLeaves] at hq; omega
    rcases hr' with rfl | rfl | rfl <;> rcases hq' with rfl | rfl | rfl <;> simp_all
  fits r hr := by
    have hr' : r = 0 ∨ r = 1 ∨ r = 2 := by simp [twoLeaves] at hr; omega
    rcases hr' with rfl | rfl | rfl <;> decide

def smallMemory : Memory where
  node _ := ⟨7, 7, 7, 7, 7, {}⟩
  stringList _ := Buffer.fill 'x' addressSize

def smallStart : List Act :=
  [.boot (.compute 0), .boot (.sendBuffered 0), .boot (.rendezvous 0), .boot (.recvBuffered 1),
    .firstBarrier 1, .setStones 1, .firstBarrier 0, .firstBarrier 2, .setStones 2, .setStones 0,
    .secondBarrier 2, .secondBarrier 0, .secondBarrier 1, .commSplit 2]

theorem startup_completes_small :
    ∃ s, Transition.exec (step smallRegistry smallMemory) (init smallMemory twoLeaves) smallStart = some s ∧
      (14 ≤ 7 * twoLeaves.nprocs ∧ s.exited = false ∧
        ((∃ r, r < twoLeaves.nprocs ∧ s.phase r ≠ .started) →
          ∃ a s', (∀ r, a ≠ .boot (.sendBuffered r)) ∧ step smallRegistry smallMemory s a = some s')) :=
  ⟨_, rfl, @startup_completes _ _ _ _ smallStart rfl⟩

theorem startup_connects_small :
    ∃ s, Transition.exec (step smallRegistry smallMemory) (init smallMemory twoLeaves) smallStart = some s ∧
      (∀ c, 0 < c → c < twoLeaves.nprocs → ∃ stone, s.upward twoLeaves c = some stone ∧
        s.deliver smallRegistry 3 c stone =
          [.handler (twoLeaves.parent c) .computeOwnMetrics,
            .queue (twoLeaves.parent c) (s.node (twoLeaves.parent c)).multiStone]) :=
  ⟨_, rfl, (@startup_connects _ _ _ _ smallStart rfl ⟨2, by decide, by decide, rfl⟩ 0).1⟩

end Clarisse.Startup
