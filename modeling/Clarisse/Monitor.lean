import Clarisse.Transition
import Mathlib.Data.Fintype.Basic

/-!
# Monitors

Threads share a state that is guarded by one mutex with one condition variable. A
section takes the mutex, waits on the condition until its guard holds, runs its
statements one at a time and gives the mutex back; a wait may also end for no reason.
-/

namespace Monitor

inductive Op (S : Type) where
  | write (f : S → S)
  | signal (cond : S → Bool)

/-- `while (!guard) wait; body`, between the lock and the unlock. -/
structure Section (S : Type) where
  guard : S → Bool
  body : List (Op S)

/-- Where a thread is; `lock` also stands for the end of a wait, which takes the mutex again. -/
inductive Pc (K S : Type) where
  | idle
  | lock (k : K)
  | test (k : K)
  | wait (k : K)
  | run (ops : List (Op S))

structure State (I K S : Type) where
  shared : S
  owner : Option I := none
  pc : I → Pc K S

inductive Act (I K : Type) where
  | call (t : I) (k : K)
  | lock (t : I)
  | test (t : I)
  | write (t : I)
  | signal (t : I) (woken : Option I)
  | unlock (t : I)
  | wake (t : I)

def Pc.waiting {K S : Type} : Pc K S → Option K
  | .wait k => some k
  | _ => none

def Pc.holds {K S : Type} : Pc K S → Bool
  | .test _ | .run _ => true
  | _ => false

def Pc.pending {K S : Type} : Pc K S → Option K
  | .lock k | .test k | .wait k => some k
  | .idle | .run _ => none

def Pc.ops {K S : Type} : Pc K S → List (Op S)
  | .run ops => ops
  | _ => []

section
variable {I K S : Type} [DecidableEq I]

def State.goTo (σ : State I K S) (t : I) (pc : Pc K S) : State I K S :=
  { σ with pc := Function.update σ.pc t pc }

variable [Fintype I] (sec : K → Section S)

/-- A signal wakes one of the threads that wait, if there are any. -/
def step (σ : State I K S) : Act I K → Option (State I K S)
  | .call t k =>
    match σ.pc t with
    | .idle => some (σ.goTo t (.lock k))
    | _ => none
  | .lock t =>
    match σ.pc t, σ.owner with
    | .lock k, none => some { σ.goTo t (.test k) with owner := some t }
    | _, _ => none
  | .test t =>
    match σ.pc t with
    | .test k =>
      if (sec k).guard σ.shared then some (σ.goTo t (.run (sec k).body))
      else some { σ.goTo t (.wait k) with owner := none }
    | _ => none
  | .write t =>
    match σ.pc t with
    | .run (.write f :: ops) => some { σ.goTo t (.run ops) with shared := f σ.shared }
    | _ => none
  | .signal t woken =>
    match σ.pc t with
    | .run (.signal cond :: ops) =>
      if cond σ.shared then
        match woken with
        | some u => (σ.pc u).waiting.map fun k => (σ.goTo u (.lock k)).goTo t (.run ops)
        | none => if ∀ u, (σ.pc u).waiting = none then some (σ.goTo t (.run ops)) else none
      else some (σ.goTo t (.run ops))
    | _ => none
  | .unlock t =>
    match σ.pc t with
    | .run [] => some { σ.goTo t .idle with owner := none }
    | _ => none
  | .wake t => (σ.pc t).waiting.map fun k => σ.goTo t (.lock k)

/-! ## Sections in one step -/

def runOps : List (Op S) → S → S
  | [], s => s
  | .write f :: ops, s => runOps ops (f s)
  | .signal _ :: ops, s => runOps ops s

def signals : List (Op S) → S → Bool
  | [], _ => false
  | .write f :: ops, s => signals ops (f s)
  | .signal cond :: ops, s => cond s || signals ops s

theorem runOps_append (ops ops' : List (Op S)) (s : S) : runOps (ops ++ ops') s = runOps ops' (runOps ops s) := by
  induction ops generalizing s with
  | nil => rfl
  | cons op ops ih => cases op <;> simp [runOps, ih]

theorem runOps_map_write {J : Type} (f : J → S → S) (l : List J) (s : S) :
    runOps (l.map fun j => .write (f j)) s = l.foldl (fun s j => f j s) s := by
  induction l generalizing s with
  | nil => rfl
  | cons j l ih => simp [runOps, ih]

theorem signals_append (ops ops' : List (Op S)) (s : S) :
    signals (ops ++ ops') s = (signals ops s || signals ops' (runOps ops s)) := by
  induction ops generalizing s with
  | nil => rfl
  | cons op ops ih => cases op <;> simp [signals, runOps, ih, Bool.or_assoc]

theorem signals_map_write {J : Type} (f : J → S → S) (l : List J) (s : S) :
    signals (l.map fun j => .write (f j)) s = false := by
  induction l generalizing s with
  | nil => rfl
  | cons j l ih => simp [signals, ih]

structure Atomic (I K S : Type) where
  shared : S
  called : I → Option K

inductive AtomicAct (I K : Type) where
  | call (t : I) (k : K)
  | run (t : I)

def atomicStep (α : Atomic I K S) : AtomicAct I K → Option (Atomic I K S)
  | .call t k =>
    if (α.called t).isNone then some { α with called := Function.update α.called t (some k) } else none
  | .run t =>
    match α.called t with
    | none => none
    | some k =>
      if (sec k).guard α.shared then
        some { shared := runOps (sec k).body α.shared, called := Function.update α.called t none }
      else none

def State.rest (σ : State I K S) : List (Op S) :=
  match σ.owner with
  | none => []
  | some t => (σ.pc t).ops

/-- A section that has started counts as done. -/
def State.abs (σ : State I K S) : Atomic I K S where
  shared := runOps σ.rest σ.shared
  called t := (σ.pc t).pending

def Exclusive (σ : State I K S) : Prop := ∀ t, (σ.pc t).holds = true ↔ σ.owner = some t

inductive Steps (σ : State I K S) : Act I K → State I K S → Prop where
  | call (t : I) (k : K) (h : σ.pc t = .idle) : Steps σ (.call t k) (σ.goTo t (.lock k))
  | lock (t : I) (k : K) (h : σ.pc t = .lock k) (ho : σ.owner = none) :
      Steps σ (.lock t) { σ.goTo t (.test k) with owner := some t }
  | pass (t : I) (k : K) (h : σ.pc t = .test k) (hg : (sec k).guard σ.shared = true) :
      Steps σ (.test t) (σ.goTo t (.run (sec k).body))
  | sleep (t : I) (k : K) (h : σ.pc t = .test k) (hg : (sec k).guard σ.shared = false) :
      Steps σ (.test t) { σ.goTo t (.wait k) with owner := none }
  | write (t : I) (f : S → S) (ops : List (Op S)) (h : σ.pc t = .run (.write f :: ops)) :
      Steps σ (.write t) { σ.goTo t (.run ops) with shared := f σ.shared }
  | rouse (t u : I) (cond : S → Bool) (ops : List (Op S)) (k : K) (h : σ.pc t = .run (.signal cond :: ops))
      (hu : σ.pc u = .wait k) : Steps σ (.signal t (some u)) ((σ.goTo u (.lock k)).goTo t (.run ops))
  | signal (t : I) (woken : Option I) (cond : S → Bool) (ops : List (Op S))
      (h : σ.pc t = .run (.signal cond :: ops)) (hc : cond σ.shared = true → ∀ u, (σ.pc u).waiting = none) :
      Steps σ (.signal t woken) (σ.goTo t (.run ops))
  | unlock (t : I) (h : σ.pc t = .run []) : Steps σ (.unlock t) { σ.goTo t .idle with owner := none }
  | wake (t : I) (k : K) (h : σ.pc t = .wait k) : Steps σ (.wake t) (σ.goTo t (.lock k))

end

section
variable {I K S : Type} {σ σ' : State I K S} {t : I}

theorem Exclusive.testing (h : Exclusive σ) {k : K} (hp : σ.pc t = .test k) : σ.owner = some t ∧ σ.rest = [] := by
  have hown : σ.owner = some t := (h t).mp (by simp [hp, Pc.holds])
  exact ⟨hown, by simp [State.rest, hown, hp, Pc.ops]⟩

theorem Exclusive.running (h : Exclusive σ) {ops : List (Op S)} (hp : σ.pc t = .run ops) :
    σ.owner = some t ∧ σ.rest = ops := by
  have hown : σ.owner = some t := (h t).mp (by simp [hp, Pc.holds])
  exact ⟨hown, by simp [State.rest, hown, hp, Pc.ops]⟩

theorem abs_eq (hs : runOps σ'.rest σ'.shared = runOps σ.rest σ.shared)
    (hc : ∀ v, (σ'.pc v).pending = (σ.pc v).pending) : σ'.abs = σ.abs := by
  simp [State.abs, hs, hc]

theorem abs_of_free (h : σ.owner = none) : σ.abs.shared = σ.shared := by
  simp [State.abs, State.rest, h, runOps]

end

/-! ## Who sleeps -/

section
variable {I K S : Type}

/-- Where a section of one thread makes the guard of another true, it gives a signal. -/
def Notifies (waiter b : Section S) : Prop :=
  ∀ s, waiter.guard s = false → waiter.guard (runOps b.body s) = true → signals b.body s = true

/-- Only `w` waits, `P` has the sections that each thread calls, and `w` sleeps as long as
its guard is false or a signal is still to come. -/
structure Sleeps (sec : K → Section S) (P : I → K → Prop) (w : I) (σ : State I K S) : Prop where
  exclusive : Exclusive σ
  called : ∀ t k, (σ.pc t).pending = some k → P t k
  others : ∀ t, t ≠ w → (σ.pc t).waiting = none
  asleep : ∀ k, σ.pc w = .wait k → (sec k).guard (runOps σ.rest σ.shared) = true →
    signals σ.rest σ.shared = true

theorem Sleeps.initial {sec : K → Section S} {P : I → K → Prop} {w : I} {σ : State I K S} (hp : ∀ t, σ.pc t = .idle)
    (ho : σ.owner = none) : Sleeps sec P w σ where
  exclusive t := by simp [hp, ho, Pc.holds]
  called t k h := by simp [hp, Pc.pending] at h
  others t _ := by simp [hp, Pc.waiting]
  asleep k h := by simp [hp] at h

theorem Sleeps.guard {sec : K → Section S} {P : I → K → Prop} {w : I} {σ : State I K S} {k : K}
    (h : Sleeps sec P w σ) (hw : σ.pc w = .wait k) (ho : σ.owner = none) : (sec k).guard σ.shared = false := by
  have hrest : σ.rest = [] := by simp [State.rest, ho]
  have := h.asleep k hw
  simpa [hrest, signals, runOps] using this

end

section
variable {I K S : Type} [DecidableEq I] {sec : K → Section S} {σ : State I K S} {t u : I} {pc : Pc K S}

@[simp] theorem goTo_shared : (σ.goTo t pc).shared = σ.shared := rfl

@[simp] theorem goTo_owner : (σ.goTo t pc).owner = σ.owner := rfl

@[simp] theorem goTo_self : (σ.goTo t pc).pc t = pc := by simp [State.goTo]

theorem goTo_of_ne (h : u ≠ t) : (σ.goTo t pc).pc u = σ.pc u := by simp [State.goTo, h]

theorem waiting_eq_some {k : K} : pc.waiting = some k ↔ pc = .wait k := by cases pc <;> simp [Pc.waiting]

theorem atomicStep_run {α β : Atomic I K S} (h : atomicStep sec α (.run t) = some β) :
    ∃ k, α.called t = some k ∧ (sec k).guard α.shared = true ∧
      β = ⟨runOps (sec k).body α.shared, Function.update α.called t none⟩ := by
  simp only [atomicStep] at h
  split at h
  · cases h
  · rename_i k hk
    split at h
    · rename_i hg
      cases h
      exact ⟨k, hk, hg, rfl⟩
    · cases h

theorem atomicStep_call {α β : Atomic I K S} {k : K} (h : atomicStep sec α (.call t k) = some β) :
    α.called t = none ∧ β = { α with called := Function.update α.called t (some k) } := by
  simp only [atomicStep] at h
  split at h
  · rename_i hn
    cases h
    exact ⟨by simpa using hn, rfl⟩
  · cases h

/-! ## The mutex -/

theorem Exclusive.goTo (h : Exclusive σ) (hpc : pc.holds = (σ.pc t).holds) : Exclusive (σ.goTo t pc) := by
  intro v
  by_cases hv : v = t
  · subst hv
    rw [goTo_self, hpc]
    exact h v
  · rw [goTo_of_ne hv]
    exact h v

theorem Exclusive.take (h : Exclusive σ) (ho : σ.owner = none) (hpc : pc.holds = true) :
    Exclusive { σ.goTo t pc with owner := some t } := by
  intro v
  by_cases hv : v = t
  · simp [hv, State.goTo, hpc]
  · have := h v
    simp only [ho, reduceCtorEq, iff_false] at this
    simp [State.goTo, Function.update_of_ne hv, this, Ne.symm hv]

theorem Exclusive.release (h : Exclusive σ) (ho : σ.owner = some t) (hpc : pc.holds = false) :
    Exclusive { σ.goTo t pc with owner := none } := by
  intro v
  by_cases hv : v = t
  · simp [hv, State.goTo, hpc]
  · have := h v
    rw [ho] at this
    simp [State.goTo, Function.update_of_ne hv, this, Ne.symm hv]

/-! ## What is left of a section -/

theorem rest_goTo (h : (σ.pc t).ops = []) (hpc : pc.ops = []) : (σ.goTo t pc).rest = σ.rest := by
  unfold State.rest
  cases ho : σ.owner with
  | none => simp [ho]
  | some v =>
    by_cases hv : v = t
    · subst hv
      simp [ho, h, hpc]
    · simp [ho, goTo_of_ne hv]

theorem rest_run {ops : List (Op S)} (ho : σ.owner = some t) : (σ.goTo t (.run ops)).rest = ops := by
  simp [State.rest, ho, Pc.ops]

theorem pending_goTo (hpc : pc.pending = (σ.pc t).pending) (v : I) :
    ((σ.goTo t pc).pc v).pending = (σ.pc v).pending := by
  by_cases hv : v = t
  · subst hv
    simp [hpc]
  · rw [goTo_of_ne hv]

theorem abs_goTo : (σ.goTo t pc).abs.called = Function.update σ.abs.called t pc.pending := by
  funext v
  by_cases hv : v = t
  · simp [State.abs, hv]
  · simp [State.abs, goTo_of_ne hv, Function.update_of_ne hv]

theorem called_goTo {P : I → K → Prop} (h : ∀ v k, (σ.pc v).pending = some k → P v k)
    (hpc : ∀ k, pc.pending = some k → P t k) (v : I) (k : K) (hv : ((σ.goTo t pc).pc v).pending = some k) :
    P v k := by
  by_cases hvt : v = t
  · subst hvt
    exact hpc k (by simpa using hv)
  · exact h v k (by simpa [goTo_of_ne hvt] using hv)

theorem others_goTo {w : I} (h : ∀ v, v ≠ w → (σ.pc v).waiting = none) (hpc : t ≠ w → pc.waiting = none) (v : I)
    (hv : v ≠ w) : ((σ.goTo t pc).pc v).waiting = none := by
  by_cases hvt : v = t
  · subst hvt
    simpa using hpc hv
  · simpa [goTo_of_ne hvt] using h v hv

theorem waits_goTo {w : I} {k : K} (hpc : pc.waiting = none) (hw : (σ.goTo t pc).pc w = .wait k) :
    t ≠ w ∧ σ.pc w = .wait k := by
  by_cases hwt : w = t
  · subst hwt
    simp only [goTo_self] at hw
    simp [hw, Pc.waiting] at hpc
  · exact ⟨Ne.symm hwt, by simpa [goTo_of_ne hwt] using hw⟩

end

section
variable {I K S : Type} [DecidableEq I] [Fintype I] {sec : K → Section S} {σ σ' : State I K S} {a : Act I K} {t : I}

theorem step_steps (h : step sec σ a = some σ') : Steps sec σ a σ' := by
  cases a with
  | call t k =>
    cases hp : σ.pc t <;> simp only [step, hp] at h <;> cases h
    exact .call t k hp
  | lock t =>
    cases hp : σ.pc t <;> cases ho : σ.owner <;> simp only [step, hp, ho] at h <;> cases h
    exact .lock t _ hp ho
  | test t =>
    cases hp : σ.pc t with
    | test k =>
      simp only [step, hp] at h
      cases hg : (sec k).guard σ.shared with
      | true =>
        rw [hg] at h
        cases h
        exact .pass t k hp hg
      | false =>
        rw [hg] at h
        cases h
        exact .sleep t k hp hg
    | idle => simp [step, hp] at h
    | lock k => simp [step, hp] at h
    | wait k => simp [step, hp] at h
    | run ops => simp [step, hp] at h
  | write t =>
    simp only [step] at h
    split at h
    · rename_i f ops hp
      cases h
      exact .write t f ops hp
    · cases h
  | signal t woken =>
    simp only [step] at h
    split at h
    · rename_i cond ops hp
      by_cases hc : cond σ.shared = true
      · rw [if_pos hc] at h
        cases woken with
        | some u =>
          obtain ⟨k, hk, rfl⟩ := Option.map_eq_some_iff.mp h
          exact .rouse t u cond ops k hp (waiting_eq_some.mp hk)
        | none =>
          by_cases hn : ∀ u, (σ.pc u).waiting = none
          · simp only [if_pos hn] at h
            cases h
            exact .signal t none cond ops hp fun _ => hn
          · simp only [if_neg hn] at h
            cases h
      · rw [if_neg hc] at h
        cases h
        exact .signal t woken cond ops hp fun h' => absurd h' hc
    · cases h
  | unlock t =>
    simp only [step] at h
    split at h
    · rename_i hp
      cases h
      exact .unlock t hp
    · cases h
  | wake t =>
    obtain ⟨k, hk, rfl⟩ := Option.map_eq_some_iff.mp h
    exact .wake t k (waiting_eq_some.mp hk)

theorem Exclusive.step (h : Exclusive σ) (hs : step sec σ a = some σ') : Exclusive σ' := by
  cases step_steps hs with
  | call t k hp => exact h.goTo (by simp [hp, Pc.holds])
  | lock t k hp ho => exact h.take ho rfl
  | pass t k hp hg => exact h.goTo (by simp [hp, Pc.holds])
  | sleep t k hp hg => exact h.release ((h t).mp (by simp [hp, Pc.holds])) rfl
  | write t f ops hp =>
    have hgo : Exclusive (σ.goTo t (.run ops)) := h.goTo (by simp [hp, Pc.holds])
    exact hgo
  | rouse t u cond ops k hp hu =>
    have hne : t ≠ u := fun he => by simp [← he, hp] at hu
    exact (h.goTo (by simp [hu, Pc.holds])).goTo (by simp [goTo_of_ne hne, hp, Pc.holds])
  | signal t woken cond ops hp hc => exact h.goTo (by simp [hp, Pc.holds])
  | unlock t hp => exact h.release ((h t).mp (by simp [hp, Pc.holds])) rfl
  | wake t k hp => exact h.goTo (by simp [hp, Pc.holds])

/-! ## A section counts from its start -/

theorem abs_call {k : K} (hs : step sec σ (.call t k) = some σ') :
    atomicStep sec σ.abs (.call t k) = some σ'.abs := by
  cases step_steps hs with
  | call _ _ hp =>
    have hnone : σ.abs.called t = none := by simp [State.abs, hp, Pc.pending]
    have hrest : (σ.goTo t (.lock k)).rest = σ.rest := rest_goTo (by simp [hp, Pc.ops]) rfl
    have hcalled : (σ.goTo t (.lock k)).abs.called = Function.update σ.abs.called t (some k) := abs_goTo
    simp only [atomicStep, hnone, Option.isNone_none, if_true, ← hcalled]
    simp [State.abs, hrest]

/-- Each step is one of the sections in one step, or changes nothing there. -/
theorem abs_step (h : Exclusive σ) (hs : step sec σ a = some σ') :
    σ'.abs = σ.abs ∨ (∃ t, atomicStep sec σ.abs (.run t) = some σ'.abs) ∨
      ∃ t k, a = .call t k ∧ atomicStep sec σ.abs (.call t k) = some σ'.abs := by
  cases step_steps hs with
  | call t k hp => exact Or.inr (Or.inr ⟨t, k, rfl, abs_call hs⟩)
  | lock t k hp ho =>
    refine Or.inl (abs_eq ?_ fun v => pending_goTo (by simp [hp, Pc.pending]) v)
    simp [State.rest, ho, State.goTo, Pc.ops]
  | pass t k hp hg =>
    refine Or.inr (Or.inl ⟨t, ?_⟩)
    obtain ⟨hown, hrest⟩ := h.testing hp
    have hshared : σ.abs.shared = σ.shared := by simp [State.abs, hrest, runOps]
    have hsome : σ.abs.called t = some k := by simp [State.abs, hp, Pc.pending]
    have hcalled : (σ.goTo t (.run (sec k).body)).abs.called = Function.update σ.abs.called t none := abs_goTo
    simp only [atomicStep, hsome, hshared, hg, if_true, ← hcalled]
    simp [State.abs, rest_run hown]
  | sleep t k hp hg =>
    refine Or.inl (abs_eq ?_ fun v => pending_goTo (by simp [hp, Pc.pending]) v)
    rw [(h.testing hp).2]
    rfl
  | write t f ops hp =>
    obtain ⟨hown, hrest⟩ := h.running hp
    refine Or.inl (abs_eq ?_ fun v => pending_goTo (by simp [hp, Pc.pending]) v)
    have hrest' : State.rest { σ.goTo t (.run ops) with shared := f σ.shared } = ops := rest_run hown
    rw [hrest', hrest]
    rfl
  | rouse t u cond ops k hp hu =>
    have hne : t ≠ u := fun he => by simp [← he, hp] at hu
    obtain ⟨hown, hrest⟩ := h.running hp
    refine Or.inl (abs_eq ?_ fun v => ?_)
    · rw [rest_run (by simpa using hown), hrest]
      rfl
    · rw [pending_goTo (by simp [goTo_of_ne hne, hp, Pc.pending]), pending_goTo (by simp [hu, Pc.pending])]
  | signal t woken cond ops hp hc =>
    obtain ⟨hown, hrest⟩ := h.running hp
    refine Or.inl (abs_eq ?_ fun v => pending_goTo (by simp [hp, Pc.pending]) v)
    rw [rest_run hown, hrest]
    rfl
  | unlock t hp =>
    refine Or.inl (abs_eq ?_ fun v => pending_goTo (by simp [hp, Pc.pending]) v)
    rw [(h.running hp).2]
    rfl
  | wake t k hp =>
    refine Or.inl (abs_eq ?_ fun v => pending_goTo (by simp [hp, Pc.pending]) v)
    rw [rest_goTo (by simp [hp, Pc.ops]) rfl]
    rfl

/-! ## No signal is lost -/

def Calls (P : I → K → Prop) : Act I K → Prop
  | .call t k => P t k
  | _ => True

variable {P : I → K → Prop} {w : I}

theorem Sleeps.step (h : Sleeps sec P w σ) (hother : ∀ t k, P t k → t ≠ w → ∀ s, (sec k).guard s = true)
    (hnotify : ∀ k t k', P w k → P t k' → t ≠ w → Notifies (sec k) (sec k')) (hc : Calls P a)
    (hs : Monitor.step sec σ a = some σ') : Sleeps sec P w σ' := by
  have hex := h.exclusive.step hs
  cases step_steps hs with
  | call t k hp =>
    have hrest : (σ.goTo t (.lock k)).rest = σ.rest := rest_goTo (by simp [hp, Pc.ops]) rfl
    refine ⟨hex, called_goTo h.called fun k' hk => ?_, others_goTo h.others fun _ => rfl, fun k' hw => ?_⟩
    · cases hk
      exact hc
    · rw [hrest]
      exact h.asleep k' (waits_goTo rfl hw).2
  | lock t k hp ho =>
    refine ⟨hex, called_goTo h.called fun k' hk => ?_, others_goTo h.others fun _ => rfl, fun k' hw => ?_⟩
    · exact h.called t k' (by simpa [hp, Pc.pending] using hk)
    · have hold := h.asleep k' (waits_goTo rfl hw).2
      have hrest : σ.rest = [] := by simp [State.rest, ho]
      have hrest' : State.rest { σ.goTo t (.test k) with owner := some t } = [] := by
        simp [State.rest, State.goTo, Pc.ops]
      rw [hrest] at hold
      rw [hrest']
      exact hold
  | pass t k hp hg =>
    obtain ⟨hown, hrest⟩ := h.exclusive.testing hp
    refine ⟨hex, called_goTo h.called nofun, others_goTo h.others fun _ => rfl, fun k' hw hguard => ?_⟩
    obtain ⟨htw, hwait⟩ := waits_goTo rfl hw
    have hold := h.asleep k' hwait
    rw [hrest] at hold
    rw [rest_run hown] at hguard ⊢
    -- the guard of the sleeper is false when the section starts
    have hfalse : (sec k').guard σ.shared = false := by
      cases hg' : (sec k').guard σ.shared with
      | false => rfl
      | true => exact absurd (hold hg') (by simp [signals])
    exact hnotify k' t k (h.called w k' (by simp [hwait, Pc.pending])) (h.called t k (by simp [hp, Pc.pending])) htw _
      hfalse hguard
  | sleep t k hp hg =>
    have htw : t = w := by
      by_contra hne
      have := hother t k (h.called t k (by simp [hp, Pc.pending])) hne σ.shared
      simp [hg] at this
    refine ⟨hex, called_goTo h.called fun k' hk => ?_, others_goTo h.others fun hne => absurd htw hne,
      fun k' hw hguard => ?_⟩
    · exact h.called t k' (by simpa [hp, Pc.pending] using hk)
    · subst htw
      have hk : k = k' := by simpa [State.goTo] using hw
      subst hk
      simp [State.rest, runOps, hg] at hguard
  | write t f ops hp =>
    obtain ⟨hown, hrest⟩ := h.exclusive.running hp
    have hrest' : State.rest { σ.goTo t (.run ops) with shared := f σ.shared } = ops := rest_run hown
    refine ⟨hex, called_goTo h.called nofun, others_goTo h.others fun _ => rfl, fun k' hw hguard => ?_⟩
    have hold := h.asleep k' (waits_goTo rfl hw).2
    rw [hrest] at hold
    rw [hrest'] at hguard ⊢
    exact hold hguard
  | rouse t u cond ops k hp hu =>
    have huw : u = w := by
      by_contra hne
      simpa [hu, Pc.waiting] using h.others u hne
    have hne : t ≠ u := fun he => by simp [← he, hp] at hu
    refine ⟨hex, called_goTo (called_goTo h.called fun k' hk => ?_) nofun,
      others_goTo (others_goTo h.others fun _ => rfl) fun _ => rfl, fun k' hw => ?_⟩
    · exact h.called u k' (by simpa [hu, Pc.pending] using hk)
    · have := (waits_goTo rfl hw).2
      simp [← huw] at this
  | signal t woken cond ops hp hc' =>
    obtain ⟨hown, hrest⟩ := h.exclusive.running hp
    refine ⟨hex, called_goTo h.called nofun, others_goTo h.others fun _ => rfl, fun k' hw hguard => ?_⟩
    have hwait := (waits_goTo rfl hw).2
    have hold := h.asleep k' hwait
    have hcond : cond σ.shared = false := by
      cases hv : cond σ.shared with
      | false => rfl
      | true => simpa [hwait, Pc.waiting] using hc' hv w
    rw [hrest] at hold
    rw [rest_run hown] at hguard ⊢
    simpa [signals, hcond] using hold hguard
  | unlock t hp =>
    refine ⟨hex, called_goTo h.called nofun, others_goTo h.others fun _ => rfl, fun k' hw hguard => ?_⟩
    have hold := h.asleep k' (waits_goTo rfl hw).2
    rw [(h.exclusive.running hp).2] at hold
    exact hold hguard
  | wake t k hp =>
    have hrest : (σ.goTo t (.lock k)).rest = σ.rest := rest_goTo (by simp [hp, Pc.ops]) rfl
    refine ⟨hex, called_goTo h.called fun k' hk => ?_, others_goTo h.others fun _ => rfl, fun k' hw => ?_⟩
    · exact h.called t k' (by simpa [hp, Pc.pending] using hk)
    · rw [hrest]
      exact h.asleep k' (waits_goTo rfl hw).2

/-! ## A section that can run -/

def Act.Of (t : I) : Act I K → Prop
  | .call _ _ => False
  | .lock u | .test u | .write u | .signal u _ | .unlock u | .wake u => u = t

theorem exists_runOps (ops : List (Op S)) (ho : σ.owner = some t) (hp : σ.pc t = .run ops) :
    ∃ as σ', Transition.exec (Monitor.step sec) σ as = some σ' ∧ (∀ a ∈ as, Act.Of t a) ∧ σ'.owner = none ∧
      σ'.shared = runOps ops σ.shared ∧ ∀ v, (σ'.pc v).pending = (σ.pc v).pending := by
  induction ops generalizing σ with
  | nil =>
    refine ⟨[.unlock t], { σ.goTo t .idle with owner := none }, ?_, ?_, rfl, rfl, fun v => ?_⟩
    · simp [Transition.exec_cons, Monitor.step, hp]
    · simp [Act.Of]
    · exact pending_goTo (by simp [hp, Pc.pending]) v
  | cons op ops ih =>
    -- one statement, and the rest by induction
    have hnext : ∃ a σ₁, Monitor.step sec σ a = some σ₁ ∧ Act.Of t a ∧ σ₁.owner = some t ∧ σ₁.pc t = .run ops ∧
        runOps ops σ₁.shared = runOps (op :: ops) σ.shared ∧ ∀ v, (σ₁.pc v).pending = (σ.pc v).pending := by
      have hpend : ∀ v, ((σ.goTo t (.run ops)).pc v).pending = (σ.pc v).pending :=
        fun v => pending_goTo (by simp [hp, Pc.pending]) v
      cases op with
      | write f =>
        refine ⟨.write t, { σ.goTo t (.run ops) with shared := f σ.shared }, ?_, rfl, ho, goTo_self, rfl, hpend⟩
        simp [Monitor.step, hp]
      | signal cond =>
        by_cases hw : cond σ.shared = true ∧ ∃ u k, σ.pc u = .wait k
        · obtain ⟨hc, u, k, hu⟩ := hw
          have hne : t ≠ u := fun he => by simp [← he, hp] at hu
          refine ⟨.signal t (some u), (σ.goTo u (.lock k)).goTo t (.run ops), ?_, rfl, ho, goTo_self, rfl,
            fun v => ?_⟩
          · simp [Monitor.step, hp, hc, hu, Pc.waiting]
          · rw [pending_goTo (by simp [goTo_of_ne hne, hp, Pc.pending]), pending_goTo (by simp [hu, Pc.pending])]
        · refine ⟨.signal t none, σ.goTo t (.run ops), ?_, rfl, ho, goTo_self, rfl, hpend⟩
          simp only [Monitor.step, hp]
          by_cases hc : cond σ.shared = true
          · have hnone : ∀ u, (σ.pc u).waiting = none := fun u => by
              cases hu : (σ.pc u).waiting with
              | none => rfl
              | some k => exact absurd ⟨hc, u, k, waiting_eq_some.mp hu⟩ hw
            simp [hc, hnone]
          · simp [hc]
    obtain ⟨a, σ₁, ha, hof, ho₁, hp₁, hshared, hpend⟩ := hnext
    obtain ⟨as, σ', has, hofs, ho', hshared', hpend'⟩ := ih ho₁ hp₁
    refine ⟨a :: as, σ', ?_, ?_, ho', hshared'.trans hshared, fun v => (hpend' v).trans (hpend v)⟩
    · rw [Transition.exec_cons, ha]
      exact has
    · intro b hb
      cases hb with
      | head => exact hof
      | tail _ hb => exact hofs b hb

theorem exists_section {k : K} (hp : σ.pc t = .lock k) (ho : σ.owner = none) (hg : (sec k).guard σ.shared = true) :
    ∃ as σ', Transition.exec (Monitor.step sec) σ as = some σ' ∧ (∀ a ∈ as, Act.Of t a) ∧ σ'.owner = none ∧
      atomicStep sec σ.abs (.run t) = some σ'.abs := by
  let σ₁ : State I K S := { σ.goTo t (.test k) with owner := some t }
  have h₁ : Monitor.step sec σ (.lock t) = some σ₁ := by simp [Monitor.step, hp, ho, σ₁]
  have h₂ : Monitor.step sec σ₁ (.test t) = some (σ₁.goTo t (.run (sec k).body)) := by
    simp [Monitor.step, σ₁, State.goTo, hg]
  obtain ⟨as, σ', has, hof, ho', hshared, hpend⟩ :=
    exists_runOps (sec k).body (show (σ₁.goTo t (.run (sec k).body)).owner = some t from rfl) goTo_self
  refine ⟨.lock t :: .test t :: as, σ', ?_, ?_, ho', ?_⟩
  · simpa [Transition.exec_cons, h₁, h₂] using has
  · simpa [Act.Of] using hof
  · have hsome : σ.abs.called t = some k := by simp [State.abs, hp, Pc.pending]
    have hrest : σ.abs.shared = σ.shared := abs_of_free ho
    have hrest' : σ'.abs.shared = σ'.shared := abs_of_free ho'
    have hcalled : Function.update σ.abs.called t none = σ'.abs.called := by
      funext v
      have hv : σ'.abs.called v = ((σ₁.goTo t (.run (sec k).body)).pc v).pending := hpend v
      rw [hv]
      by_cases hvt : v = t
      · simp [hvt, Pc.pending]
      · simp [σ₁, State.abs, State.goTo, Function.update_of_ne hvt]
    simp only [atomicStep, hsome, hrest, hg, if_true, hcalled]
    rw [show runOps (sec k).body σ.shared = σ'.abs.shared from (hrest'.trans hshared).symm]

end

end Monitor
