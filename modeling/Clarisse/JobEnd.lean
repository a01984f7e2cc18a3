import Clarisse.Draining
import Clarisse.Finalize

/-!
# How the job ends

Once the flags of the leaves are set, every thread has only so many steps left,
whatever their order. When no step is left, the leaf threads have ended, and either
the root was released and every main thread has destroyed its aggregator, or it was
not and all of them wait for it. Where a main thread frees `comm_leafs` before its
leaf thread comes to the barrier, the job is aborted instead.
-/

namespace Clarisse

def MainThread.progress : MainThread → Nat
  | .application => 0
  | .waiting => 1
  | .barrier => 2
  | .commFree => 3
  | .destroy => 4
  | .destroyed => 5

def LeafBarrier.progress : LeafBarrier → Nat
  | .before => 0
  | .inside => 1
  | .passed | .failed => 2

/-- How far a leaf thread is once its flag is set: the next pulse but one is its last. -/
def LeafThread.progress : LeafThread → Nat
  | .submit false => 0
  | .readFlag => 1
  | .submit true => 2
  | .barrier b => 3 + b.progress

def LeafThread.pulsesLeft : LeafThread → Nat
  | .submit false => 2
  | .readFlag | .submit true => 1
  | .barrier _ => 0

def Sys.progress (σ : Sys) (r : Nat) : Nat := (σ.main r).progress + (σ.thread r).progress

def Sys.potential (T : Topology) (σ : Sys) : Nat :=
  σ.net.potential T + (Finset.range T.nprocs).sum σ.progress

structure Closing (T : Topology) (P : Nat) (σ : Sys) : Prop where
  flag : ∀ r < T.nprocs, T.isLeaf r = true → σ.leafsFinished r = true
  pulses : ∀ r < T.nprocs, T.isLeaf r = true → (σ.net.leaf r).counter + (σ.thread r).pulsesLeft ≤ P

def FlagsSet (T : Topology) (σ : Sys) : Prop :=
  ∀ r, T.isLeaf r = true → σ.main r ≠ .application → σ.leafsFinished r = true

/-- `comm_leafs` of a leaf is gone before its leaf thread has come to the barrier. -/
def Late (T : Topology) (mains : Nat → MainThread) (leafs : Nat → LeafBarrier) (r : Nat) : Prop :=
  r < T.nprocs ∧ T.isLeaf r = true ∧ (mains r).freed = true ∧ (leafs r).reached = false

/-- A main thread does not free it so early. -/
def EntersFirst (T : Topology) (σ : Sys) : SysAct → Prop
  | .main r => T.isLeaf r = true → σ.main r = .commFree → (σ.leafs r).reached = true
  | _ => True

instance (T : Topology) (σ : Sys) : ∀ a, Decidable (EntersFirst T σ a)
  | .main r => inferInstanceAs (Decidable (T.isLeaf r = true → σ.main r = .commFree → (σ.leafs r).reached = true))
  | .deliver _ => isTrue trivial
  | .readFlag _ => isTrue trivial
  | .submit _ => isTrue trivial
  | .leafBarrier _ => isTrue trivial

def SysKept (T : Topology) (σ : Sys) : SysAct → Prop
  | .deliver a => ArrivesKept T σ.net a
  | _ => True

instance (T : Topology) (σ : Sys) : ∀ a, Decidable (SysKept T σ a)
  | .deliver a => inferInstanceAs (Decidable (ArrivesKept T σ.net a))
  | .main _ => isTrue trivial
  | .readFlag _ => isTrue trivial
  | .submit _ => isTrue trivial
  | .leafBarrier _ => isTrue trivial

/-- What a step does to the main threads and to the leaf threads at their barrier. -/
inductive BarrierStep (T : Topology) (rootFinished : Bool) (mains : Nat → MainThread) (leafs : Nat → LeafBarrier) :
    (Nat → MainThread) → (Nat → LeafBarrier) → Prop where
  | stay : BarrierStep T rootFinished mains leafs mains leafs
  | main (r : Nat) (next : MainThread) (hr : r < T.nprocs)
      (hn : monitoringFinalize T mains rootFinished r = some next) :
      BarrierStep T rootFinished mains leafs (Function.update mains r next) leafs
  | leafBarrier (r : Nat) (next : LeafBarrier) (hr : r < T.nprocs) (hl : T.isLeaf r = true)
      (hb : leafBarrier T mains leafs r = some next) :
      BarrierStep T rootFinished mains leafs mains (Function.update leafs r next)

section
variable {T : Topology} {E : Nat → Nat → When → Sampling} {σ σ' : Sys} {a : SysAct} {r P : Nat}
  {mains mains' : Nat → MainThread} {leafs leafs' : Nat → LeafBarrier} {rootFinished : Bool}

/-! ## The steps -/

theorem sysStep_net (h : sysStep T E σ a = some σ') :
    σ'.net = σ.net ∨ (∃ r quit, netStep T E σ.net (.leaf r quit) = some σ'.net) ∨
      ∃ b, a = .deliver b ∧ b.Delivers ∧ netStep T E σ.net b = some σ'.net := by
  cases (sysStep_steps h).2 with
  | main r next flags hr hn => simp
  | readFlag r hr hl ht => simp
  | leafBarrier r b next hr hl ht hb => simp
  | submit r quit net ht hn => exact Or.inr (Or.inl ⟨r, quit, hn⟩)
  | deliver b net hb hn =>
    refine Or.inr (Or.inr ⟨b, rfl, ?_, hn⟩)
    cases b with
    | leaf r quit => exact hb r quit rfl
    | terminal c => trivial
    | multi c => trivial
    | own r => trivial
    | final => trivial

theorem sysStep_keeps {I : Net → Prop} (hI : ∀ ν b ν', I ν → netStep T E ν b = some ν' → I ν') (h : I σ.net)
    (hs : sysStep T E σ a = some σ') : I σ'.net := by
  rcases sysStep_net hs with heq | ⟨r, quit, hn⟩ | ⟨b, -, -, hn⟩
  · rw [heq]
    exact h
  · exact hI _ _ _ h hn
  · exact hI _ _ _ h hn

theorem sysStep_kept (h2 : 2 ≤ T.nprocs) (hE : ∀ r, WellFormed (E r)) (h : Keeps T E σ.net) (hk : SysKept T σ a)
    (hs : sysStep T E σ a = some σ') : Keeps T E σ'.net := by
  rcases sysStep_net hs with heq | ⟨r, quit, hn⟩ | ⟨b, rfl, -, hn⟩
  · rw [heq]
    exact h
  · exact h.step (a := .leaf r quit) h2 hE trivial hn
  · exact h.step h2 hE hk hn

theorem sysStep_flag (h : sysStep T E σ a = some σ') (q : Nat) :
    (σ.leafsFinished q = true → σ'.leafsFinished q = true) ∧
      (T.isLeaf q = true → σ.main q = .application → σ'.main q ≠ .application → σ'.leafsFinished q = true) := by
  cases a with
  | main r =>
    simp only [sysStep, if_neg (sysStep_steps h).1] at h
    split at h
    · obtain ⟨next, -, rfl⟩ := Option.map_eq_some_iff.mp h
      refine ⟨fun hf => ?_, fun hl hm hne => ?_⟩
      · simp only
        split
        · by_cases hq : q = r
          · simp [hq]
          · simp [Function.update_of_ne hq, hf]
        · exact hf
      · by_cases hq : q = r
        · subst hq
          simp [hl, hm]
        · simp [Function.update_of_ne hq, hm] at hne
    · cases h
  | readFlag r =>
    cases (sysStep_steps h).2 with
    | readFlag r hr hl ht => exact ⟨fun hf => hf, fun _ hm hne => absurd hm hne⟩
  | submit r =>
    cases (sysStep_steps h).2 with
    | submit r quit net ht hn => exact ⟨fun hf => hf, fun _ hm hne => absurd hm hne⟩
  | leafBarrier r =>
    cases (sysStep_steps h).2 with
    | leafBarrier r b next hr hl ht hb => exact ⟨fun hf => hf, fun _ hm hne => absurd hm hne⟩
  | deliver b =>
    cases (sysStep_steps h).2 with
    | deliver _ net hb hn => exact ⟨fun hf => hf, fun _ hm hne => absurd hm hne⟩

theorem flagsSet_init : FlagsSet T (sysInit T) := fun _ _ h => absurd rfl h

theorem FlagsSet.step (h : FlagsSet T σ) (hs : sysStep T E σ a = some σ') : FlagsSet T σ' := by
  intro q hl hm
  obtain ⟨hstay, hset⟩ := sysStep_flag hs q
  by_cases happ : σ.main q = .application
  · exact hset hl happ hm
  · exact hstay (h q hl happ)

/-! ## How many steps are left -/

theorem monitoringFinalize_progress {next : MainThread} (h : monitoringFinalize T mains rootFinished r = some next) :
    (mains r).progress < next.progress := by
  unfold monitoringFinalize at h
  cases hm : mains r with
  | application => simp only [hm] at h; cases h; decide
  | waiting =>
    simp only [hm] at h
    split at h
    · cases h
    · cases h; decide
  | barrier =>
    simp only [hm] at h
    split at h
    · cases h; decide
    · cases h
  | commFree => simp only [hm] at h; cases h; decide
  | destroy => simp only [hm] at h; cases h; decide
  | destroyed => simp only [hm] at h; cases h

theorem monitoringFinalize_freed {next : MainThread} (h : monitoringFinalize T mains rootFinished r = some next)
    (hf : next.freed = true) : (mains r).freed = true ∨ mains r = .commFree := by
  unfold monitoringFinalize at h
  cases hm : mains r with
  | application => simp only [hm] at h; cases h; cases hf
  | waiting =>
    simp only [hm] at h
    split at h
    · cases h
    · cases h; cases hf
  | barrier =>
    simp only [hm] at h
    split at h
    · cases h; cases hf
    · cases h
  | commFree => exact Or.inr rfl
  | destroy => exact Or.inl rfl
  | destroyed => exact Or.inl rfl

theorem leafBarrier_spec {next : LeafBarrier} (h : leafBarrier T mains leafs r = some next) :
    (leafs r = .before ∧ next = if (mains r).freed then .failed else .inside) ∨
      (leafs r = .inside ∧ next = .passed) := by
  unfold leafBarrier at h
  cases hb : leafs r with
  | before =>
    simp only [hb, Option.some.injEq] at h
    exact Or.inl ⟨rfl, h.symm⟩
  | inside =>
    simp only [hb] at h
    split at h
    · cases h
      exact Or.inr ⟨rfl, rfl⟩
    · cases h
  | passed => simp only [hb] at h; cases h
  | failed => simp only [hb] at h; cases h

theorem leafBarrier_progress {next : LeafBarrier} (h : leafBarrier T mains leafs r = some next) :
    (leafs r).progress < next.progress := by
  rcases leafBarrier_spec h with ⟨hb, rfl⟩ | ⟨hb, rfl⟩
  · rw [hb]
    split <;> decide
  · rw [hb]
    decide

theorem potential_lt_of_thread (hnet : σ'.net.potential T = σ.net.potential T) (hr : r < T.nprocs)
    (hle : ∀ q, σ.progress q ≤ σ'.progress q) (hlt : σ.progress r < σ'.progress r) :
    σ.potential T < σ'.potential T := by
  rw [Sys.potential, Sys.potential, hnet]
  exact Nat.add_lt_add_left (Finset.sum_lt_sum (fun q _ => hle q) ⟨r, Finset.mem_range.mpr hr, hlt⟩) _

theorem potential_lt_of_net (hnet : σ.net.potential T < σ'.net.potential T)
    (hle : ∀ q, σ.progress q ≤ σ'.progress q) : σ.potential T < σ'.potential T :=
  Nat.add_lt_add_of_lt_of_le hnet (Finset.sum_le_sum fun q _ => hle q)

theorem progress_update {thread : Nat → LeafThread} {next : LeafThread}
    (h : (thread r).progress ≤ next.progress) (q : Nat) :
    (thread q).progress ≤ (Function.update thread r next q).progress := by
  by_cases hq : q = r
  · subst hq
    simpa using h
  · simp [Function.update_of_ne hq]

theorem leaf_counter {ν ν' : Net} {b : Act} (h : netStep T E ν b = some ν') (q : Nat) :
    (ν'.leaf q).counter = (ν.leaf q).counter ∨
      (∃ quit, b = .leaf q quit) ∧ (ν'.leaf q).counter = (ν.leaf q).counter + 1 := by
  rcases netStep_leaf h q with ⟨quit, rfl⟩ | heq
  · cases (netStep_steps h).2 with
    | leafHalt r fin d hp => exact Or.inl rfl
    | leaf r fin l hr hl hq hp =>
      obtain ⟨-, -, -, -, -, hc, -⟩ := leafPulse_ok hp
      exact Or.inr ⟨⟨quit, rfl⟩, by simp [setLeaf_leaf, hc]⟩
  · exact Or.inl (by rw [heq])

theorem Closing.progress_step (h : Closing T P σ) (hs : sysStep T E σ a = some σ') (q : Nat) :
    σ.progress q ≤ σ'.progress q := by
  cases (sysStep_steps hs).2 with
  | main r next flags hr hn =>
    refine Nat.add_le_add_right ?_ _
    by_cases hq : q = r
    · subst hq
      simpa using (monitoringFinalize_progress hn).le
    · simp [Function.update_of_ne hq]
  | readFlag r hr hl ht =>
    exact Nat.add_le_add_left (progress_update (by simp [ht, h.flag r hr hl, LeafThread.progress]) q) _
  | submit r quit net ht hn =>
    refine Nat.add_le_add_left (progress_update ?_ q) _
    cases quit <;> simp [ht, LeafThread.progress, LeafBarrier.progress]
  | leafBarrier r b next hr hl ht hb =>
    have hlt := leafBarrier_progress hb
    rw [Sys.leafs, ht, LeafThread.atBarrier] at hlt
    exact Nat.add_le_add_left (progress_update (by simpa [ht, LeafThread.progress] using Nat.le_of_lt hlt) q) _
  | deliver b net hb hn => exact Nat.le_refl _

theorem Closing.potential_step (h : Closing T P σ) (hs : sysStep T E σ a = some σ') :
    σ.potential T < σ'.potential T := by
  have hle := h.progress_step hs
  cases (sysStep_steps hs).2 with
  | main r next flags hr hn =>
    refine potential_lt_of_thread rfl hr hle (Nat.add_lt_add_right ?_ _)
    simpa using monitoringFinalize_progress hn
  | readFlag r hr hl ht =>
    refine potential_lt_of_thread rfl hr hle (Nat.add_lt_add_left ?_ _)
    simp [ht, h.flag r hr hl, LeafThread.progress]
  | submit r quit net ht hn => exact potential_lt_of_net (Clarisse.potential_step hn) hle
  | leafBarrier r b next hr hl ht hb =>
    have hlt := leafBarrier_progress hb
    rw [Sys.leafs, ht, LeafThread.atBarrier] at hlt
    refine potential_lt_of_thread rfl hr hle (Nat.add_lt_add_left ?_ _)
    simpa [ht, LeafThread.progress] using hlt
  | deliver b net hb hn => exact potential_lt_of_net (Clarisse.potential_step hn) hle

theorem Closing.step (h : Closing T P σ) (hs : sysStep T E σ a = some σ') : Closing T P σ' := by
  refine ⟨fun q hq hl => (sysStep_flag hs q).1 (h.flag q hq hl), fun q hq hl => ?_⟩
  have hold := h.pulses q hq hl
  cases (sysStep_steps hs).2 with
  | main r next flags hr hn => exact hold
  | readFlag r hr hlr ht =>
    by_cases hqr : q = r
    · subst hqr
      simpa [ht, h.flag q hq hl, LeafThread.pulsesLeft] using hold
    · simpa [Function.update_of_ne hqr] using hold
  | submit r quit net ht hn =>
    by_cases hqr : q = r
    · subst hqr
      have hc : (net.leaf q).counter ≤ (σ.net.leaf q).counter + 1 := by
        rcases leaf_counter hn q with heq | ⟨-, heq⟩ <;> omega
      cases quit <;> simp [ht, LeafThread.pulsesLeft] at hold ⊢ <;> omega
    · rcases leaf_counter hn q with heq | ⟨⟨fin, he⟩, -⟩
      · simpa [Function.update_of_ne hqr, heq] using hold
      · cases he
        exact absurd rfl hqr
  | leafBarrier r b next hr hl ht hb =>
    by_cases hqr : q = r
    · subst hqr
      simpa [ht, LeafThread.pulsesLeft] using hold
    · simpa [Function.update_of_ne hqr] using hold
  | deliver b net hb hn =>
    rcases leaf_counter hn q with heq | ⟨⟨fin, he⟩, -⟩
    · simpa [heq] using hold
    · exact absurd he (hb q fin)

theorem MainThread.progress_le (m : MainThread) : m.progress ≤ 5 := by cases m <;> simp [progress]

theorem LeafBarrier.progress_le (b : LeafBarrier) : b.progress ≤ 2 := by cases b <;> simp [progress]

theorem LeafThread.progress_le (t : LeafThread) : t.progress ≤ 5 := by
  cases t with
  | submit quit => cases quit <;> simp [progress]
  | readFlag => simp [progress]
  | barrier b => exact Nat.add_le_add_left b.progress_le 3

theorem Closing.potential_le (h : Closing T P σ) (hist : History T E σ.net) (h2 : 2 ≤ T.nprocs) :
    σ.potential T ≤ 3 * T.nprocs * P + 10 * T.nprocs + 1 := by
  have hnet := hist.potential_le h2 fun l hl hleaf => Nat.le_of_add_right_le (h.pulses l hl hleaf)
  have hsum : (Finset.range T.nprocs).sum σ.progress ≤ T.nprocs * 10 := by
    have := Finset.sum_le_card_nsmul (Finset.range T.nprocs) σ.progress 10 fun r _ =>
      Nat.add_le_add (σ.main r).progress_le (σ.thread r).progress_le
    simpa using this
  unfold Sys.potential
  omega

/-! ## The two barriers -/

theorem MainThread.freed_iff (m : MainThread) : m.freed = true ↔ 4 ≤ m.progress := by
  cases m <;> simp [freed, progress]

theorem MainThread.left_of_freed {m : MainThread} (h : m.freed = true) : m.left = true := by
  cases m <;> simp_all [freed, left]

theorem leafs_update {thread : LeafThread} (h : thread.atBarrier = σ.leafs r) :
    Sys.leafs { σ with thread := Function.update σ.thread r thread } = σ.leafs := by
  funext q
  by_cases hq : q = r
  · subst hq
    simpa [Sys.leafs] using h
  · simp [Sys.leafs, Function.update_of_ne hq]

theorem leafs_barrier (r : Nat) (b : LeafBarrier) :
    Sys.leafs { σ with thread := Function.update σ.thread r (.barrier b) } = Function.update σ.leafs r b := by
  funext q
  by_cases hq : q = r
  · subst hq
    simp [Sys.leafs, LeafThread.atBarrier]
  · simp [Sys.leafs, Function.update_of_ne hq]

theorem sysStep_leafs (h : sysStep T E σ a = some σ') (ha : ∀ r, a ≠ .leafBarrier r) : σ'.leafs = σ.leafs := by
  cases (sysStep_steps h).2 with
  | main r next flags hr hn => rfl
  | readFlag r hr hl ht => exact leafs_update (by simp [Sys.leafs, ht, LeafThread.atBarrier])
  | submit r quit net ht hn =>
    have hstay : (if quit then LeafThread.barrier .before else .readFlag).atBarrier = σ.leafs r := by
      cases quit <;> simp [Sys.leafs, ht, LeafThread.atBarrier]
    exact leafs_update hstay
  | leafBarrier r b next hr hl ht hb => exact absurd rfl (ha r)
  | deliver b net hb hn => rfl

theorem sysStep_barrier (h : sysStep T E σ a = some σ') :
    BarrierStep T σ.net.root.rootFinished σ.main σ.leafs σ'.main σ'.leafs := by
  have hleafs := sysStep_leafs h
  cases (sysStep_steps h).2 with
  | main r next flags hr hn => exact .main r next hr hn
  | readFlag r hr hl ht =>
    rw [hleafs nofun]
    exact .stay
  | submit r quit net ht hn =>
    rw [hleafs nofun]
    exact .stay
  | leafBarrier r b next hr hl ht hb =>
    rw [leafs_barrier]
    exact .leafBarrier r next hr hl hb
  | deliver b net hb hn => exact .stay

theorem Late.step (h : Late T mains leafs r) (hs : BarrierStep T rootFinished mains leafs mains' leafs') :
    Late T mains' leafs' r := by
  obtain ⟨hr, hl, hf, hb⟩ := h
  cases hs with
  | stay => exact ⟨hr, hl, hf, hb⟩
  | main q next hq hn =>
    refine ⟨hr, hl, ?_, hb⟩
    by_cases hqr : r = q
    · subst hqr
      have := monitoringFinalize_progress hn
      rw [MainThread.freed_iff] at hf
      rw [Function.update_self, MainThread.freed_iff]
      omega
    · rwa [Function.update_of_ne hqr]
  | leafBarrier q next hq hlq hn =>
    refine ⟨hr, hl, hf, ?_⟩
    by_cases hqr : r = q
    · subst hqr
      rw [Function.update_self]
      rcases leafBarrier_spec hn with ⟨-, rfl⟩ | ⟨hin, -⟩
      · rw [if_pos hf]
        rfl
      · rw [hin] at hb
        cases hb
    · rwa [Function.update_of_ne hqr]

theorem failed_late_step (h : ∀ q, leafs q = .failed → Late T mains leafs q)
    (hs : BarrierStep T rootFinished mains leafs mains' leafs') (hr : leafs' r = .failed) :
    Late T mains' leafs' r := by
  have hstep := hs
  cases hs with
  | stay => exact (h r hr).step hstep
  | main q next hq hn => exact (h r hr).step hstep
  | leafBarrier q next hq hl hn =>
    by_cases hqr : r = q
    · subst hqr
      rw [Function.update_self] at hr
      subst hr
      rcases leafBarrier_spec hn with ⟨-, hnext⟩ | ⟨-, hnext⟩
      · cases hf : (mains r).freed with
        | true => exact ⟨hq, hl, hf, by rw [Function.update_self]; rfl⟩
        | false => simp [hf] at hnext
      · cases hnext
    · rw [Function.update_of_ne hqr] at hr
      exact (h r hr).step hstep

theorem late_main_iff {next : MainThread} (h : ∀ q, ¬ Late T mains leafs q) (hr : r < T.nprocs)
    (hn : monitoringFinalize T mains rootFinished r = some next) :
    (T.isLeaf r = true → mains r = .commFree → (leafs r).reached = true) ↔
      ∀ q, ¬ Late T (Function.update mains r next) leafs q := by
  refine ⟨fun hfirst q hlate => ?_, fun hlate hl hm => ?_⟩
  · obtain ⟨hq, hl, hf, hb⟩ := hlate
    by_cases hqr : q = r
    · subst hqr
      rw [Function.update_self] at hf
      rcases monitoringFinalize_freed hn hf with hfreed | hm
      · exact h q ⟨hq, hl, hfreed, hb⟩
      · rw [hfirst hl hm] at hb
        cases hb
    · rw [Function.update_of_ne hqr] at hf
      exact h q ⟨hq, hl, hf, hb⟩
  · by_contra hb
    refine hlate r ⟨hr, hl, ?_, by simpa using hb⟩
    simp only [monitoringFinalize, hm, Option.some.injEq] at hn
    rw [Function.update_self, ← hn]
    rfl

theorem not_late_leafBarrier {next : LeafBarrier} (h : ∀ q, ¬ Late T mains leafs q) (hl : T.isLeaf r = true)
    (hb : leafBarrier T mains leafs r = some next) (q : Nat) : ¬ Late T mains (Function.update leafs r next) q := by
  rintro ⟨hqn, hlq, hf, hq⟩
  by_cases hqr : q = r
  · subst hqr
    refine h q ⟨hqn, hl, hf, ?_⟩
    rcases leafBarrier_spec hb with ⟨hbefore, -⟩ | ⟨-, rfl⟩
    · rw [hbefore]
      rfl
    · rw [Function.update_self] at hq
      cases hq
  · rw [Function.update_of_ne hqr] at hq
    exact h q ⟨hqn, hlq, hf, hq⟩

theorem entersFirst_iff (h : ∀ q, ¬ Late T σ.main σ.leafs q) (hs : sysStep T E σ a = some σ') :
    EntersFirst T σ a ↔ ∀ q, ¬ Late T σ'.main σ'.leafs q := by
  have hleafs := sysStep_leafs hs
  cases (sysStep_steps hs).2 with
  | main r next flags hr hn => exact late_main_iff h hr hn
  | readFlag r hr hl ht =>
    rw [hleafs nofun]
    exact iff_of_true trivial h
  | submit r quit net ht hn =>
    rw [hleafs nofun]
    exact iff_of_true trivial h
  | leafBarrier r b next hr hl ht hb =>
    rw [leafs_barrier]
    exact iff_of_true trivial (not_late_leafBarrier h hl hb)
  | deliver b net hb hn => exact iff_of_true trivial h

theorem netStep_rootFinished {ν ν' : Net} {b : Act} (h : netStep T E ν b = some ν')
    (hf : ν.root.rootFinished = true) : ν'.root.rootFinished = true := by
  rcases netStep_root h with hroot | ⟨-, e, -, hroot⟩
  · rw [hroot]
    exact hf
  · simp [hroot, finalResult, hf]

theorem mainsWait_step (h : MainsWait T σ.main σ.net.root.rootFinished) (hs : sysStep T E σ a = some σ') :
    MainsWait T σ'.main σ'.net.root.rootFinished := by
  have hroot : σ.net.root.rootFinished = true → σ'.net.root.rootFinished = true := fun hf =>
    sysStep_keeps (I := fun ν => ν.root.rootFinished = true) (fun _ _ _ hf hn => netStep_rootFinished hn hf) hf hs
  cases (sysStep_steps hs).2 with
  | main r next flags hr hn => exact h.main hn
  | readFlag r hr hl ht => exact ⟨h.waited, h.passed⟩
  | submit r quit net ht hn => exact ⟨fun hm => hroot (h.waited hm), h.passed⟩
  | leafBarrier r b next hr hl ht hb => exact ⟨h.waited, h.passed⟩
  | deliver b net hb hn => exact ⟨fun hm => hroot (h.waited hm), h.passed⟩

def LeafQuits (T : Topology) (σ : Sys) : Prop :=
  ∀ r, T.isLeaf r = true → (σ.thread r).done = true → (σ.net.leaf r).data.quit ≠ 0

theorem leafQuits_init : LeafQuits T (sysInit T) := fun _ _ hd => by simp [sysInit, LeafThread.done] at hd

theorem leaf_submits {ν ν' : Net} {quit : Bool} (h : netStep T E ν (.leaf r quit) = some ν')
    (hrun : ν'.halted = none) : (ν'.leaf r).data.quit = if quit then 1 else 0 := by
  cases (netStep_steps h).2 with
  | leafHalt r fin d hp => simp at hrun
  | leaf r fin l hr hl hq hp =>
    obtain ⟨agg, nr, values, b, -, -, -, -, hd⟩ := leafPulse_ok hp
    rw [setLeaf_leaf, hd]

theorem LeafQuits.step (h : LeafQuits T σ) (hs : sysStep T E σ a = some σ') (hrun : σ'.net.halted = none) :
    LeafQuits T σ' := by
  intro q hl hd
  cases (sysStep_steps hs).2 with
  | main r next flags hr hn => exact h q hl hd
  | readFlag r hr hlr ht =>
    by_cases hqr : q = r
    · subst hqr
      simp [LeafThread.done] at hd
    · exact h q hl (by simpa [Function.update_of_ne hqr] using hd)
  | leafBarrier r b next hr hlr ht hb =>
    by_cases hqr : q = r
    · subst hqr
      exact h q hl (by simp [ht, LeafThread.done])
    · exact h q hl (by simpa [Function.update_of_ne hqr] using hd)
  | deliver b net hb hn =>
    rcases netStep_leaf hn q with ⟨fin, he⟩ | heq
    · exact absurd he (hb q fin)
    · simp only [heq]
      exact h q hl hd
  | submit r quit net ht hn =>
    by_cases hqr : q = r
    · subst hqr
      rw [leaf_submits hn hrun]
      cases quit with
      | true => simp
      | false => simp [LeafThread.done] at hd
    · rcases netStep_leaf hn q with ⟨fin, he⟩ | heq
      · cases he
        exact absurd rfl hqr
      · simp only [heq]
        exact h q hl (by simpa [Function.update_of_ne hqr] using hd)

/-! ## What is left when no step is left -/

theorem leafs_passed (hlive : ¬ Aborted T leafs)
    (hstop : ∀ q < T.nprocs, T.isLeaf q = true → leafBarrier T mains leafs q = none) (hr : r < T.nprocs)
    (hl : T.isLeaf r = true) : leafs r = .passed := by
  have hreached : ∀ q < T.nprocs, T.isLeaf q = true → (leafs q).reached = true := by
    intro q hq hlq
    have := hstop q hq hlq
    unfold leafBarrier at this
    cases hb : leafs q with
    | before => simp [hb] at this
    | inside => rfl
    | passed => rfl
    | failed => exact absurd ⟨q, hq, hb⟩ hlive
  have := hstop r hr hl
  unfold leafBarrier at this
  cases hb : leafs r with
  | before => simp [hb] at this
  | inside => simp only [hb, if_pos hreached, reduceCtorEq] at this
  | passed => rfl
  | failed => exact absurd ⟨r, hr, hb⟩ hlive

theorem thread_passed (hlive : ¬ Aborted T σ.leafs) (hb : Busy T σ) (hrun : σ.net.halted = none)
    (hend : ∀ a, sysStep T E σ a = none) (hr : r < T.nprocs) (hl : T.isLeaf r = true) :
    σ.thread r = .barrier .passed := by
  have hdone : ∀ q < T.nprocs, T.isLeaf q = true → (σ.thread q).done = true := by
    intro q hq hlq
    by_contra hd
    exact hb.uses hlive hrun hq hlq (by simpa using hd) ⟨hend _, hend _⟩
  have hstop : ∀ q < T.nprocs, T.isLeaf q = true → leafBarrier T σ.main σ.leafs q = none := by
    intro q hq hlq
    have := hend (.leafBarrier q)
    simpa only [sysStep, if_neg hlive, if_pos (And.intro hq (And.intro hlq (hdone q hq hlq))),
      Option.map_eq_none_iff] using this
  have hpassed := leafs_passed hlive hstop hr hl
  have hthread := hdone r hr hl
  cases ht : σ.thread r with
  | readFlag => simp [ht, LeafThread.done] at hthread
  | submit quit => simp [ht, LeafThread.done] at hthread
  | barrier b =>
    simp only [Sys.leafs, ht, LeafThread.atBarrier] at hpassed
    rw [hpassed]

theorem main_stopped (hstop : monitoringFinalize T mains rootFinished r = none) :
    (mains r = .waiting ∧ r = 0 ∧ rootFinished = false) ∨
      (mains r = .barrier ∧ ¬ ∀ q < T.nprocs, (mains q).entered = true) ∨ mains r = .destroyed := by
  unfold monitoringFinalize at hstop
  cases hm : mains r with
  | application => simp [hm] at hstop
  | waiting => simpa [hm] using hstop
  | barrier => simpa [hm] using hstop
  | commFree => simp [hm] at hstop
  | destroy => simp [hm] at hstop
  | destroyed => simp

theorem destroyed_of_released (hstop : ∀ q < T.nprocs, monitoringFinalize T mains true q = none)
    (hr : r < T.nprocs) : mains r = .destroyed := by
  have hall : ∀ q < T.nprocs, (mains q).entered = true := by
    intro q hq
    rcases main_stopped (hstop q hq) with ⟨-, -, hf⟩ | ⟨hm, -⟩ | hm
    · cases hf
    · simp [hm, MainThread.entered]
    · simp [hm, MainThread.entered]
  rcases main_stopped (hstop r hr) with ⟨-, -, hf⟩ | ⟨-, hn⟩ | hm
  · cases hf
  · exact absurd hall hn
  · exact hm

theorem MainsWait.of_left (h : MainsWait T mains rootFinished) (hm : (mains r).left = true) : rootFinished = true :=
  h.waited (h.passed r hm 0 T.nprocs_pos)

theorem MainsWait.not_destroyed (h : MainsWait T mains false) (r : Nat) : mains r ≠ .destroyed := by
  intro hm
  have := h.of_left (r := r) (by simp [hm, MainThread.left])
  cases this

theorem MainsWait.stopped (h : MainsWait T mains false) (hstop : monitoringFinalize T mains false r = none) :
    mains r = if r = 0 then .waiting else .barrier := by
  rcases main_stopped hstop with ⟨hm, h0, -⟩ | ⟨hm, -⟩ | hm
  · subst h0
    simp [hm]
  · by_cases h0 : r = 0
    · subst h0
      have := h.waited (by simp [hm, MainThread.entered])
      cases this
    · simp [hm, h0]
  · exact absurd hm (h.not_destroyed r)

theorem mains_stop (hlive : ¬ Aborted T σ.leafs) (hend : ∀ a, sysStep T E σ a = none) :
    ∀ r < T.nprocs, monitoringFinalize T σ.main σ.net.root.rootFinished r = none := by
  intro r hr
  have := hend (.main r)
  simpa only [sysStep, if_neg hlive, if_pos hr, Option.map_eq_none_iff] using this

theorem deliveries_end (h : MainsWait T σ.main false) (hlive : ¬ Aborted T σ.leafs) (hq : LeafQuits T σ)
    (hend : ∀ a, sysStep T E σ a = none)
    (hfin : ∀ r < T.nprocs, T.isLeaf r = true → σ.thread r = .barrier .passed) : Quiescent T E σ.net := by
  have hquit : ∀ r < T.nprocs, T.isLeaf r = true → (σ.net.leaf r).data.quit ≠ 0 := fun r hr hl =>
    hq r hl (by simp [hfin r hr hl, LeafThread.done])
  have hdeliver : ∀ b, b.Delivers → netStep T E σ.net b = none := by
    intro b hb
    have hmain := h.not_destroyed (b.receiver T)
    have := hend (.deliver b)
    cases b with
    | leaf r quit => exact hb.elim
    | terminal c => simpa [sysStep, hlive, hmain] using this
    | multi c => simpa [sysStep, hlive, hmain] using this
    | own r => simpa [sysStep, hlive, hmain] using this
    | final => simpa [sysStep, hlive, hmain] using this
  refine ⟨hquit, fun b => ?_⟩
  cases b with
  | leaf r quit =>
    unfold netStep NetOf.step
    split
    · rfl
    · by_cases hg : r < T.nprocs ∧ T.isLeaf r = true ∧ (σ.net.leaf r).data.quit = 0
      · exact absurd hg.2.2 (hquit r hg.1 hg.2.1)
      · simp [hg]
  | terminal c => exact hdeliver _ trivial
  | multi c => exact hdeliver _ trivial
  | own r => exact hdeliver _ trivial
  | final => exact hdeliver _ trivial

theorem sys_idle (h : ∀ r < T.nprocs, ∀ a ∈ [SysAct.main r, .readFlag r, .submit r, .leafBarrier r,
      .deliver (.terminal r), .deliver (.multi r), .deliver (.own r), .deliver .final],
        (sysStep T E σ a).isNone = true) : ∀ a, sysStep T E σ a = none := by
  intro a
  rw [← Option.isNone_iff_eq_none]
  have hall : ∀ r, ∀ a ∈ [SysAct.main r, .readFlag r, .submit r, .leafBarrier r, .deliver (.terminal r),
      .deliver (.multi r), .deliver (.own r)], (sysStep T E σ a).isNone = true := by
    intro r a ha
    by_cases hr : r < T.nprocs
    · exact h r hr a (by simp only [List.mem_cons, List.not_mem_nil, or_false] at ha ⊢; tauto)
    · simp only [List.mem_cons, List.not_mem_nil, or_false] at ha
      rcases ha with rfl | rfl | rfl | rfl | rfl | rfl | rfl
      · simp [sysStep, hr]
      · simp [sysStep, hr]
      · cases ht : σ.thread r <;> simp [sysStep, netStep, NetOf.step, ht, hr]
      · simp [sysStep, hr]
      · simp [sysStep, netStep, NetOf.step, hr]
      · simp [sysStep, netStep, NetOf.step, hr]
      · simp [sysStep, netStep, NetOf.step, hr]
  cases a with
  | main r => exact hall r _ (by simp)
  | readFlag r => exact hall r _ (by simp)
  | submit r => exact hall r _ (by simp)
  | leafBarrier r => exact hall r _ (by simp)
  | deliver b =>
    cases b with
    | leaf r quit => simp [sysStep]
    | terminal c => exact hall c _ (by simp)
    | multi c => exact hall c _ (by simp)
    | own r => exact hall r _ (by simp)
    | final => exact h 0 T.nprocs_pos _ (by simp)

/-! ## The whole job -/

structure SysInv (T : Topology) (E : Nat → Nat → When → Sampling) (σ : Sys) : Prop where
  healthy : Healthy T E (0 < ·) (fun _ _ _ _ => True) σ.net
  busy : Busy T σ
  quits : LeafQuits T σ
  flags : FlagsSet T σ
  waits : MainsWait T σ.main σ.net.root.rootFinished
  failed : ∀ r, σ.leafs r = .failed → Late T σ.main σ.leafs r

theorem sysInv_init : SysInv T E (sysInit T) where
  healthy := keeps_init.toHealthy
  busy := busy_init
  quits := leafQuits_init
  flags := flagsSet_init
  waits := mainsWait_init
  failed := nofun

theorem SysInv.step (h : SysInv T E σ) (h2 : 2 ≤ T.nprocs) (hE : ∀ r, WellFormed (E r))
    (hs : sysStep T E σ a = some σ') : SysInv T E σ' := by
  have hh := sysStep_keeps (I := Healthy T E (0 < ·) fun _ _ _ _ => True)
    (fun _ _ _ hi hn => hi.step h2 (fun r => (hE r).samples) hn) h.healthy hs
  exact ⟨hh, h.busy.step hs, h.quits.step hs hh.running, h.flags.step hs, mainsWait_step h.waits hs,
    fun r hr => failed_late_step h.failed (sysStep_barrier hs) hr⟩

theorem SysInv.run (h : SysInv T E σ) (h2 : 2 ≤ T.nprocs) (hE : ∀ r, WellFormed (E r)) {as : List SysAct}
    (hs : Transition.exec (sysStep T E) σ as = some σ') : SysInv T E σ' :=
  Transition.exec_invariant _ (fun _ _ _ hi hstep => hi.step h2 hE hstep) h hs

theorem SysInv.passed (h : SysInv T E σ) (hlive : ¬ Aborted T σ.leafs) (hend : ∀ a, sysStep T E σ a = none)
    (hr : r < T.nprocs) (hl : T.isLeaf r = true) : σ.thread r = .barrier .passed :=
  thread_passed hlive h.busy h.healthy.running hend hr hl

/-- From a state where every leaf has called `monitoring_finalize`, with at most `P` pulses
so far, every run ends, and it ends in one of three ways: aborted after the root was
released, with all threads gone, or with the leaf threads gone, nothing left to deliver,
and every main thread waiting for the root. -/
theorem job_ends (h2 : 2 ≤ T.nprocs) (hE : ∀ r, WellFormed (E r)) {as bs : List SysAct}
    (has : Transition.exec (sysStep T E) (sysInit T) as = some σ)
    (hcalled : ∀ r < T.nprocs, T.isLeaf r = true → σ.main r ≠ .application)
    (hP : ∀ r < T.nprocs, T.isLeaf r = true → (σ.net.leaf r).counter ≤ P)
    (hbs : Transition.exec (sysStep T E) σ bs = some σ') :
    bs.length ≤ 3 * T.nprocs * (P + 2) + 10 * T.nprocs + 1 ∧
      ((∀ a, sysStep T E σ' a = none) →
        (Aborted T σ'.leafs ∧ σ'.net.root.rootFinished = true) ∨
          (∀ r < T.nprocs, T.isLeaf r = true → σ'.thread r = .barrier .passed) ∧
            ((σ'.net.root.rootFinished = true ∧ ∀ r < T.nprocs, σ'.main r = .destroyed) ∨
              (σ'.net.root.rootFinished = false ∧ Quiescent T E σ'.net ∧
                ∀ r < T.nprocs, σ'.main r = if r = 0 then .waiting else .barrier))) := by
  have hσ : SysInv T E σ := sysInv_init.run h2 hE has
  have hσ' : SysInv T E σ' := hσ.run h2 hE hbs
  refine ⟨?_, fun hend => ?_⟩
  · have hclosing : Closing T (P + 2) σ := by
      refine ⟨fun r hr hl => hσ.flags r hl (hcalled r hr hl), fun r hr hl => ?_⟩
      have hleft : (σ.thread r).pulsesLeft ≤ 2 := by
        unfold LeafThread.pulsesLeft
        split <;> omega
      exact Nat.add_le_add (hP r hr hl) hleft
    have hlen := Transition.exec_length_le (sysStep T E) (I := Closing T (P + 2)) (fun _ _ _ hi hs => hi.step hs)
      (fun _ _ _ hi hs => hi.potential_step hs) hclosing hbs
    have hclosing' : Closing T (P + 2) σ' :=
      Transition.exec_invariant _ (fun _ _ _ hi hs => Closing.step hi hs) hclosing hbs
    have := hclosing'.potential_le hσ'.healthy.toHistory h2
    omega
  · by_cases hlive : Aborted T σ'.leafs
    · obtain ⟨r, hr, hb⟩ := hlive
      obtain ⟨-, -, hfreed, -⟩ := hσ'.failed r hb
      exact Or.inl ⟨⟨r, hr, hb⟩, hσ'.waits.of_left (MainThread.left_of_freed hfreed)⟩
    · have hpassed : ∀ r < T.nprocs, T.isLeaf r = true → σ'.thread r = .barrier .passed :=
        fun r hr hl => hσ'.passed hlive hend hr hl
      refine Or.inr ⟨hpassed, ?_⟩
      have hwaits := hσ'.waits
      have hstop := mains_stop hlive hend
      cases hf : σ'.net.root.rootFinished with
      | true =>
        rw [hf] at hstop
        exact Or.inl ⟨rfl, fun r hr => destroyed_of_released hstop hr⟩
      | false =>
        rw [hf] at hwaits hstop
        exact Or.inr ⟨rfl, deliveries_end hwaits hlive hσ'.quits hend hpassed,
          fun r hr => hwaits.stopped (hstop r hr)⟩

theorem Keeps.releases {ν : Net} (h : Keeps T E ν) (h2 : 2 ≤ T.nprocs) (hq : Quiescent T E ν) :
    ν.root.rootFinished = true := by
  obtain ⟨e, he, heq⟩ := h.all_ended h2 hq 0 T.nprocs_pos
  rw [h.root, List.take_of_length_le (hq.out_le h.running)]
  exact foldl_rootFinished (Or.inr ⟨e, List.mem_of_getLast? he, heq⟩)

theorem entersFirst_along_iff {as : List SysAct} (hs : Transition.exec (sysStep T E) (sysInit T) as = some σ) :
    Transition.Along (sysStep T E) (EntersFirst T) (sysInit T) as ↔ ∀ q, ¬ Late T σ.main σ.leafs q := by
  have hinit : ∀ q, ¬ Late T (sysInit T).main (sysInit T).leafs q := by
    rintro q ⟨-, -, hf, -⟩
    cases hf
  rw [Transition.along_iff _ (I := fun _ => True) (P := fun τ : Sys => ∀ q, ¬ Late T τ.main τ.leafs q) trivial hinit
    (fun _ _ _ _ _ => trivial) (fun _ _ _ _ hp ha => entersFirst_iff hp ha) hs]
  refine ⟨fun h => h as (List.prefix_refl _) σ hs, fun h bs hb u hu q hlate => ?_⟩
  obtain ⟨cs, rfl⟩ := hb
  rw [Transition.exec_append, hu] at hs
  exact h q (Transition.exec_invariant (I := fun τ : Sys => Late T τ.main τ.leafs q) _
    (fun _ _ _ hi ha => hi.step (sysStep_barrier ha)) hlate hs)

/-- When every arrival is kept and no step is left, the job was aborted iff some
`comm_leafs` was freed too early, and otherwise all threads are gone. -/
theorem job_completes (h2 : 2 ≤ T.nprocs) (hE : ∀ r, WellFormed (E r)) {as : List SysAct}
    (hk : Transition.Along (sysStep T E) (SysKept T) (sysInit T) as)
    (hs : Transition.exec (sysStep T E) (sysInit T) as = some σ) (hend : ∀ a, sysStep T E σ a = none) :
    (Aborted T σ.leafs ↔ ¬ Transition.Along (sysStep T E) (EntersFirst T) (sysInit T) as) ∧
      (¬ Aborted T σ.leafs →
        ∀ r < T.nprocs, σ.main r = .destroyed ∧ (T.isLeaf r = true → σ.thread r = .barrier .passed)) := by
  have hσ : SysInv T E σ := sysInv_init.run h2 hE hs
  refine ⟨?_, fun hlive => ?_⟩
  · rw [entersFirst_along_iff hs]
    refine ⟨fun ⟨r, _, hb⟩ hlate => hlate r (hσ.failed r hb), fun hlate => ?_⟩
    by_contra hlive
    refine hlate fun q ⟨hq, hl, _, hb⟩ => ?_
    simp [Sys.leafs, hσ.passed hlive hend hq hl, LeafThread.atBarrier, LeafBarrier.reached] at hb
  · have hkeeps : Keeps T E σ.net := Transition.along_invariant (I := fun τ : Sys => Keeps T E τ.net) _
      (fun _ _ _ h hk hs => sysStep_kept h2 hE h hk hs) keeps_init hk hs
    have hpassed : ∀ r < T.nprocs, T.isLeaf r = true → σ.thread r = .barrier .passed :=
      fun r hr hl => hσ.passed hlive hend hr hl
    have hwaits := hσ.waits
    have hstop := mains_stop hlive hend
    cases hf : σ.net.root.rootFinished with
    | true =>
      rw [hf] at hstop
      exact fun r hr => ⟨destroyed_of_released hstop hr, hpassed r hr⟩
    | false =>
      rw [hf] at hwaits
      have hroot := hkeeps.releases h2 (deliveries_end hwaits hlive hσ.quits hend hpassed)
      rw [hf] at hroot
      cases hroot

end

def leavesStop : List SysAct :=
  [.main 1, .readFlag 1, .submit 1, .readFlag 2, .submit 2, .main 2, .readFlag 2, .submit 2]

def handlersRun : List SysAct := [.deliver (.terminal 2), .deliver (.terminal 1), .deliver (.terminal 2)]

def threadsGo : List SysAct :=
  [.main 0, .main 1, .main 2, .leafBarrier 1, .leafBarrier 2, .leafBarrier 1, .leafBarrier 2]

/-- The events of leaf 2 arrive first, as in `unheard`. -/
def unreleased : List SysAct :=
  handlersRun ++
    [.deliver (.multi 2), .deliver (.multi 1), .deliver (.own 0), .deliver (.multi 2), .deliver .final] ++ threadsGo

theorem job_ends_unreleased :
    ∃ σ σ', Transition.exec (sysStep twoLeaves loads) (sysInit twoLeaves) leavesStop = some σ ∧
      Transition.exec (sysStep twoLeaves loads) σ unreleased = some σ' ∧
        unreleased.length ≤ 3 * 3 * (2 + 2) + 10 * 3 + 1 ∧
          ((Aborted twoLeaves σ'.leafs ∧ σ'.net.root.rootFinished = true) ∨
            (∀ r < 3, twoLeaves.isLeaf r = true → σ'.thread r = .barrier .passed) ∧
              ((σ'.net.root.rootFinished = true ∧ ∀ r < 3, σ'.main r = .destroyed) ∨
                (σ'.net.root.rootFinished = false ∧ Quiescent twoLeaves loads σ'.net ∧
                  ∀ r < 3, σ'.main r = if r = 0 then .waiting else .barrier))) := by
  obtain ⟨hlen, hend⟩ := @job_ends twoLeaves loads _ _ 2 (by decide) wellFormed_loads leavesStop unreleased rfl
    (by decide) (by decide) rfl
  exact ⟨_, _, rfl, rfl, hlen, hend (sys_idle (by decide))⟩

/-- The events of leaf 1 arrive first, as in `heard`. -/
def released : List SysAct :=
  leavesStop ++ handlersRun ++
    [.deliver (.multi 1), .deliver (.multi 2), .deliver (.own 0), .deliver (.multi 2), .deliver .final] ++
      threadsGo ++ [.main 0, .main 0, .main 0, .main 0, .main 1, .main 1, .main 1, .main 2, .main 2, .main 2]

theorem job_completes_released :
    ∃ σ, Transition.exec (sysStep twoLeaves loads) (sysInit twoLeaves) released = some σ ∧
      ∀ r < 3, σ.main r = .destroyed ∧ (twoLeaves.isLeaf r = true → σ.thread r = .barrier .passed) := by
  obtain ⟨-, hgone⟩ := @job_completes twoLeaves loads _ (by decide) wellFormed_loads released (by decide) rfl
    (sys_idle (by decide))
  exact ⟨_, rfl, hgone (by decide)⟩

end Clarisse
