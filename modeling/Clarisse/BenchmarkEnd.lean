import Clarisse.Completion
import Clarisse.JobEnd

/-!
# How the benchmarking job ends

In the benchmarking build `monitoring_finalize` sets no flag, and a leaf thread ends
by itself. The root is released by the event of the last pulse only, so when an
aggregator is destroyed, all has been sent and delivered.
-/

namespace Clarisse.Benchmark

open Interleave

/-- A leaf thread pulses until `data.quit` is set, then it goes to its barrier. -/
structure Sys where
  net : Net
  main : Nat → MainThread
  leafs : Nat → LeafBarrier

inductive SysAct where
  | main (rank : Nat)
  | pulse (rank : Nat) (startTime : Rat)
  | leafBarrier (rank : Nat)
  | deliver (a : Act)
  deriving DecidableEq

section
variable (T : Topology) (maxTimestamps : Nat) (E : Nat → Nat → When → Sampling)

def sysInit : Sys where
  net := netInit T maxTimestamps
  main _ := .application
  leafs _ := .before

def sysStep (σ : Sys) (a : SysAct) : Option Sys :=
  if Aborted T σ.leafs then none
  else
    match a with
    | .main r =>
      if r < T.nprocs then
        (monitoringFinalize T σ.main σ.net.root.rootFinished r).map fun next =>
          { σ with main := Function.update σ.main r next }
      else none
    | .pulse r startTime =>
      (netStep T maxTimestamps E σ.net (.leaf r startTime)).map fun net => { σ with net := net }
    | .leafBarrier r =>
      if r < T.nprocs ∧ T.isLeaf r ∧ (σ.net.leaf r).data.quit ≠ 0 then
        (leafBarrier T σ.main σ.leafs r).map fun next => { σ with leafs := Function.update σ.leafs r next }
      else none
    | .deliver (.leaf ..) => none
    | .deliver a =>
      if σ.main (a.receiver T) = .destroyed then none
      else (netStep T maxTimestamps E σ.net a).map fun net => { σ with net := net }

inductive SysSteps (σ : Sys) : SysAct → Sys → Prop where
  | main (r : Nat) (next : MainThread) (hr : r < T.nprocs)
      (hn : monitoringFinalize T σ.main σ.net.root.rootFinished r = some next) :
      SysSteps σ (.main r) { σ with main := Function.update σ.main r next }
  | leafBarrier (r : Nat) (next : LeafBarrier) (hr : r < T.nprocs) (hl : T.isLeaf r = true)
      (hb : leafBarrier T σ.main σ.leafs r = some next) :
      SysSteps σ (.leafBarrier r) { σ with leafs := Function.update σ.leafs r next }
  | net (a : SysAct) (b : Act) (net : Net) (hn : netStep T maxTimestamps E σ.net b = some net) :
      SysSteps σ a { σ with net := net }

end

section
variable {T : Topology} {maxTimestamps n : Nat} {E : Nat → Nat → When → Sampling} {σ σ' : Sys} {a : SysAct} {r : Nat}

theorem sysStep_steps (h : sysStep T maxTimestamps E σ a = some σ') : SysSteps T maxTimestamps E σ a σ' := by
  unfold sysStep at h
  split at h
  · cases h
  cases a with
  | main r =>
    simp only at h
    split at h
    · rename_i hr
      obtain ⟨next, hn, rfl⟩ := Option.map_eq_some_iff.mp h
      exact .main r next hr hn
    · cases h
  | pulse r startTime =>
    obtain ⟨net, hn, rfl⟩ := Option.map_eq_some_iff.mp h
    exact .net _ _ net hn
  | leafBarrier r =>
    simp only at h
    split at h
    · rename_i hg
      obtain ⟨next, hb, rfl⟩ := Option.map_eq_some_iff.mp h
      exact .leafBarrier r next hg.1 hg.2.1 hb
    · cases h
  | deliver b =>
    have key : (if σ.main (b.receiver T) = .destroyed then none
        else (netStep T maxTimestamps E σ.net b).map fun net => { σ with net := net }) = some σ' →
          SysSteps T maxTimestamps E σ (.deliver b) σ' := by
      intro h
      split at h
      · cases h
      · obtain ⟨net, hn, rfl⟩ := Option.map_eq_some_iff.mp h
        exact .net _ b net hn
    cases b with
    | leaf r startTime => cases h
    | terminal c => exact key h
    | multi c => exact key h
    | own r => exact key h
    | final endTime => exact key h

/-! ## The main threads -/

theorem netStep_rootFinished {ν ν' : Net} {b : Act} (h : netStep T maxTimestamps E ν b = some ν')
    (hf : ν.root.rootFinished = true) : ν'.root.rootFinished = true := by
  rcases netStep_root h with hroot | ⟨endTime, e, -, -, hroot⟩
  · rw [hroot]
    exact hf
  · simp [hroot, finalResult, hf]

structure ThreadsInv (T : Topology) (σ : Sys) : Prop where
  waits : MainsWait T σ.main σ.net.root.rootFinished
  failed : ∀ r, σ.leafs r = .failed → Late T σ.main σ.leafs r

theorem ThreadsInv.step (h : ThreadsInv T σ) (hs : sysStep T maxTimestamps E σ a = some σ') : ThreadsInv T σ' := by
  cases sysStep_steps hs with
  | main r next hr hn => exact ⟨h.waits.main hn, fun _ hb => failed_late_step h.failed (.main r next hr hn) hb⟩
  | leafBarrier r next hr hl hb =>
    have hstep : BarrierStep T σ.net.root.rootFinished σ.main σ.leafs σ.main (Function.update σ.leafs r next) :=
      .leafBarrier r next hr hl hb
    exact ⟨h.waits, fun _ hf => failed_late_step h.failed hstep hf⟩
  | net _ b net hn => exact ⟨⟨fun hm => netStep_rootFinished hn (h.waits.waited hm), h.waits.passed⟩, h.failed⟩

theorem threadsInv_init : ThreadsInv T (sysInit T maxTimestamps) where
  waits := mainsWait_init
  failed := nofun

theorem threadsInv_run {as : List SysAct}
    (hs : Transition.exec (sysStep T maxTimestamps E) (sysInit T maxTimestamps) as = some σ) : ThreadsInv T σ :=
  Transition.exec_invariant _ (fun _ _ _ h hs => ThreadsInv.step h hs) threadsInv_init hs

theorem ThreadsInv.released_of_aborted (h : ThreadsInv T σ) (ha : Aborted T σ.leafs) :
    σ.net.root.rootFinished = true := by
  obtain ⟨r, -, hb⟩ := ha
  obtain ⟨-, -, hfreed, -⟩ := h.failed r hb
  exact h.waits.of_left (MainThread.left_of_freed hfreed)

/-! ## The network below -/

def Sys.progress (T : Topology) (σ : Sys) : Nat :=
  (Finset.range T.nprocs).sum fun r => (σ.main r).progress + (σ.leafs r).progress

theorem progress_lt (hr : r < T.nprocs) (hmain : ∀ q, (σ.main q).progress ≤ (σ'.main q).progress)
    (hleafs : ∀ q, (σ.leafs q).progress ≤ (σ'.leafs q).progress)
    (hlt : (σ.main r).progress + (σ.leafs r).progress < (σ'.main r).progress + (σ'.leafs r).progress) :
    σ.progress T < σ'.progress T :=
  Finset.sum_lt_sum (fun q _ => Nat.add_le_add (hmain q) (hleafs q)) ⟨r, Finset.mem_range.mpr hr, hlt⟩

theorem progress_le (T : Topology) (σ : Sys) : σ.progress T ≤ 7 * T.nprocs := by
  have := Finset.sum_le_card_nsmul (Finset.range T.nprocs)
    (fun r => (σ.main r).progress + (σ.leafs r).progress) 7 fun r _ =>
      Nat.add_le_add (σ.main r).progress_le (σ.leafs r).progress_le
  simpa [Sys.progress, Nat.mul_comm] using this

theorem run_splits {as : List SysAct}
    (hs : Transition.exec (sysStep T maxTimestamps E) (sysInit T maxTimestamps) as = some σ) :
    ∃ bs, Transition.exec (netStep T maxTimestamps E) (netInit T maxTimestamps) bs = some σ.net ∧
      as.length ≤ bs.length + σ.progress T := by
  induction as using List.reverseRecOn generalizing σ with
  | nil =>
    cases hs
    exact ⟨[], rfl, Nat.zero_le _⟩
  | append_singleton as a ih =>
    obtain ⟨m, hm, ha⟩ := Transition.exec_snoc _ hs
    obtain ⟨bs, hb, hlen⟩ := ih hm
    have hsnoc : (as ++ [a]).length = as.length + 1 := by simp
    cases sysStep_steps ha with
    | main r next hr hn =>
      have hprogress := monitoringFinalize_progress hn
      have hlt : m.progress T < Sys.progress T { m with main := Function.update m.main r next } := by
        refine progress_lt hr (fun q => ?_) (fun q => Nat.le_refl _) (by simpa using hprogress)
        by_cases hq : q = r
        · subst hq
          simpa using Nat.le_of_lt hprogress
        · simp [Function.update_of_ne hq]
      exact ⟨bs, hb, by omega⟩
    | leafBarrier r next hr hl hn =>
      have hprogress := leafBarrier_progress hn
      have hlt : m.progress T < Sys.progress T { m with leafs := Function.update m.leafs r next } := by
        refine progress_lt hr (fun q => Nat.le_refl _) (fun q => ?_) (by simpa using hprogress)
        by_cases hq : q = r
        · subst hq
          simpa using Nat.le_of_lt hprogress
        · simp [Function.update_of_ne hq]
      exact ⟨bs, hb, by omega⟩
    | net _ b net hn =>
      refine ⟨bs ++ [b], ?_, ?_⟩
      · rw [Transition.exec_append, hb]
        simpa [Transition.exec_cons] using hn
      · rw [hsnoc, List.length_append, List.length_singleton]
        exact Nat.add_right_comm _ _ _ ▸ Nat.succ_le_succ hlen

/-! ## When the root has all pulses -/

variable {τ : Clarisse.Net}

theorem Follows.sent_all (h : Follows T E maxTimestamps σ.net τ) (h2 : 2 ≤ T.nprocs)
    (hp : σ.net.root.pulse = maxTimestamps) : ∀ r < T.nprocs, (τ.out T r).length = maxTimestamps := by
  intro r hr
  refine Nat.le_antisymm (h.history.out_le h2 (fun l _ _ => h.leaf_le l) r hr) ?_
  induction r using Nat.strongRecOn with
  | ind r ih =>
    by_cases h0 : r = 0
    · subst h0
      rw [← hp, h.pulse]
      exact h.history.rootLe
    · have hc : r ∈ T.children (T.parent r) := T.mem_children.mpr ⟨Nat.pos_of_ne_zero h0, hr, rfl⟩
      obtain ⟨hlt, -⟩ := T.lt_of_mem_children hc
      have hl := T.parent_not_leaf (Nat.pos_of_ne_zero h0) hr
      exact Nat.le_trans (ih _ hlt (Nat.lt_trans hlt hr)) (h.history.out_le_child h2 hl hc)

theorem Follows.idle (h : Follows T E maxTimestamps σ.net τ) (h2 : 2 ≤ T.nprocs)
    (hp : σ.net.root.pulse = maxTimestamps) (b : Act) : netStep T maxTimestamps E σ.net b = none := by
  have hsent := h.sent_all h2 hp
  -- a rank that has sent all its events has had all of what it makes them of
  have hhad : ∀ r < T.nprocs, T.isLeaf r = false → ∀ i ∈ sources T r,
      maxTimestamps ≤ (stream i (τ.node r).arrived).length := by
    intro r hr hl i hi
    have hle := (h.history.inner h2 hl).submitted_le hi
    have hout := hsent r hr
    rw [NetOf.out, hl] at hout
    exact Nat.le_trans (Nat.le_of_eq hout.symm) hle
  have hown : ∀ r < T.nprocs, T.isLeaf r = false → maxTimestamps ≤ (τ.node r).own.counter := by
    intro r hr hl
    rw [← (h.history.inner h2 hl).own.length]
    exact Nat.le_trans (hhad r hr hl none (by simp [sources])) (h.history.arrivedOwn r).length_le
  rw [← Option.not_isSome_iff_eq_none, netStep_isSome_iff]
  rintro ⟨-, hb⟩
  cases b with
  | leaf r startTime =>
    obtain ⟨hr, hl, hq⟩ := (h.enabled_iff (.leaf r startTime false)).mp hb
    have hlt := (h.ends r).counter hq
    have hout := hsent r hr
    rw [NetOf.out, hl] at hout
    have : (τ.leaf r).submitted.length = (τ.leaf r).counter := (h.history.leaf r).length
    simp only [if_true] at hout
    omega
  | terminal c =>
    obtain ⟨h0, hc, hlt⟩ := (h.enabled_iff (.terminal c)).mp hb
    have hp := T.parent_not_leaf h0 hc
    have hmem : c ∈ T.children (T.parent c) := T.mem_children.mpr ⟨h0, hc, rfl⟩
    have hcount := (h.history.inner h2 hp).own.counter_le hmem
    have := hown _ (Nat.lt_trans (T.parent_lt h0) hc) hp
    rw [hsent c hc] at hlt
    omega
  | multi c =>
    obtain ⟨h0, hc, hlt⟩ := (h.enabled_iff (.multi c)).mp hb
    have hmem : c ∈ T.children (T.parent c) := T.mem_children.mpr ⟨h0, hc, rfl⟩
    have := hhad _ (Nat.lt_trans (T.parent_lt h0) hc) (T.parent_not_leaf h0 hc) (some c) (mem_sources.mpr hmem)
    rw [hsent c hc] at hlt
    omega
  | own r =>
    obtain ⟨hr, hl, hlt⟩ := (h.enabled_iff (.own r)).mp hb
    obtain ⟨c, hc⟩ := exists_child h2 hl
    have hn := h.history.inner h2 hl
    have := hhad r hr hl none (by simp [sources])
    have hle : (τ.node r).own.counter ≤ maxTimestamps := by
      rw [← hsent c (T.lt_of_mem_children hc).2]
      exact Nat.le_trans (hn.own.counter_le hc) (h.history.handledLe r c hc).length_le
    rw [hn.own.length] at hlt
    omega
  | final endTime =>
    have hlt := (h.enabled_iff (.final endTime)).mp hb
    have hout := hsent 0 T.nprocs_pos
    have hpulse := h.pulse
    simp only [Clarisse.Enabled, NetOf.Enabled] at hlt
    omega

theorem ended_idle (hnet : ∀ b, netStep T maxTimestamps E σ.net b = none)
    (hmain : ∀ q < T.nprocs, σ.main q = .destroyed) (hleafs : ∀ q < T.nprocs, T.isLeaf q = true → σ.leafs q = .passed)
    (a : SysAct) : sysStep T maxTimestamps E σ a = none := by
  cases a with
  | main q =>
    by_cases hq : q < T.nprocs
    · simp [sysStep, monitoringFinalize, hq, hmain q hq]
    · simp [sysStep, hq]
  | pulse q startTime => simp [sysStep, hnet]
  | leafBarrier q =>
    by_cases hg : q < T.nprocs ∧ T.isLeaf q = true
    · simp [sysStep, hg, leafBarrier, hleafs q hg.1 hg.2]
    · have hno : ¬ (q < T.nprocs ∧ T.isLeaf q = true ∧ (σ.net.leaf q).data.quit ≠ 0) := fun h => hg ⟨h.1, h.2.1⟩
      simp only [sysStep, if_neg hno, ite_self]
  | deliver b => cases b <;> simp [sysStep, hnet]

/-! ## The whole job -/

/-- When a rank has destroyed its aggregator, every rank has sent the events of all pulses,
all of them are delivered, and the root has printed its table once. -/
theorem destroyed_idle (h2 : 2 ≤ T.nprocs) (hmax : 1 ≤ maxTimestamps) (hE : Counts E n) (hn : 0 < n)
    {as : List SysAct}
    (hs : Transition.exec (sysStep T maxTimestamps E) (sysInit T maxTimestamps) as = some σ)
    (hd : σ.main r = .destroyed) :
    (∀ q < T.nprocs, (σ.net.out T q).length = maxTimestamps) ∧ σ.net.root.printed = [σ.net.root.benchmarkingResults] ∧
      ∀ b, netStep T maxTimestamps E σ.net b = none := by
  have hfin := (threadsInv_run hs).waits.of_left (r := r) (by rw [hd]; rfl)
  obtain ⟨bs, hb, -⟩ := run_splits hs
  obtain ⟨τ, -, h⟩ := run_follows h2 hmax hb
  rcases root_finishes h2 hmax hE hn hb with ⟨-, -, hf⟩ | ⟨hp, hprint, -⟩
  · simp [hf] at hfin
  · refine ⟨fun q hq => ?_, hprint, h.idle h2 hp⟩
    rw [h.out_length]
    exact h.sent_all h2 hp q hq

/-- Where the job is not aborted and no step is left, the network has none left either. -/
theorem stuck_idle (h2 : 2 ≤ T.nprocs) (hmax : 1 ≤ maxTimestamps) (hE : Counts E n) (hn : 0 < n)
    {as : List SysAct}
    (hs : Transition.exec (sysStep T maxTimestamps E) (sysInit T maxTimestamps) as = some σ)
    (hlive : ¬ Aborted T σ.leafs) (hend : ∀ a, sysStep T maxTimestamps E σ a = none) (b : Act) :
    netStep T maxTimestamps E σ.net b = none := by
  cases hf : σ.net.root.rootFinished with
  | true =>
    obtain ⟨bs, hb, -⟩ := run_splits hs
    obtain ⟨τ, -, h⟩ := run_follows h2 hmax hb
    rcases root_finishes h2 hmax hE hn hb with ⟨-, -, hf'⟩ | ⟨hp, -, -⟩
    · simp [hf] at hf'
    · exact h.idle h2 hp b
  | false =>
    -- all main threads still wait, so no connection manager refuses a delivery
    have hwaits := (threadsInv_run hs).waits
    rw [hf] at hwaits
    have hmain := hwaits.not_destroyed (b.receiver T)
    have hdeliver := hend (.deliver b)
    cases b with
    | leaf r startTime =>
      simpa only [sysStep, if_neg hlive, Option.map_eq_none_iff] using hend (.pulse r startTime)
    | terminal c => simpa [sysStep, hlive, hmain] using hdeliver
    | multi c => simpa [sysStep, hlive, hmain] using hdeliver
    | own r => simpa [sysStep, hlive, hmain] using hdeliver
    | final endTime => simpa [sysStep, hlive, hmain] using hdeliver

/-- Every run of the job is bounded, and when no step is left, with own events last and
drained arrivals, the root is released, and the job was aborted at a leaf's barrier or
all threads are gone. -/
theorem benchmark_ends (h2 : 2 ≤ T.nprocs) (hmax : 1 ≤ maxTimestamps) (hE : Counts E n) (hn : 0 < n)
    {as : List SysAct}
    (hs : Transition.exec (sysStep T maxTimestamps E) (sysInit T maxTimestamps) as = some σ) :
    as.length ≤ 3 * T.nprocs * maxTimestamps + 7 * T.nprocs + 1 ∧
      ((∀ a, sysStep T maxTimestamps E σ a = none) → OwnLastAll T σ.net →
        (∀ r, r < T.nprocs → T.isLeaf r = false →
          Drained (T.getDegreeNode r + 1) ((σ.net.node r).arrived.map Prod.snd)) →
        σ.net.root.rootFinished = true ∧
          (Aborted T σ.leafs ∨
            ∀ r < T.nprocs, σ.main r = .destroyed ∧ (T.isLeaf r = true → σ.leafs r = .passed))) := by
  obtain ⟨bs, hb, hlen⟩ := run_splits hs
  have hthreads := threadsInv_run hs
  refine ⟨?_, fun hend ho hd => ?_⟩
  · have := run_length h2 hmax hb
    have := progress_le T σ
    omega
  · by_cases hlive : Aborted T σ.leafs
    · exact ⟨hthreads.released_of_aborted hlive, Or.inl hlive⟩
    have hstop : ∀ q < T.nprocs, monitoringFinalize T σ.main σ.net.root.rootFinished q = none := by
      intro q hq
      have := hend (.main q)
      simpa only [sysStep, if_neg hlive, if_pos hq, Option.map_eq_none_iff] using this
    have hidle := stuck_idle h2 hmax hE hn hs hlive hend
    obtain ⟨hrun, -, -, -, -, hfin⟩ := idle_completes h2 hmax hE hn hb hidle ho hd
    rw [hfin] at hstop
    have hquit : ∀ q < T.nprocs, T.isLeaf q = true → (σ.net.leaf q).data.quit ≠ 0 := by
      intro q hq hlq h0
      have hsome : (netStep T maxTimestamps E σ.net (.leaf q 0)).isSome :=
        netStep_isSome_iff.mpr ⟨hrun, hq, hlq, h0⟩
      simp [hidle] at hsome
    have hbarrier : ∀ q < T.nprocs, T.isLeaf q = true → leafBarrier T σ.main σ.leafs q = none := by
      intro q hq hlq
      have := hend (.leafBarrier q)
      simpa only [sysStep, if_neg hlive, if_pos (And.intro hq (And.intro hlq (hquit q hq hlq))),
        Option.map_eq_none_iff] using this
    exact ⟨hfin, Or.inr fun r hr => ⟨destroyed_of_released hstop hr, fun hl => leafs_passed hlive hbarrier hr hl⟩⟩

end

def wholeJob : List SysAct :=
  [.main 0, .main 1, .main 2, .pulse 1 3, .pulse 1 4, .pulse 2 5, .pulse 2 6] ++
    [.terminal 1, .terminal 1, .terminal 2, .terminal 2, .multi 1, .multi 1, .multi 2, .own 0, ActOf.final 8,
      .multi 2, .own 0, ActOf.final 9].map .deliver ++
    [.leafBarrier 1, .leafBarrier 2, .leafBarrier 1, .leafBarrier 2] ++
    [.main 0, .main 1, .main 2, .main 0, .main 0, .main 0, .main 1, .main 1, .main 1, .main 2, .main 2, .main 2]

theorem wholeJob_run :
    ∃ σ, Transition.exec (sysStep twoLeaves 2 (named ["a"])) (sysInit twoLeaves 2) wholeJob = some σ ∧
      σ.net = afterOneAhead ∧ (∀ q < 3, σ.main q = .destroyed) ∧
        ∀ q < 3, twoLeaves.isLeaf q = true → σ.leafs q = .passed :=
  ⟨_, rfl, rfl, by decide, by decide⟩

theorem destroyed_idle_wholeJob : (∀ q < 3, (afterOneAhead.out twoLeaves q).length = 2) ∧
    afterOneAhead.root.printed = [afterOneAhead.root.benchmarkingResults] ∧
      ∀ b, netStep twoLeaves 2 (named ["a"]) afterOneAhead b = none := by
  obtain ⟨σ, hs, hnet, hmain, -⟩ := wholeJob_run
  rw [← hnet]
  exact @destroyed_idle twoLeaves 2 1 (named ["a"]) σ 2 (by decide) (by decide) (counts_named ["a"]) (by decide)
    wholeJob hs (hmain 2 (by decide))

theorem benchmark_ends_wholeJob :
    ∃ σ, Transition.exec (sysStep twoLeaves 2 (named ["a"])) (sysInit twoLeaves 2) wholeJob = some σ ∧
      wholeJob.length ≤ 3 * 3 * 2 + 7 * 3 + 1 ∧
        σ.net.root.rootFinished = true ∧
          (Aborted twoLeaves σ.leafs ∨
            ∀ r < 3, σ.main r = .destroyed ∧ (twoLeaves.isLeaf r = true → σ.leafs r = .passed)) := by
  obtain ⟨σ, hs, hnet, hmain, hleafs⟩ := wholeJob_run
  obtain ⟨hlen, hend⟩ := @benchmark_ends twoLeaves 2 1 (named ["a"]) σ (by decide) (by decide) (counts_named ["a"])
    (by decide) wholeJob hs
  refine ⟨σ, hs, hlen, hend (ended_idle ?_ hmain hleafs) ?_ ?_⟩
  · rw [hnet]
    exact oneAhead_idle
  · rw [hnet]
    exact oneAhead_ordered.1
  · rw [hnet]
    exact oneAhead_ordered.2

end Clarisse.Benchmark
