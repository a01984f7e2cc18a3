import Clarisse.Startup

/-!
# The stones of one rank

What `compute_evpath_addr` and `set_stones_actions` leave behind: every stone has
its action, the queue its output, the bridge leads to the split stone of the parent.
-/

namespace Clarisse.Startup

open EvPath CString

structure Allocated {T : Topology} (R : Registry T) (rank : Nat) (st : NodeState) : Prop where
  multi : st.multiStone = R.stone rank 0
  split : st.splitStone = R.stone rank 1
  terminal : st.terminalStone = R.stone rank 2
  bridge : st.bridgeStone = R.stone rank 3
  agreg : rank = 0 → st.agregTerminalStone = R.stone rank 4
  allocated : st.connMgr.allocated = (List.range (if rank = 0 then 5 else 4)).map (R.stone rank)

structure Wired {T : Topology} (R : Registry T) (rank : Nat) (st : NodeState) : Prop where
  allocated : st.connMgr.allocated.Nodup ∧ (destroyStones T rank st).Perm st.connMgr.allocated
  bridge : rank ≠ 0 → st.connMgr.action st.bridgeStone =
    some (.bridge (R.text (T.parent rank)) (R.stone (T.parent rank) 1))
  splitStone : T.isLeaf rank = false → st.splitStone = R.stone rank 1
  split : T.isLeaf rank = false →
    st.connMgr.action st.splitStone = some (.split [st.terminalStone, st.multiStone])
  terminal : T.isLeaf rank = false → st.connMgr.action st.terminalStone = some (.terminal .computeOwnMetrics)
  multi : T.isLeaf rank = false → st.connMgr.action st.multiStone = some .multi
  output : T.isLeaf rank = false →
    st.connMgr.output st.multiStone = some (if rank = 0 then st.agregTerminalStone else st.bridgeStone)
  final : rank = 0 → st.connMgr.action st.agregTerminalStone = some (.terminal .finalResult)

section
variable {T : Topology} {R : Registry T} {rank : Nat} {st : NodeState}

theorem Registry.stone_ne (R : Registry T) (rank : Nat) {i j : Nat} (h : i ≠ j) (hi : i < 5) (hj : j < 5) :
    R.stone rank i ≠ R.stone rank j :=
  fun he => h (R.stone_inj rank i j hi hj he)

theorem Registry.nodup_stones (R : Registry T) (rank : Nat) {n : Nat} (hn : n ≤ 5) :
    ((List.range n).map (R.stone rank)).Nodup := by
  refine List.nodup_range.map_on ?_
  intro i hi j hj he
  rw [List.mem_range] at hi hj
  exact R.stone_inj rank i j (by omega) (by omega) he

theorem allocStones_allocated (R : Registry T) (rank : Nat) (st : NodeState) :
    Allocated R rank (allocStones R rank st) := by
  by_cases h : rank = 0
  · constructor <;> simp [allocStones, Registry.alloc, h, List.range_succ]
  · constructor <;> simp [allocStones, Registry.alloc, h, List.range_succ]

/-- The three stones of the queue get their actions, and nothing else changes. -/
theorem createMultistone_spec (hst : st.splitStone ≠ st.terminalStone) (hsm : st.splitStone ≠ st.multiStone)
    (htm : st.terminalStone ≠ st.multiStone) :
    ∃ m, createMultistone st = { st with connMgr := m } ∧ m.allocated = st.connMgr.allocated ∧
      m.output = st.connMgr.output ∧ m.action st.splitStone = some (.split [st.terminalStone, st.multiStone]) ∧
      m.action st.terminalStone = some (.terminal .computeOwnMetrics) ∧ m.action st.multiStone = some .multi ∧
      ∀ s, s ≠ st.splitStone → s ≠ st.terminalStone → s ≠ st.multiStone → m.action s = st.connMgr.action s := by
  refine ⟨_, rfl, ?_, ?_, ?_, ?_, ?_, ?_⟩
  · simp
  · simp
  · simp [Manager.assoc_of_ne hsm]
  · simp [Manager.assoc_of_ne htm, Manager.assoc_of_ne hst.symm]
  · simp
  · intro s h1 h2 h3
    simp [Manager.assoc_of_ne h1, Manager.assoc_of_ne h2, Manager.assoc_of_ne h3]

theorem connectParent_eq {p : Nat} (hp : p < T.nprocs) (stringList : Address) :
    connectParent R rank (some (addrText (R.splitStone p) (R.text p))) stringList st =
      let st := if T.isLeaf rank then startLeaf R rank st else st
      let m := st.connMgr.assoc st.bridgeStone (.bridge (R.text p) (R.stone p 1))
      some { st with connMgr := if T.isLeaf rank then m else m.setOutput st.multiStone st.bridgeStone } := by
  have hfit := R.fits p hp
  have hword : (R.contact p).text.toList.length + 1 ≤ addressSize := by
    rw [← String.length_toList, addrText_toList, List.length_append, List.length_cons] at hfit
    omega
  obtain ⟨list, hl⟩ := stringList.put_eq_some hword
  simp [connectParent, Registry.splitStone, Registry.text, scanAddr_addrText, hl,
    Buffer.text_put (R.contact p).plain hl]

theorem setStonesActions_leaf {p : Nat} (hp : p < T.nprocs) (h0 : rank ≠ 0) (hleaf : T.isLeaf rank = true)
    (stringList : Address) (hpar : T.parent rank = p) :
    ∃ st', setStonesActions R rank (some (addrText (R.splitStone p) (R.text p))) stringList st = some st' ∧
      Wired R rank st' := by
  refine ⟨_, by simp only [setStonesActions, if_pos h0, connectParent_eq hp, Option.map_some]; rfl, ?_⟩
  simp only [hleaf, if_true]
  constructor
  · simp [startLeaf, Registry.alloc, destroyStones, hleaf]
  · intro _
    rw [hpar]
    simp
  · exact fun h => absurd hleaf (by simp [h])
  · exact fun h => absurd hleaf (by simp [h])
  · exact fun h => absurd hleaf (by simp [h])
  · exact fun h => absurd hleaf (by simp [h])
  · exact fun h => absurd hleaf (by simp [h])
  · exact fun h => absurd h h0

theorem Allocated.distinct (ha : Allocated R rank st) :
    st.splitStone ≠ st.terminalStone ∧ st.splitStone ≠ st.multiStone ∧ st.terminalStone ≠ st.multiStone ∧
      st.bridgeStone ≠ st.splitStone ∧ st.bridgeStone ≠ st.terminalStone ∧ st.bridgeStone ≠ st.multiStone := by
  rw [ha.multi, ha.split, ha.terminal, ha.bridge]
  refine ⟨?_, ?_, ?_, ?_, ?_, ?_⟩ <;> exact R.stone_ne rank (by decide) (by decide) (by decide)

theorem Allocated.agreg_distinct (ha : Allocated R 0 st) :
    st.agregTerminalStone ≠ st.splitStone ∧ st.agregTerminalStone ≠ st.terminalStone ∧
      st.agregTerminalStone ≠ st.multiStone := by
  rw [ha.multi, ha.split, ha.terminal, ha.agreg rfl]
  refine ⟨?_, ?_, ?_⟩ <;> exact R.stone_ne 0 (by decide) (by decide) (by decide)

theorem Allocated.destroyed (ha : Allocated R rank st) (hleaf : T.isLeaf rank = false) :
    st.connMgr.allocated.Nodup ∧ (destroyStones T rank st).Perm st.connMgr.allocated := by
  rw [ha.allocated]
  refine ⟨R.nodup_stones rank (by split <;> decide), ?_⟩
  by_cases h0 : rank = 0
  · subst h0
    simp [destroyStones, hleaf, ha.multi, ha.split, ha.terminal, ha.bridge, ha.agreg rfl, List.range_succ]
    exact List.Perm.swap ..
  · simp [destroyStones, hleaf, ha.multi, ha.split, ha.terminal, ha.bridge, h0, List.range_succ]

theorem setStonesActions_inner {p : Nat} (hp : p < T.nprocs) (h0 : rank ≠ 0) (hleaf : T.isLeaf rank = false)
    (stringList : Address) (hpar : T.parent rank = p) (ha : Allocated R rank st) :
    ∃ st', setStonesActions R rank (some (addrText (R.splitStone p) (R.text p))) stringList st = some st' ∧
      Wired R rank st' := by
  obtain ⟨hst, hsm, htm, hbs, hbt, hbm⟩ := ha.distinct
  let m := (st.connMgr.assoc st.bridgeStone (.bridge (R.text p) (R.stone p 1))).setOutput st.multiStone st.bridgeStone
  obtain ⟨m', hm, halloc, hout, hsplit, hterm, hmulti, hrest⟩ :=
    @createMultistone_spec { st with connMgr := m } hst hsm htm
  refine ⟨{ st with connMgr := m' }, ?_, ?_⟩
  · simp only [setStonesActions, if_pos h0, connectParent_eq hp, Option.map_some, hleaf]
    exact congrArg some hm
  · constructor
    · rw [halloc]
      exact ha.destroyed hleaf
    · intro _
      rw [hpar]
      refine (hrest st.bridgeStone hbs hbt hbm).trans ?_
      simp [m]
    · exact fun _ => ha.split
    · exact fun _ => hsplit
    · exact fun _ => hterm
    · exact fun _ => hmulti
    · intro _
      rw [if_neg h0, hout]
      simp [m]
    · exact fun h => absurd h h0

theorem setStonesActions_root (stringList : Address) (addr : Option String) (ha : Allocated R 0 st) :
    ∃ st', setStonesActions R 0 addr stringList st = some st' ∧ Wired R 0 st' := by
  obtain ⟨hst, hsm, htm, -⟩ := ha.distinct
  obtain ⟨has, hat, ham⟩ := ha.agreg_distinct
  obtain ⟨m, hm, halloc, hout, hsplit, hterm, hmulti, hrest⟩ :=
    @createMultistone_spec (connectRoot st) hst hsm htm
  refine ⟨{ connectRoot st with connMgr := m }, ?_, ?_⟩
  · simp only [setStonesActions, ne_eq, not_true_eq_false, if_false, Option.map_some, T.root_not_leaf]
    exact congrArg some hm
  · constructor
    · rw [halloc]
      exact ha.destroyed T.root_not_leaf
    · exact fun h => absurd rfl h
    · exact fun _ => ha.split
    · exact fun _ => hsplit
    · exact fun _ => hterm
    · exact fun _ => hmulti
    · intro _
      rw [if_pos rfl, hout]
      simp [connectRoot]
    · intro _
      refine (hrest st.agregTerminalStone has hat ham).trans ?_
      simp [connectRoot]

end

end Clarisse.Startup
