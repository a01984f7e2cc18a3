import Mathlib.Order.Interval.Finset.Nat
import Mathlib.Tactic.Common
import Mathlib.Tactic.Ring

/-!
# The rank tree

Ranks form a heap-shaped tree: the children of `r` are `r * max_degree + i` for
`i` from 1 to `max_degree`, as far as they are below `nprocs`. `isLeaf`,
`getParent` and `getDegreeNode` are the three functions of helpers.c; the
degree loop is also the one of the CoD script, on the values an event carries.
-/

namespace Clarisse

def degreeLoop (rank maxDegree nprocs : Int) : Nat :=
  (List.range' 1 maxDegree.toNat).countP fun (i : Nat) => rank * maxDegree + i < nprocs

/-- `MPI_Comm_size` and `max_degree`. -/
structure Topology where
  nprocs : Nat
  maxDegree : Nat
  nprocs_pos : 1 ≤ nprocs
  maxDegree_pos : 1 ≤ maxDegree

namespace Topology

def isLeaf (T : Topology) (rank : Nat) : Bool :=
  decide (rank * T.maxDegree + 1 ≥ T.nprocs) && decide (T.nprocs > 1)

/-- C division, so that rank 0 with `max_degree` 1 gets -1. -/
def getParent (T : Topology) (rank : Nat) : Int :=
  ((rank : Int) - 1).tdiv T.maxDegree

def getDegreeNode (T : Topology) (rank : Nat) : Nat :=
  degreeLoop rank T.maxDegree T.nprocs

/-- The parent of a rank above 0, as a rank. -/
def parent (T : Topology) (rank : Nat) : Nat := (rank - 1) / T.maxDegree

/-- The ranks `r * max_degree + i` for `i` from 1 to the degree of `r`. -/
def children (T : Topology) (r : Nat) : Finset Nat :=
  Finset.Ico (r * T.maxDegree + 1) (r * T.maxDegree + 1 + T.getDegreeNode r)

end Topology

/-! ## The degree loop -/

theorem count_below (a n : Int) (d : Nat) :
    ((List.range' 1 d).countP fun (i : Nat) => a + i < n) = min d (n - 1 - a).toNat := by
  induction d with
  | zero => simp
  | succ d ih =>
    rw [List.range'_concat, List.countP_append, ih]
    by_cases h : a + ((1 + 1 * d : Nat) : Int) < n
    · rw [List.countP_singleton, if_pos (by simpa using h)]; omega
    · rw [List.countP_singleton, if_neg (by simpa using h)]; omega

theorem degreeLoop_eq (rank maxDegree nprocs : Int) :
    degreeLoop rank maxDegree nprocs = min maxDegree.toNat (nprocs - 1 - rank * maxDegree).toNat :=
  count_below _ _ _

theorem degreeLoop_anti {r r' d n : Int} (hd : 0 ≤ d) (h : r ≤ r') : degreeLoop r' d n ≤ degreeLoop r d n := by
  rw [degreeLoop_eq, degreeLoop_eq]
  have := Int.mul_le_mul_of_nonneg_right h hd
  omega

namespace Topology

section
variable (T : Topology)

theorem degree_eq (r : Nat) : T.getDegreeNode r = min T.maxDegree (T.nprocs - 1 - r * T.maxDegree) := by
  rw [getDegreeNode, degreeLoop_eq]
  have : ((r : Int) * (T.maxDegree : Int)) = ((r * T.maxDegree : Nat) : Int) := by simp
  rw [this]
  omega

theorem getParent_pos {r : Nat} (hr : 0 < r) : T.getParent r = T.parent r := by
  obtain ⟨k, rfl⟩ : ∃ k, r = k + 1 := ⟨r - 1, by omega⟩
  have : ((k + 1 : Nat) : Int) - 1 = (k : Int) := by omega
  rw [getParent, this, parent, Nat.add_sub_cancel]
  rfl

theorem card_children (r : Nat) : (T.children r).card = T.getDegreeNode r := by
  rw [children, Nat.card_Ico]; omega

theorem mem_children {r c : Nat} : c ∈ T.children r ↔ 0 < c ∧ c < T.nprocs ∧ T.parent c = r := by
  have hd := T.maxDegree_pos
  rw [children, Finset.mem_Ico, degree_eq, parent]
  refine ⟨?_, ?_⟩
  · rintro ⟨h1, h2⟩
    refine ⟨by omega, by omega, ?_⟩
    apply Nat.div_eq_of_lt_le
    · omega
    · rw [Nat.succ_mul]; omega
  · rintro ⟨h1, h2, rfl⟩
    have h3 := Nat.div_mul_le_self (c - 1) T.maxDegree
    have h4 : c - 1 < ((c - 1) / T.maxDegree + 1) * T.maxDegree := by
      rw [Nat.mul_comm]; exact Nat.lt_mul_div_succ _ hd
    rw [Nat.succ_mul] at h4
    omega

theorem parent_lt {c : Nat} (hc : 0 < c) : T.parent c < c :=
  Nat.lt_of_le_of_lt (Nat.div_le_self _ _) (by omega)

theorem isLeaf_iff (h2 : 2 ≤ T.nprocs) (r : Nat) : T.isLeaf r = true ↔ T.getDegreeNode r = 0 := by
  have hd := T.maxDegree_pos
  rw [degree_eq, isLeaf]
  simp only [ge_iff_le, gt_iff_lt, Bool.and_eq_true, decide_eq_true_eq]
  omega

theorem degree_pos_iff (h2 : 2 ≤ T.nprocs) (r : Nat) : 0 < T.getDegreeNode r ↔ T.isLeaf r = false := by
  rw [Nat.pos_iff_ne_zero, ne_eq, ← T.isLeaf_iff h2 r, Bool.not_eq_true]

theorem root_not_leaf : T.isLeaf 0 = false := by
  simp [isLeaf]

theorem parent_not_leaf {c : Nat} (hc : 0 < c) (hn : c < T.nprocs) : T.isLeaf (T.parent c) = false := by
  have hm : c ∈ T.children (T.parent c) := T.mem_children.mpr ⟨hc, hn, rfl⟩
  rw [children, Finset.mem_Ico] at hm
  rw [← T.degree_pos_iff (by omega)]
  omega

theorem lt_of_mem_children {r c : Nat} (h : c ∈ T.children r) : r < c ∧ c < T.nprocs := by
  obtain ⟨h1, h2, rfl⟩ := T.mem_children.mp h
  exact ⟨T.parent_lt h1, h2⟩

theorem child_induction {P : Nat → Prop} (h : ∀ r < T.nprocs, (∀ c ∈ T.children r, P c) → P r) :
    ∀ r < T.nprocs, P r := by
  have key : ∀ k r, r < T.nprocs → T.nprocs - r ≤ k → P r := by
    intro k
    induction k with
    | zero => intro r hr hk; omega
    | succ k ih =>
      intro r hr hk
      refine h r hr fun c hc => ?_
      have := T.lt_of_mem_children hc
      exact ih c this.2 (by omega)
  exact fun r hr => key _ r hr (Nat.le_refl _)

/-! ## The three functions agree -/

theorem getParent_eq_iff {r c : Nat} (hc : 0 < c) (hn : c < T.nprocs) : T.getParent c = r ↔ c ∈ T.children r := by
  rw [T.getParent_pos hc, mem_children, Int.natCast_inj]
  simp [hc, hn]

theorem mem_children_iff {r c : Nat} :
    c ∈ T.children r ↔ ∃ i, 1 ≤ i ∧ i ≤ T.getDegreeNode r ∧ c = r * T.maxDegree + i := by
  rw [children, Finset.mem_Ico]
  refine ⟨?_, ?_⟩
  · rintro ⟨h1, h2⟩
    exact ⟨c - r * T.maxDegree, by omega, by omega, by omega⟩
  · rintro ⟨i, h1, h2, rfl⟩
    omega

theorem children_eq_filter (r : Nat) :
    (Finset.range T.nprocs).filter (fun c => 0 < c ∧ T.getParent c = r) = T.children r := by
  ext c
  rw [Finset.mem_filter, Finset.mem_range]
  refine ⟨?_, ?_⟩
  · rintro ⟨hn, h0, hp⟩
    exact (T.getParent_eq_iff h0 hn).mp hp
  · intro hc
    obtain ⟨h0, hn, -⟩ := T.mem_children.mp hc
    exact ⟨hn, h0, (T.getParent_eq_iff h0 hn).mpr hc⟩

/-- `up` goes from `r` to its parent and on to the root in `k` steps. -/
structure Ascends (r k : Nat) (up : Nat → Nat) : Prop where
  start : up 0 = r
  root : up k = 0
  step : ∀ j < k, T.getParent (up j) = up (j + 1) ∧ T.isLeaf (up (j + 1)) = false

theorem ascends (r : Nat) (hr : r < T.nprocs) : ∃ k up, T.Ascends r k up := by
  induction r using Nat.strong_induction_on with
  | _ r ih =>
    rcases Nat.eq_zero_or_pos r with h0 | h0
    · exact ⟨0, fun _ => 0, h0.symm, rfl, fun j hj => absurd hj (Nat.not_lt_zero j)⟩
    · have hlt := T.parent_lt h0
      obtain ⟨k, up, hstart, hroot, hstep⟩ := ih (T.parent r) hlt (Nat.lt_trans hlt hr)
      refine ⟨k + 1, fun j => Nat.casesOn j r up, rfl, hroot, ?_⟩
      intro j hj
      cases j with
      | zero =>
        show T.getParent r = up 0 ∧ T.isLeaf (up 0) = false
        rw [hstart]
        exact ⟨T.getParent_pos h0, T.parent_not_leaf h0 hr⟩
      | succ j => exact hstep j (by omega)

/-- The ranks form a tree, and the parent, the degree and the leaf test agree on it. -/
theorem ranks_form_tree (h2 : 2 ≤ T.nprocs) :
    (∀ r c, r < T.nprocs → 0 < c → c < T.nprocs →
      (T.getParent c = r ↔ ∃ i, 1 ≤ i ∧ i ≤ T.getDegreeNode r ∧ c = r * T.maxDegree + i)) ∧
    (∀ c, 0 < c → c < T.nprocs →
      ∃! r, r < T.nprocs ∧ ∃ i, 1 ≤ i ∧ i ≤ T.getDegreeNode r ∧ c = r * T.maxDegree + i) ∧
    (∀ r < T.nprocs,
      ((Finset.range T.nprocs).filter fun c => 0 < c ∧ T.getParent c = r).card = T.getDegreeNode r) ∧
    (∀ r < T.nprocs, T.isLeaf r = true ↔ T.getDegreeNode r = 0) ∧
    ∀ r < T.nprocs, ∃ k up, T.Ascends r k up := by
  refine ⟨?_, ?_, ?_, fun r _ => T.isLeaf_iff h2 r, T.ascends⟩
  · intro r c _ h0 hn
    rw [T.getParent_eq_iff h0 hn, mem_children_iff]
  · intro c h0 hn
    refine ⟨T.parent c, ⟨Nat.lt_trans (T.parent_lt h0) hn, ?_⟩, ?_⟩
    · rw [← mem_children_iff]
      exact T.mem_children.mpr ⟨h0, hn, rfl⟩
    · rintro r ⟨-, hr⟩
      rw [← mem_children_iff] at hr
      exact (T.mem_children.mp hr).2.2.symm
  · intro r _
    rw [children_eq_filter, card_children]

end

end Topology

def twoLeaves : Topology := ⟨3, 2, by decide, by decide⟩

def threeLeaves : Topology := ⟨4, 3, by decide, by decide⟩

def chain : Topology := ⟨3, 1, by decide, by decide⟩

theorem ranks_form_tree_chain :
    2 ≤ chain.nprocs ∧
    (∀ r c, r < chain.nprocs → 0 < c → c < chain.nprocs →
      (chain.getParent c = r ↔ ∃ i, 1 ≤ i ∧ i ≤ chain.getDegreeNode r ∧ c = r * chain.maxDegree + i)) ∧
    (∀ c, 0 < c → c < chain.nprocs →
      ∃! r, r < chain.nprocs ∧ ∃ i, 1 ≤ i ∧ i ≤ chain.getDegreeNode r ∧ c = r * chain.maxDegree + i) ∧
    (∀ r < chain.nprocs,
      ((Finset.range chain.nprocs).filter fun c => 0 < c ∧ chain.getParent c = r).card = chain.getDegreeNode r) ∧
    (∀ r < chain.nprocs, chain.isLeaf r = true ↔ chain.getDegreeNode r = 0) ∧
    ∀ r < chain.nprocs, ∃ k up, chain.Ascends r k up :=
  ⟨by decide, chain.ranks_form_tree (by decide)⟩

end Clarisse
