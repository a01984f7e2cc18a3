import Clarisse.MachineInt
import Clarisse.Topology

/-!
# The rank tree in 32 bits

The functions of helpers.c and the degree loop of the CoD script on machine
integers. Every `rank * max_degree + i` that they evaluate is watched.
-/

namespace Clarisse

open MachineInt

def childIndex (rank maxDegree i : Int) : Int := wrap (wrap (rank * maxDegree) + i)

def childOverflow (rank maxDegree i : Int) : Bool :=
  !decide (InRange (rank * maxDegree)) || !decide (InRange (wrap (rank * maxDegree) + i))

/-- The result of a function, and whether an evaluation of a child's rank overflowed. -/
structure Watched (α : Type) where
  result : α
  overflow : Bool
  deriving DecidableEq, Repr

def isLeaf32 (rank maxDegree nprocs : Int) : Watched Bool where
  result := decide (childIndex rank maxDegree 1 ≥ nprocs) && decide (nprocs > 1)
  overflow := childOverflow rank maxDegree 1

def degreeBody (rank maxDegree nprocs i : Int) (acc : Watched Int) : Watched Int where
  result := if childIndex rank maxDegree i < nprocs then wrap (acc.result + 1) else acc.result
  overflow := acc.overflow || childOverflow rank maxDegree i

/-- The degree loop, with `fuel` tests. -/
def degreeLoop32 (rank maxDegree nprocs : Int) (fuel : Nat) : Option (Watched Int) :=
  forLoop maxDegree (degreeBody rank maxDegree nprocs) fuel 1 ⟨0, false⟩

def sendBody (rank maxDegree i : Int) (acc : Watched (List Int)) : Watched (List Int) where
  result := acc.result ++ [childIndex rank maxDegree i]
  overflow := acc.overflow || childOverflow rank maxDegree i

/-- The destinations of `send_addr_to_children`; `degree` is what `get_degree_node`
returns at each test. -/
def sendAddr32 (rank maxDegree degree : Int) (fuel : Nat) : Option (Watched (List Int)) :=
  forLoop degree (sendBody rank maxDegree) fuel 1 ⟨[], false⟩

def Ends {α : Type} (run : Nat → Option (Watched α)) (result : α) : Prop := ∃ fuel, run fuel = some ⟨result, false⟩

/-- What a rank evaluates of its children fits, and is what it is over unbounded
integers. An event in the stone of a rank carries it or its parent. -/
structure FitsInt (T : Topology) (rank : Nat) : Prop where
  isLeaf : isLeaf32 rank T.maxDegree T.nprocs = ⟨T.isLeaf rank, false⟩
  degree : Ends (degreeLoop32 rank T.maxDegree T.nprocs) (T.getDegreeNode rank)
  send : Ends (sendAddr32 rank T.maxDegree (T.getDegreeNode rank))
    ((List.range' 1 (T.getDegreeNode rank)).map fun (i : Nat) => (rank : Int) * T.maxDegree + i)
  multi : ∀ parentRank : Int, parentRank = rank ∨ parentRank = T.getParent rank →
    Ends (degreeLoop32 parentRank T.maxDegree T.nprocs) (degreeLoop parentRank T.maxDegree T.nprocs)

section
variable {rank d n i : Int}

theorem childOverflow_iff (hr : -1 ≤ rank) (hd : 1 ≤ d) (hd' : d ≤ intMax) (hi : 1 ≤ i) :
    childOverflow rank d i = false ↔ rank * d + i ≤ intMax := by
  have hlow : -1 * d ≤ rank * d := Int.mul_le_mul_of_nonneg_right hr (by omega)
  have hb : intMax = 2 ^ 31 - 1 := rfl
  simp only [childOverflow, Bool.or_eq_false_iff, Bool.not_eq_false', decide_eq_true_eq]
  constructor
  · rintro ⟨h1, h2⟩
    rw [wrap_eq h1] at h2
    exact h2.2
  · intro h
    have h1 : InRange (rank * d) := ⟨by omega, by omega⟩
    rw [wrap_eq h1]
    exact ⟨h1, by omega, h⟩

theorem childIndex_eq (h : childOverflow rank d i = false) : childIndex rank d i = rank * d + i := by
  simp only [childOverflow, Bool.or_eq_false_iff, Bool.not_eq_false', decide_eq_true_eq] at h
  obtain ⟨h1, h2⟩ := h
  rw [childIndex]
  rw [wrap_eq h1] at h2 ⊢
  exact wrap_eq h2

/-! ## The loops -/

theorem foldl_degree_overflow (l : List Nat) (acc : Watched Int) :
    (l.foldl (fun acc (j : Nat) => degreeBody rank d n j acc) acc).overflow =
      (acc.overflow || l.any fun (j : Nat) => childOverflow rank d j) := by
  induction l generalizing acc with
  | nil => simp
  | cons j l ih => rw [List.foldl_cons, ih, degreeBody, List.any_cons, Bool.or_assoc]

theorem foldl_degree {l : List Nat} (h : ∀ j ∈ l, childOverflow rank d (j : Int) = false) {k : Nat}
    (hk : ((k + l.length : Nat) : Int) ≤ intMax) :
    l.foldl (fun acc (j : Nat) => degreeBody rank d n j acc) ⟨k, false⟩ =
      ⟨((k + l.countP fun (j : Nat) => rank * d + j < n : Nat) : Int), false⟩ := by
  induction l generalizing k with
  | nil => rfl
  | cons j l ih =>
    have hj := h j (by simp)
    have hl : ∀ i ∈ l, childOverflow rank d (i : Int) = false := fun i hi => h i (List.mem_cons_of_mem _ hi)
    rw [List.length_cons] at hk
    rw [List.foldl_cons, degreeBody, childIndex_eq hj, hj, List.countP_cons]
    by_cases hlt : rank * d + j < n
    · have hw : wrap ((k : Int) + 1) = ((k + 1 : Nat) : Int) := by
        rw [wrap_eq ⟨by omega, by omega⟩]
        rfl
      simp only [if_pos hlt, hw, Bool.or_false]
      rw [ih hl (by omega)]
      simp [hlt]
      omega
    · simp only [if_neg hlt, Bool.or_false]
      rw [ih hl (by omega)]
      simp [hlt]

theorem foldl_send {l : List Nat} (h : ∀ j ∈ l, childOverflow rank d (j : Int) = false) (sent : List Int) :
    l.foldl (fun acc (j : Nat) => sendBody rank d j acc) ⟨sent, false⟩ =
      ⟨sent ++ l.map fun (j : Nat) => rank * d + j, false⟩ := by
  induction l generalizing sent with
  | nil => simp
  | cons j l ih =>
    have hj := h j (by simp)
    rw [List.foldl_cons, sendBody, childIndex_eq hj, hj, Bool.or_false,
      ih (fun i hi => h i (List.mem_cons_of_mem _ hi)), List.map_cons, List.append_assoc]
    rfl

theorem degreeLoop32_ends (hr : -1 ≤ rank) (hd : 1 ≤ d) (hd' : d < intMax) (h : rank * d + d ≤ intMax) :
    Ends (degreeLoop32 rank d n) (degreeLoop rank d n) := by
  refine ⟨d.toNat + 1, ?_⟩
  rw [degreeLoop32, forLoop_ends _ (by omega) hd']
  have hfit : ∀ j ∈ List.range' 1 d.toNat, childOverflow rank d (j : Int) = false := by
    intro j hj
    rw [List.mem_range'_1] at hj
    rw [childOverflow_iff hr hd (by omega) (by omega)]
    omega
  have := foldl_degree (n := n) hfit (k := 0) (by rw [List.length_range']; omega)
  rw [Nat.zero_add] at this
  exact congrArg some this

theorem le_of_degreeLoop32 (hr : -1 ≤ rank) (hd : 1 ≤ d) (hd' : d ≤ intMax) {k : Int}
    (h : Ends (degreeLoop32 rank d n) k) : d < intMax ∧ rank * d + d ≤ intMax := by
  obtain ⟨fuel, hf⟩ := h
  obtain ⟨hlt, he⟩ := eq_of_forLoop (by omega) hf
  refine ⟨hlt, ?_⟩
  have hov := congrArg Watched.overflow he
  rw [foldl_degree_overflow] at hov
  have hlast : childOverflow rank d d = false := by
    have := List.any_eq_false.mp hov.symm d.toNat (List.mem_range'_1.mpr (by omega))
    rw [Int.toNat_of_nonneg (by omega)] at this
    simpa using this
  exact (childOverflow_iff hr hd hd' hd).mp hlast

theorem degreeLoop32_diverges (hd : intMax ≤ d) (fuel : Nat) : degreeLoop32 rank d n fuel = none :=
  forLoop_diverges hd fuel 1 _ (by decide)

theorem sendAddr32_ends {k : Nat} (hr : -1 ≤ rank) (hd : 1 ≤ d) (hd' : d < intMax) (h : rank * d + d ≤ intMax)
    (hk : (k : Int) ≤ d) :
    Ends (sendAddr32 rank d k) ((List.range' 1 k).map fun (i : Nat) => rank * d + i) := by
  refine ⟨k + 1, ?_⟩
  have hfit : ∀ j ∈ List.range' 1 k, childOverflow rank d (j : Int) = false := by
    intro j hj
    rw [List.mem_range'_1] at hj
    rw [childOverflow_iff hr hd (by omega) (by omega)]
    omega
  have hends := forLoop_ends (sendBody rank d) (Int.natCast_nonneg k) (by omega) ⟨[], false⟩
  rw [Int.toNat_natCast, foldl_send hfit, List.nil_append] at hends
  exact hends

end

section
variable {T : Topology}

theorem getParent_bounds (T : Topology) (rank : Nat) : -1 ≤ T.getParent rank ∧ T.getParent rank ≤ rank := by
  rcases Nat.eq_zero_or_pos rank with rfl | h0
  · have hd := T.maxDegree_pos
    have h : T.getParent 0 = -((1 : Int).tdiv T.maxDegree) := by
      rw [Topology.getParent, ← Int.neg_tdiv]
      rfl
    have h1 : 0 ≤ (1 : Int).tdiv T.maxDegree := Int.tdiv_nonneg (by decide) (by omega)
    have h2 : (1 : Int).tdiv T.maxDegree ≤ 1 := Int.tdiv_le_self _ (by decide)
    omega
  · rw [T.getParent_pos h0]
    have := T.parent_lt h0
    omega

theorem isLeaf32_eq {rank : Nat} (h : childOverflow rank T.maxDegree 1 = false) :
    isLeaf32 rank T.maxDegree T.nprocs = ⟨T.isLeaf rank, false⟩ := by
  rw [isLeaf32, childIndex_eq h, h, Topology.isLeaf]
  congr 2
  · exact decide_eq_decide.mpr (by omega)
  · exact decide_eq_decide.mpr (by omega)

end

theorem fitsInt_iff (T : Topology) (rank : Nat) (hd : (T.maxDegree : Int) ≤ intMax) :
    FitsInt T rank ↔ ((rank * T.maxDegree + T.maxDegree : Nat) : Int) ≤ intMax ∧ (T.maxDegree : Int) < intMax := by
  have hd1 : 1 ≤ (T.maxDegree : Int) := by exact_mod_cast T.maxDegree_pos
  have hr : -1 ≤ (rank : Int) := by omega
  push_cast
  constructor
  · intro h
    obtain ⟨h1, h2⟩ := le_of_degreeLoop32 hr hd1 hd h.degree
    exact ⟨h2, h1⟩
  · rintro ⟨h2, h1⟩
    have hdeg : (T.getDegreeNode rank : Int) ≤ T.maxDegree := by
      rw [T.degree_eq]
      omega
    refine ⟨isLeaf32_eq ?_, degreeLoop32_ends hr hd1 h1 h2, sendAddr32_ends hr hd1 h1 h2 hdeg, ?_⟩
    · rw [childOverflow_iff hr hd1 hd (Int.le_refl 1)]
      omega
    · intro parentRank hp
      obtain ⟨hp1, hp2⟩ := getParent_bounds T rank
      have hbounds : -1 ≤ parentRank ∧ parentRank ≤ rank := by omega
      have hmul : parentRank * T.maxDegree ≤ rank * T.maxDegree :=
        Int.mul_le_mul_of_nonneg_right hbounds.2 (by omega)
      exact degreeLoop32_ends hbounds.1 hd1 h1 (by omega)

/-- All ranks together: the product of the size and the degree fits. -/
theorem topology_fitsInt_iff (T : Topology) (hd : (T.maxDegree : Int) ≤ intMax) :
    (∀ rank < T.nprocs, FitsInt T rank) ↔
      ((T.nprocs * T.maxDegree : Nat) : Int) ≤ intMax ∧ (T.maxDegree : Int) < intMax := by
  have h1 := T.nprocs_pos
  have hlast : (T.nprocs - 1) * T.maxDegree + T.maxDegree = T.nprocs * T.maxDegree := by
    rw [← Nat.succ_mul, Nat.succ_eq_add_one, Nat.sub_add_cancel h1]
  constructor
  · intro h
    have := (fitsInt_iff T (T.nprocs - 1) hd).mp (h _ (by omega))
    rwa [hlast] at this
  · rintro ⟨h2, h3⟩ rank hr
    have hmul : rank * T.maxDegree ≤ (T.nprocs - 1) * T.maxDegree := Nat.mul_le_mul_right _ (by omega)
    exact (fitsInt_iff T rank hd).mpr ⟨by omega, h3⟩

theorem topology_fitsInt_iff_chain : (∀ rank < chain.nprocs, FitsInt chain rank) ↔
    ((chain.nprocs * chain.maxDegree : Nat) : Int) ≤ intMax ∧ (chain.maxDegree : Int) < intMax :=
  topology_fitsInt_iff chain (by decide)

theorem not_fitsInt_star : ¬ ∀ T : Topology, (T.nprocs : Int) ≤ intMax → (T.maxDegree : Int) ≤ intMax →
    ∀ rank < T.nprocs, FitsInt T rank := by
  intro h
  have hfit := h ⟨3, 2 ^ 31 - 1, by decide, by decide⟩ (by decide) (by decide) 1 (by decide)
  exact absurd (congrArg Watched.overflow hfit.isLeaf) (by decide)

end Clarisse
