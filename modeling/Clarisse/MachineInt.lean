import Mathlib.Algebra.Ring.Int.Defs
import Mathlib.Algebra.Ring.Nat
import Mathlib.Data.List.Basic
import Mathlib.Tactic.Common

/-!
# Signed 32-bit arithmetic

Results outside the range wrap around. A loop that counts up to a bound ends unless
the bound is the largest number; then no counter is above it.
-/

namespace MachineInt

def intMax : Int := 2 ^ 31 - 1

def wrap (z : Int) : Int := z.bmod (2 ^ 32)

def InRange (z : Int) : Prop := -2 ^ 31 ≤ z ∧ z ≤ intMax

instance (z : Int) : Decidable (InRange z) := inferInstanceAs (Decidable (_ ∧ _))

/-- `for (i = …; i <= bound; ++i) body`, with what it leaves unless `fuel` tests do not suffice. -/
def forLoop {α : Type} (bound : Int) (body : Int → α → α) : Nat → Int → α → Option α
  | 0, _, _ => none
  | fuel + 1, i, acc => if i ≤ bound then forLoop bound body fuel (wrap (i + 1)) (body i acc) else some acc

theorem wrap_eq {z : Int} (h : InRange z) : wrap z = z := by
  unfold InRange intMax at h
  unfold wrap
  rw [Int.bmod_def]
  omega

theorem inRange_wrap (z : Int) : InRange (wrap z) := by
  unfold InRange intMax wrap
  rw [Int.bmod_def]
  omega

section
variable {α : Type} {bound : Int} {body : Int → α → α}

theorem forLoop_of_lt (hb : bound < intMax) : ∀ (m i : Nat) (acc : α) (fuel : Nat), (i : Int) + m = bound + 1 →
    forLoop bound body fuel i acc =
      if m < fuel then some ((List.range' i m).foldl (fun acc (j : Nat) => body j acc) acc) else none
  | _, _, _, 0, _ => rfl
  | 0, i, acc, fuel + 1, h => by
    have hi : ¬ (i : Int) ≤ bound := by omega
    rw [forLoop, if_neg hi, if_pos (Nat.succ_pos _)]
    rfl
  | m + 1, i, acc, fuel + 1, h => by
    have hi : (i : Int) ≤ bound := by omega
    have hw : wrap ((i : Int) + 1) = ((i + 1 : Nat) : Int) := by
      rw [wrap_eq ⟨by omega, by omega⟩]
      rfl
    rw [forLoop, if_pos hi, hw, forLoop_of_lt hb m (i + 1) _ fuel (by omega), List.range'_succ, List.foldl_cons]
    simp only [Nat.succ_lt_succ_iff]

theorem forLoop_diverges (hb : intMax ≤ bound) : ∀ (fuel : Nat) (i : Int) (acc : α), i ≤ intMax →
    forLoop bound body fuel i acc = none
  | 0, _, _, _ => rfl
  | fuel + 1, i, acc, hi => by
    rw [forLoop, if_pos (Int.le_trans hi hb)]
    exact forLoop_diverges hb fuel _ _ (inRange_wrap _).2

theorem forLoop_one (h0 : 0 ≤ bound) (hb : bound < intMax) (acc : α) (fuel : Nat) :
    forLoop bound body fuel 1 acc =
      if bound.toNat < fuel then some ((List.range' 1 bound.toNat).foldl (fun acc (j : Nat) => body j acc) acc)
      else none :=
  forLoop_of_lt hb bound.toNat 1 acc fuel (by omega)

theorem forLoop_ends (body : Int → α → α) (h0 : 0 ≤ bound) (hb : bound < intMax) (acc : α) :
    forLoop bound body (bound.toNat + 1) 1 acc =
      some ((List.range' 1 bound.toNat).foldl (fun acc (j : Nat) => body j acc) acc) := by
  rw [forLoop_one h0 hb, if_pos (Nat.lt_succ_self _)]

theorem eq_of_forLoop {acc r : α} {fuel : Nat} (h0 : 0 ≤ bound) (h : forLoop bound body fuel 1 acc = some r) :
    bound < intMax ∧ r = (List.range' 1 bound.toNat).foldl (fun acc (j : Nat) => body j acc) acc := by
  have hb : bound < intMax := by
    by_contra hle
    rw [forLoop_diverges (Int.not_lt.mp hle) fuel 1 acc (by decide)] at h
    cases h
  refine ⟨hb, ?_⟩
  rw [forLoop_one h0 hb] at h
  split at h
  · exact (Option.some.inj h).symm
  · cases h

end

end MachineInt
