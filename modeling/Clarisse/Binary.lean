import Mathlib.Algebra.Order.Field.Rat
import Mathlib.Tactic.Linarith
import Mathlib.Tactic.Positivity
import Mathlib.Tactic.Ring

/-!
# Binary interchange formats

The value that a bit pattern denotes, the order of the denoted values, and exact
sums. A pattern is a sign bit, an exponent and a fraction, read as one number;
finite values are multiples of the smallest positive one. On patterns without a
sign bit the values are ordered as the numbers are, and added as the numbers are
up to twice the first normal pattern and no further.
-/

namespace Binary

structure Format where
  fractionBits : Nat
  exponentBits : Nat
  two_le : 2 ≤ exponentBits

inductive Value where
  | nan
  | inf (negative : Bool)
  | finite (q : Rat)
  deriving DecidableEq, Repr

namespace Value

def Lt : Value → Value → Prop
  | nan, _ => False
  | _, nan => False
  | inf s, inf t => s = true ∧ t = false
  | inf s, finite _ => s = true
  | finite _, inf t => t = false
  | finite q, finite r => q < r

instance : ∀ v w, Decidable (Lt v w)
  | nan, _ => isFalse id
  | inf _, nan => isFalse id
  | finite _, nan => isFalse id
  | inf s, inf t => inferInstanceAs (Decidable (s = true ∧ t = false))
  | inf s, finite _ => inferInstanceAs (Decidable (s = true))
  | finite _, inf t => inferInstanceAs (Decidable (t = false))
  | finite q, finite r => inferInstanceAs (Decidable (q < r))

def add : Value → Value → Value
  | nan, _ => nan
  | _, nan => nan
  | inf s, inf t => if s = t then inf s else nan
  | inf s, finite _ => inf s
  | finite _, inf t => inf t
  | finite q, finite r => finite (q + r)

end Value

/-- The magnitude of a finite pattern without its sign bit, in units of the smallest positive value. -/
def scaled (fractionBits n : Nat) : Nat :=
  if n / 2 ^ fractionBits = 0 then n
  else (2 ^ fractionBits + n % 2 ^ fractionBits) * 2 ^ (n / 2 ^ fractionBits - 1)

def gap (fractionBits n : Nat) : Nat := 2 ^ (n / 2 ^ fractionBits - 1)

namespace Format

variable (f : Format)

def signBit : Nat := 2 ^ (f.exponentBits + f.fractionBits)

def unit : Nat := 2 ^ (2 ^ (f.exponentBits - 1) - 1 + f.fractionBits - 1)

/-- The pattern of infinity; those above it, without a sign bit, are not numbers. -/
def infinity : Nat := (2 ^ f.exponentBits - 1) * 2 ^ f.fractionBits

def negative (n : Nat) : Bool := decide (f.signBit ≤ n)

def decode (n : Nat) : Value :=
  let low := n % f.signBit
  if low < f.infinity then
    .finite (if f.negative n then -(scaled f.fractionBits low / f.unit) else scaled f.fractionBits low / f.unit)
  else if low = f.infinity then .inf (f.negative n)
  else .nan

/-- `z` is the pattern of the sum of the values of `a` and `b`, which needs no rounding. A sum
of zero is negative when both summands are. -/
structure IsSum (a b z : Nat) : Prop where
  bound : z < 2 * f.signBit
  number : f.decode z ≠ .nan
  value : f.decode z = (f.decode a).add (f.decode b)
  sign : f.decode z = .finite 0 → f.negative z = (f.negative a && f.negative b)

end Format

/-! ## Magnitudes -/

section
variable {p : Nat}

theorem scaled_succ (n : Nat) : scaled p (n + 1) = scaled p n + gap p n := by
  have hpos : 0 < 2 ^ p := Nat.two_pow_pos p
  have hn := Nat.div_add_mod n (2 ^ p)
  have hm := Nat.mod_lt n hpos
  unfold scaled gap
  by_cases hlast : n % 2 ^ p + 1 < 2 ^ p
  · -- the next pattern has the same exponent
    have hd : (n + 1) / 2 ^ p = n / 2 ^ p := by
      refine Nat.div_eq_of_lt_le ?_ ?_
      · rw [Nat.mul_comm]
        omega
      · rw [Nat.mul_comm, Nat.mul_add]
        omega
    have hr : (n + 1) % 2 ^ p = n % 2 ^ p + 1 := by
      have h1 := Nat.div_add_mod (n + 1) (2 ^ p)
      rw [hd] at h1
      omega
    rw [hd, hr]
    by_cases h0 : n / 2 ^ p = 0
    · rw [if_pos h0, if_pos h0, h0]
      rfl
    · rw [if_neg h0, if_neg h0]
      ring
  · -- the next pattern starts the next binade
    have hfull : n + 1 = 2 ^ p * (n / 2 ^ p + 1) := by
      rw [Nat.mul_add]
      omega
    have hd : (n + 1) / 2 ^ p = n / 2 ^ p + 1 := by
      rw [hfull, Nat.mul_div_cancel_left _ hpos]
    have hr : (n + 1) % 2 ^ p = 0 := by
      rw [hfull, Nat.mul_mod_right]
    rw [hd, hr, if_neg (Nat.succ_ne_zero _), Nat.add_sub_cancel]
    by_cases h0 : n / 2 ^ p = 0
    · rw [if_pos h0, h0]
      have : n + 1 = 2 ^ p := by rw [hfull, h0]; ring
      simpa using this.symm
    · rw [if_neg h0]
      have hpow : 2 ^ (n / 2 ^ p) = 2 * 2 ^ (n / 2 ^ p - 1) := by
        rw [← Nat.pow_succ', Nat.succ_eq_add_one, Nat.sub_add_cancel (Nat.one_le_iff_ne_zero.mpr h0)]
      have hfrac : n % 2 ^ p + 1 = 2 ^ p := by omega
      calc (2 ^ p + 0) * 2 ^ (n / 2 ^ p)
          = (2 ^ p + (n % 2 ^ p + 1)) * 2 ^ (n / 2 ^ p - 1) := by rw [hpow, hfrac]; ring
        _ = (2 ^ p + n % 2 ^ p) * 2 ^ (n / 2 ^ p - 1) + 2 ^ (n / 2 ^ p - 1) := by ring

theorem gap_pos (n : Nat) : 0 < gap p n := Nat.two_pow_pos _

theorem gap_mono {m n : Nat} (h : m ≤ n) : gap p m ≤ gap p n :=
  Nat.pow_le_pow_right (by decide) (Nat.sub_le_sub_right (Nat.div_le_div_right h) 1)

theorem gap_small {n : Nat} (h : n < 2 ^ (p + 1)) : gap p n = 1 := by
  have : n / 2 ^ p < 2 := Nat.div_lt_of_lt_mul (by rwa [Nat.pow_succ] at h)
  unfold gap
  rw [show n / 2 ^ p - 1 = 0 by omega]
  rfl

theorem gap_large {n : Nat} (h : 2 ^ (p + 1) ≤ n) : 2 ≤ gap p n := by
  have hd : 2 ≤ n / 2 ^ p := by
    rw [Nat.le_div_iff_mul_le (Nat.two_pow_pos p)]
    rwa [Nat.pow_succ, Nat.mul_comm] at h
  calc 2 = 2 ^ 1 := rfl
    _ ≤ gap p n := Nat.pow_le_pow_right (by decide) (by omega)

@[simp] theorem scaled_zero : scaled p 0 = 0 := by
  simp [scaled]

theorem scaled_strictMono : StrictMono (scaled p) := by
  apply strictMono_nat_of_lt_succ
  intro n
  rw [scaled_succ]
  exact Nat.lt_add_of_pos_right (gap_pos n)

theorem scaled_small {n : Nat} (h : n ≤ 2 ^ (p + 1)) : scaled p n = n := by
  induction n with
  | zero => exact scaled_zero
  | succ n ih => rw [scaled_succ, ih (by omega), gap_small (by omega)]

theorem scaled_double {n : Nat} (h : 2 ^ p ≤ n) : scaled p (n + 2 ^ p) = 2 * scaled p n := by
  have hpos : 0 < 2 ^ p := Nat.two_pow_pos p
  have h1 : 0 < n / 2 ^ p := Nat.div_pos h hpos
  have hpow : 2 ^ (n / 2 ^ p) = 2 * 2 ^ (n / 2 ^ p - 1) := by
    rw [← Nat.pow_succ', Nat.succ_eq_add_one, Nat.sub_add_cancel h1]
  unfold scaled
  rw [Nat.add_div_right _ hpos, Nat.add_mod_right, if_neg (Nat.succ_ne_zero _), if_neg (Nat.ne_of_gt h1),
    Nat.add_sub_cancel, hpow]
  ring

theorem scaled_add_le (m n : Nat) : scaled p m + scaled p n ≤ scaled p (m + n) := by
  induction n with
  | zero => simp
  | succ n ih =>
    have hgap : gap p n ≤ gap p (m + n) := gap_mono (by omega)
    rw [scaled_succ, ← Nat.add_assoc, ← Nat.add_assoc, scaled_succ]
    omega

theorem scaled_add_lt {m n : Nat} (hm : 0 < m) (hn : 0 < n) (h : 2 ^ (p + 1) < m + n) :
    scaled p m + scaled p n < scaled p (m + n) := by
  induction n with
  | zero => cases hn
  | succ n ih =>
    have hle : scaled p m + scaled p n ≤ scaled p (m + n) := scaled_add_le m n
    have hgap : gap p n ≤ gap p (m + n) := gap_mono (by omega)
    rw [scaled_succ, ← Nat.add_assoc, ← Nat.add_assoc, scaled_succ]
    by_cases hs : n < 2 ^ (p + 1)
    · have h1 : gap p n = 1 := gap_small hs
      have h2 : 2 ≤ gap p (m + n) := gap_large (by omega)
      omega
    · have := ih (by have := Nat.two_pow_pos (p + 1); omega) (by omega)
      omega

end

/-! ## Patterns without a sign bit -/

namespace Format

section
variable {f : Format} {a b n z : Nat}

theorem infinity_lt_signBit : f.infinity < f.signBit := by
  unfold infinity signBit
  rw [Nat.pow_add]
  have h1 : 0 < 2 ^ f.exponentBits := Nat.two_pow_pos _
  exact Nat.mul_lt_mul_of_pos_right (by omega) (Nat.two_pow_pos _)

theorem small_lt_infinity : 2 ^ (f.fractionBits + 1) < f.infinity := by
  unfold infinity
  rw [Nat.pow_succ, Nat.mul_comm]
  have h4 : 2 ^ 2 ≤ 2 ^ f.exponentBits := Nat.pow_le_pow_right (by decide) f.two_le
  exact Nat.mul_lt_mul_of_pos_right (by omega) (Nat.two_pow_pos _)

theorem unit_pos : (0 : Rat) < f.unit := by
  unfold unit
  exact_mod_cast Nat.two_pow_pos _

theorem negative_of_lt (h : n < f.signBit) : f.negative n = false := by
  simp [negative, h]

theorem decode_finite (h : n < f.infinity) : f.decode n = .finite (scaled f.fractionBits n / f.unit) := by
  have hs := Nat.lt_trans h f.infinity_lt_signBit
  simp [decode, Nat.mod_eq_of_lt hs, negative_of_lt hs, h]

@[simp] theorem decode_infinity : f.decode f.infinity = .inf false := by
  have hs := f.infinity_lt_signBit
  simp [decode, Nat.mod_eq_of_lt hs, negative_of_lt hs]

theorem decode_nan (h : f.infinity < n) (hn : n < f.signBit) : f.decode n = .nan := by
  simp [decode, Nat.mod_eq_of_lt hn, Nat.not_lt.mpr (Nat.le_of_lt h), Nat.ne_of_gt h]

theorem scaled_div_lt {m : Nat} :
    (scaled f.fractionBits m / f.unit : Rat) < scaled f.fractionBits n / f.unit ↔ m < n := by
  rw [div_lt_div_iff_of_pos_right unit_pos, Nat.cast_lt]
  exact scaled_strictMono.lt_iff_lt

theorem scaled_div_inj {m : Nat} :
    (scaled f.fractionBits m / f.unit : Rat) = scaled f.fractionBits n / f.unit ↔ m = n := by
  rw [div_left_inj' (ne_of_gt unit_pos), Nat.cast_inj]
  exact scaled_strictMono.injective.eq_iff

theorem lt_decode_iff (ha : a < f.signBit) (hb : b < f.signBit) :
    (f.decode a).Lt (f.decode b) ↔ a < b ∧ b ≤ f.infinity := by
  rcases Nat.lt_trichotomy b f.infinity with hbi | rfl | hbi
  · rw [decode_finite hbi]
    rcases Nat.lt_trichotomy a f.infinity with hai | rfl | hai
    · rw [decode_finite hai]
      exact ⟨fun h => ⟨scaled_div_lt.mp h, Nat.le_of_lt hbi⟩, fun h => scaled_div_lt.mpr h.1⟩
    · rw [decode_infinity]
      exact ⟨fun h => (Bool.false_ne_true h).elim, fun h => absurd h.1 (by omega)⟩
    · rw [decode_nan hai ha]
      exact ⟨False.elim, fun h => absurd h.1 (by omega)⟩
  · rw [decode_infinity]
    rcases Nat.lt_trichotomy a f.infinity with hai | rfl | hai
    · rw [decode_finite hai]
      exact ⟨fun _ => ⟨hai, Nat.le_refl _⟩, fun _ => rfl⟩
    · rw [decode_infinity]
      exact ⟨fun h => (Bool.false_ne_true h.1).elim, fun h => absurd h.1 (Nat.lt_irrefl _)⟩
    · rw [decode_nan hai ha]
      exact ⟨False.elim, fun h => absurd h.1 (by omega)⟩
  · rw [decode_nan hbi hb]
    refine ⟨fun h => ?_, fun h => absurd h.2 (by omega)⟩
    cases hv : f.decode a <;> rw [hv] at h <;> exact h.elim

theorem decode_inj (ha : a < f.signBit) (hz : z < f.signBit) (hn : f.decode z ≠ .nan)
    (h : f.decode z = f.decode a) : z = a := by
  have key : ∀ n, n < f.signBit → f.decode n ≠ .nan → n ≤ f.infinity := by
    intro n hn hne
    by_contra hlt
    exact hne (decode_nan (by omega) hn)
  have hza := key z hz hn
  have haa := key a ha (h ▸ hn)
  rcases Nat.lt_or_eq_of_le hza with h1 | rfl <;> rcases Nat.lt_or_eq_of_le haa with h2 | rfl
  · rw [decode_finite h1, decode_finite h2] at h
    exact scaled_div_inj.mp (Value.finite.inj h)
  · rw [decode_finite h1, decode_infinity] at h
    cases h
  · rw [decode_infinity, decode_finite h2] at h
    cases h
  · rfl

theorem decode_cases (ha : a < f.signBit) :
    f.decode a = .nan ∨ f.decode a = .inf false ∨ ∃ q : Rat, 0 ≤ q ∧ f.decode a = .finite q := by
  rcases Nat.lt_trichotomy a f.infinity with h | rfl | h
  · refine Or.inr (Or.inr ⟨_, ?_, decode_finite h⟩)
    have := f.unit_pos
    positivity
  · exact Or.inr (Or.inl decode_infinity)
  · exact Or.inl (decode_nan h ha)

theorem decode_cases_negative (hz : f.signBit ≤ z) :
    f.decode z = .nan ∨ f.decode z = .inf true ∨ ∃ q : Rat, q ≤ 0 ∧ f.decode z = .finite q := by
  have hneg : f.negative z = true := by simpa [negative] using hz
  unfold decode
  simp only [hneg, if_true]
  split
  · refine Or.inr (Or.inr ⟨_, ?_, rfl⟩)
    have := f.unit_pos
    rw [neg_nonpos]
    positivity
  · split
    · exact Or.inr (Or.inl rfl)
    · exact Or.inl rfl

/-! ## Sums -/

theorem IsSum.lt_signBit (ha : a < f.signBit) (hb : b < f.signBit) (h : f.IsSum a b z) : z < f.signBit := by
  by_contra hz
  have hv := h.value
  rcases decode_cases_negative (f := f) (z := z) (by omega) with hn | hn | ⟨q, hq, hn⟩
  · exact h.number hn
  all_goals
    rcases decode_cases ha with h1 | h1 | ⟨r, hr, h1⟩ <;> rcases decode_cases hb with h2 | h2 | ⟨s, hs, h2⟩ <;>
      rw [hn, h1, h2] at hv <;> try cases hv
  -- both summands are finite: the sum is zero, and zero is positive here
  have h0 : r + s = 0 := le_antisymm hq (add_nonneg hr hs)
  have hsign := h.sign (by rw [hn, h0])
  rw [negative_of_lt ha, negative_of_lt hb, negative] at hsign
  exact absurd hsign (by simpa using hz)

theorem decode_zero : f.decode 0 = .finite 0 := by
  rw [decode_finite (Nat.zero_lt_of_lt small_lt_infinity), scaled_zero]
  simp

theorem isSum_of_decode (ha : a < f.signBit) (hb : b < f.signBit) (hz : z < f.signBit) (hn : f.decode z ≠ .nan)
    (h : f.decode z = (f.decode a).add (f.decode b)) : f.IsSum a b z where
  bound := by omega
  number := hn
  value := h
  sign _ := by rw [negative_of_lt ha, negative_of_lt hb, negative_of_lt hz]; rfl

theorem decode_add_small (h : a + b ≤ 2 ^ (f.fractionBits + 1)) :
    f.decode (a + b) = (f.decode a).add (f.decode b) := by
  have hlt : a + b < f.infinity := Nat.lt_of_le_of_lt h small_lt_infinity
  rw [decode_finite hlt, decode_finite (by omega : a < f.infinity), decode_finite (by omega : b < f.infinity),
    scaled_small h, scaled_small (by omega), scaled_small (by omega)]
  simp [Value.add, add_div]

theorem isSum_small (h : a + b ≤ 2 ^ (f.fractionBits + 1)) : f.IsSum a b (a + b) := by
  have h1 : a + b < f.infinity := Nat.lt_of_le_of_lt h small_lt_infinity
  have h2 := f.infinity_lt_signBit
  refine isSum_of_decode (by omega) (by omega) (by omega) ?_ (decode_add_small h)
  rw [decode_finite h1]
  exact fun hn => by cases hn

theorem isSum_double (h : 2 ^ f.fractionBits ≤ n) (hn : n + 2 ^ f.fractionBits < f.infinity) :
    f.IsSum n n (n + 2 ^ f.fractionBits) := by
  have h1 := Nat.two_pow_pos f.fractionBits
  have h2 := f.infinity_lt_signBit
  refine isSum_of_decode (by omega) (by omega) (by omega) ?_ ?_
  · rw [decode_finite hn]
    exact fun hn => by cases hn
  · rw [decode_finite hn, decode_finite (by omega : n < f.infinity), scaled_double h]
    simp only [Value.add, Value.finite.injEq]
    push_cast
    ring

theorem decode_add_large (ha : 0 < a) (hb : 0 < b) (hab : a + b < f.signBit)
    (h : 2 ^ (f.fractionBits + 1) < a + b) (hn : f.decode (a + b) ≠ .nan) :
    f.decode (a + b) ≠ (f.decode a).add (f.decode b) := by
  intro hv
  have hle : a + b ≤ f.infinity := by
    by_contra hlt
    exact hn (decode_nan (by omega) hab)
  rw [decode_finite (by omega : a < f.infinity), decode_finite (by omega : b < f.infinity)] at hv
  rcases Nat.lt_or_eq_of_le hle with hlt | heq
  · rw [decode_finite hlt] at hv
    have hq := Value.finite.inj hv
    rw [← add_div, div_left_inj' (ne_of_gt unit_pos)] at hq
    have hs : scaled f.fractionBits (a + b) = scaled f.fractionBits a + scaled f.fractionBits b := by
      exact_mod_cast hq
    exact absurd hs (Nat.ne_of_gt (scaled_add_lt ha hb h))
  · rw [heq, decode_infinity] at hv
    cases hv

/-- When the pattern of the sum is the sum of the patterns. -/
theorem isSum_eq_add_iff (ha : a < f.signBit) (hb : b < f.signBit) (hab : a + b < f.signBit) :
    (∀ z, f.IsSum a b z → z = a + b) ↔
      a = 0 ∨ b = 0 ∨ a + b ≤ 2 ^ (f.fractionBits + 1) ∨ ∀ z, ¬ f.IsSum a b z := by
  constructor
  · intro h
    by_contra hc
    push Not at hc
    obtain ⟨h1, h2, h3, z, hz⟩ := hc
    obtain rfl := h z hz
    exact decode_add_large (Nat.pos_of_ne_zero h1) (Nat.pos_of_ne_zero h2) hab h3 hz.number hz.value
  · rintro (rfl | rfl | h | h) z hz
    · have hv := hz.value
      rw [decode_zero] at hv
      rw [Nat.zero_add]
      refine decode_inj hb (hz.lt_signBit ha hb) hz.number (hv.trans ?_)
      cases f.decode b <;> simp [Value.add]
    · have hv := hz.value
      rw [decode_zero] at hv
      rw [Nat.add_zero]
      refine decode_inj ha (hz.lt_signBit ha hb) hz.number (hv.trans ?_)
      cases f.decode a <;> simp [Value.add]
    · exact decode_inj hab (hz.lt_signBit ha hb) hz.number (hz.value.trans (decode_add_small h).symm)
    · exact absurd hz (h z)

end

end Format

end Binary
