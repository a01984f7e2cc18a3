import Clarisse.Binary
import Clarisse.MultiFunc

/-!
# The aggregates on the wire

`aggregators_field_list` declares the longs of `aggregators_t` as fields of type
float, so the script of the multi stone compares and adds the doubles that their
bits denote, and `final_result` reads the bits as longs again.
-/

namespace Clarisse

inductive FieldType where
  | integer
  | float
  deriving DecidableEq, Repr

structure FMField where
  name : String
  type : FieldType
  size : Nat
  deriving DecidableEq, Repr

def aggregatorsFieldList : List FMField :=
  [⟨"min", .float, 8⟩, ⟨"max", .float, 8⟩, ⟨"sum", .float, 8⟩]

def fieldType (name : String) : FieldType :=
  match aggregatorsFieldList.find? fun field => field.name = name with
  | some field => field.type
  | none => .integer

def binary64 : Binary.Format := ⟨52, 11, by decide⟩

/-! ## What the script does with 64 bits -/

def FieldType.Lt : FieldType → BitVec 64 → BitVec 64 → Prop
  | .integer, x, y => x.toInt < y.toInt
  | .float, x, y => (binary64.decode x.toNat).Lt (binary64.decode y.toNat)

instance : ∀ t x y, Decidable (FieldType.Lt t x y)
  | .integer, x, y => inferInstanceAs (Decidable (x.toInt < y.toInt))
  | .float, x, y => inferInstanceAs (Decidable ((binary64.decode x.toNat).Lt (binary64.decode y.toNat)))

/-- The addition `x + y`, as far as it needs no rounding. -/
def FieldType.IsSum : FieldType → BitVec 64 → BitVec 64 → BitVec 64 → Prop
  | .integer, x, y, z => z = x + y
  | .float, x, y, z => binary64.IsSum x.toNat y.toNat z.toNat

def wireMin (g a : BitVec 64) : BitVec 64 := if (fieldType "min").Lt a g then a else g

def wireMax (g a : BitVec 64) : BitVec 64 := if (fieldType "max").Lt g a then a else g

structure WireAggregators where
  min : BitVec 64
  max : BitVec 64
  sum : BitVec 64

/-- What `final_result` reads. -/
def WireAggregators.read (g : WireAggregators) : Aggregators := ⟨g.min.toInt, g.max.toInt, g.sum.toInt⟩

structure WireMerge (g a r : WireAggregators) : Prop where
  min : r.min = wireMin g.min a.min
  max : r.max = wireMax g.max a.max
  sum : (fieldType "sum").IsSum g.sum a.sum r.sum

/-- The script on one column of the events of a pulse, after the first. -/
inductive WireFold : WireAggregators → List WireAggregators → WireAggregators → Prop
  | nil (g : WireAggregators) : WireFold g [] g
  | cons {g a r s : WireAggregators} {as : List WireAggregators} :
    WireMerge g a r → WireFold r as s → WireFold g (a :: as) s

/-- For `x` and `y` the doubles are ordered as the longs, their sum has the bits of the
sum of the longs, and what is read back after a merge is the minimum, the maximum and the sum. -/
structure WirePreserved (x y : BitVec 64) : Prop where
  order : x.toInt < y.toInt ↔ FieldType.Lt .float x y
  sum : ∀ z, FieldType.IsSum .float x y z → z = x + y
  readMin : (wireMin y x).toInt = min x.toInt y.toInt
  readMax : (wireMax x y).toInt = max x.toInt y.toInt
  readSum : ∀ z, (fieldType "sum").IsSum x y z → z.toInt = x.toInt + y.toInt

def infinity64 : Int := 0x7FF0000000000000

section
variable {x y z : BitVec 64}

theorem toNat_of_nonneg (hx : 0 ≤ x.toInt) : (x.toNat : Int) = x.toInt ∧ x.toNat < binary64.signBit := by
  have h : 2 * x.toNat < 2 ^ 64 := by
    by_contra hlt
    rw [BitVec.toInt_eq_toNat_cond, if_neg hlt] at hx
    have := x.isLt
    omega
  have hs : binary64.signBit = 2 ^ 63 := rfl
  rw [BitVec.toInt_eq_toNat_cond, if_pos h, hs]
  omega

theorem infinity64_eq : (binary64.infinity : Int) = infinity64 := rfl

theorem lt_float_iff (hx : 0 ≤ x.toInt) (hy : 0 ≤ y.toInt) :
    FieldType.Lt .float x y ↔ x.toInt < y.toInt ∧ y.toInt ≤ infinity64 := by
  obtain ⟨h1, h2⟩ := toNat_of_nonneg hx
  obtain ⟨h3, h4⟩ := toNat_of_nonneg hy
  have := Binary.Format.lt_decode_iff h2 h4
  rw [← infinity64_eq, ← h1, ← h3]
  exact_mod_cast this

theorem toInt_add_of_le (hx : 0 ≤ x.toInt) (hy : 0 ≤ y.toInt) (h : x.toInt + y.toInt ≤ 2 ^ 63 - 1) :
    (x + y).toInt = x.toInt + y.toInt ∧ (x + y).toNat = x.toNat + y.toNat := by
  obtain ⟨h1, -⟩ := toNat_of_nonneg hx
  obtain ⟨h3, -⟩ := toNat_of_nonneg hy
  have hn : (x + y).toNat = x.toNat + y.toNat := by
    rw [BitVec.toNat_add, Nat.mod_eq_of_lt (by omega)]
  refine ⟨?_, hn⟩
  rw [BitVec.toInt_eq_toNat_cond, hn, if_pos (by omega)]
  omega

theorem isSum_float_iff (hx : 0 ≤ x.toInt) (hy : 0 ≤ y.toInt) (h : x.toInt + y.toInt ≤ 2 ^ 63 - 1) :
    (∀ z, FieldType.IsSum .float x y z → z = x + y) ↔
      x = 0 ∨ y = 0 ∨ x.toInt + y.toInt ≤ 2 ^ 53 ∨ ∀ z, ¬ FieldType.IsSum .float x y z := by
  obtain ⟨h1, h2⟩ := toNat_of_nonneg hx
  obtain ⟨h3, h4⟩ := toNat_of_nonneg hy
  obtain ⟨-, hn⟩ := toInt_add_of_le hx hy h
  have hs : binary64.signBit = 2 ^ 63 := rfl
  have hp : 2 ^ (binary64.fractionBits + 1) = 2 ^ 53 := rfl
  have key := Binary.Format.isSum_eq_add_iff h2 h4 (by omega)
  have hofNat : ∀ n, binary64.IsSum x.toNat y.toNat n → (BitVec.ofNat 64 n).toNat = n :=
    fun n hz => (BitVec.toNat_ofNat n 64).trans (Nat.mod_eq_of_lt hz.bound)
  have hall : (∀ n, binary64.IsSum x.toNat y.toNat n → n = x.toNat + y.toNat) ↔
      ∀ z, FieldType.IsSum .float x y z → z = x + y := by
    constructor
    · intro hall z hz
      exact BitVec.eq_of_toNat_eq ((hall _ hz).trans hn.symm)
    · intro hall n hz
      have := hofNat n hz
      rw [← hn, ← hall (BitVec.ofNat 64 n) (by rw [FieldType.IsSum, this]; exact hz), this]
  have hnone : (∀ n, ¬ binary64.IsSum x.toNat y.toNat n) ↔ ∀ z, ¬ FieldType.IsSum .float x y z := by
    constructor
    · exact fun h z => h z.toNat
    · intro h n hz
      exact h (BitVec.ofNat 64 n) (by rw [FieldType.IsSum, hofNat n hz]; exact hz)
  rw [← hall, key, hnone, hp, ← h1, ← h3]
  have hx0 : x = 0 ↔ x.toNat = 0 := ⟨fun h => by rw [h]; rfl, fun h => BitVec.eq_of_toNat_eq h⟩
  have hy0 : y = 0 ↔ y.toNat = 0 := ⟨fun h => by rw [h]; rfl, fun h => BitVec.eq_of_toNat_eq h⟩
  rw [hx0, hy0]
  norm_cast

theorem wireMin_eq (g a : BitVec 64) : wireMin g a = if FieldType.Lt .float a g then a else g := rfl

theorem wireMax_eq (g a : BitVec 64) : wireMax g a = if FieldType.Lt .float g a then a else g := rfl

theorem wireMin_toInt (h : x.toInt < y.toInt ↔ FieldType.Lt .float x y) :
    (wireMin y x).toInt = min x.toInt y.toInt := by
  rw [wireMin_eq]
  by_cases hlt : x.toInt < y.toInt
  · rw [if_pos (h.mp hlt), min_eq_left (le_of_lt hlt)]
  · rw [if_neg fun hf => hlt (h.mpr hf), min_eq_right (not_lt.mp hlt)]

theorem wireMax_toInt (h : x.toInt < y.toInt ↔ FieldType.Lt .float x y) :
    (wireMax x y).toInt = max x.toInt y.toInt := by
  rw [wireMax_eq]
  by_cases hlt : x.toInt < y.toInt
  · rw [if_pos (h.mp hlt), max_eq_right (le_of_lt hlt)]
  · rw [if_neg fun hf => hlt (h.mpr hf), max_eq_left (not_lt.mp hlt)]

theorem order_iff (hx : 0 ≤ x.toInt) (hy : 0 ≤ y.toInt) :
    (x.toInt < y.toInt ↔ FieldType.Lt .float x y) ↔ ¬ (x.toInt < y.toInt ∧ infinity64 < y.toInt) := by
  rw [lt_float_iff hx hy]
  constructor
  · rintro h ⟨h1, h2⟩
    exact absurd (h.mp h1).2 (not_le.mpr h2)
  · exact fun h => ⟨fun h1 => ⟨h1, not_lt.mp fun h2 => h ⟨h1, h2⟩⟩, fun h1 => h1.1⟩

end

/-- The longs survive the trip as doubles exactly when the larger one is not the
pattern of a NaN and their sum stays small, unless one is zero or the doubles have no exact sum. -/
theorem wirePreserved_iff (x y : BitVec 64) (hx : 0 ≤ x.toInt) (hy : 0 ≤ y.toInt)
    (h : x.toInt + y.toInt ≤ 2 ^ 63 - 1) :
    WirePreserved x y ↔
      ¬ (x.toInt < y.toInt ∧ infinity64 < y.toInt) ∧
        (x = 0 ∨ y = 0 ∨ x.toInt + y.toInt ≤ 2 ^ 53 ∨ ∀ z, ¬ FieldType.IsSum .float x y z) := by
  rw [← order_iff hx hy, ← isSum_float_iff hx hy h]
  constructor
  · exact fun hp => ⟨hp.order, hp.sum⟩
  · rintro ⟨ho, hs⟩
    refine ⟨ho, hs, wireMin_toInt ho, wireMax_toInt ho, fun z hz => ?_⟩
    rw [hs z hz]
    exact (toInt_add_of_le hx hy h).1

theorem wirePreserved_iff_small : WirePreserved 3 4 ↔
    ¬ ((3 : BitVec 64).toInt < (4 : BitVec 64).toInt ∧ infinity64 < (4 : BitVec 64).toInt) ∧
      ((3 : BitVec 64) = 0 ∨ (4 : BitVec 64) = 0 ∨ (3 : BitVec 64).toInt + (4 : BitVec 64).toInt ≤ 2 ^ 53 ∨
        ∀ z, ¬ FieldType.IsSum .float 3 4 z) :=
  wirePreserved_iff 3 4 (by decide) (by decide) (by decide)

theorem not_wirePreserved_double : ¬ ∀ x y : BitVec 64, 0 ≤ x.toInt → 0 ≤ y.toInt →
    x.toInt + y.toInt ≤ 2 ^ 63 - 1 → WirePreserved x y := by
  intro h
  have hp := h 0x20000000000000 0x20000000000000 (by decide) (by decide) (by decide)
  have hsum : FieldType.IsSum .float 0x20000000000000 0x20000000000000 0x30000000000000 :=
    Binary.Format.isSum_double (f := binary64) (n := 0x20000000000000) (by decide) (by decide)
  exact absurd (hp.sum _ hsum) (by decide)

/-! ## A whole column -/

structure WireAggregators.Plain (g : WireAggregators) : Prop where
  min : 0 ≤ g.min.toInt ∧ g.min.toInt ≤ infinity64
  max : 0 ≤ g.max.toInt ∧ g.max.toInt ≤ infinity64
  sum : 0 ≤ g.sum.toInt

section
variable {g a r s : WireAggregators} {as : List WireAggregators}

theorem Aggregators.merge_eq (g a : Aggregators) :
    g.merge a = ⟨Min.min a.min g.min, Max.max g.max a.max, g.sum + a.sum⟩ := by
  unfold merge
  congr 1
  · split <;> omega
  · split <;> omega

theorem lt_float_of_plain {x y : BitVec 64} (hx : 0 ≤ x.toInt ∧ x.toInt ≤ infinity64)
    (hy : 0 ≤ y.toInt ∧ y.toInt ≤ infinity64) : x.toInt < y.toInt ↔ FieldType.Lt .float x y :=
  (order_iff hx.1 hy.1).mpr fun h => absurd hy.2 (not_le.mpr h.2)

theorem WireMerge.exists_of_le (hg : g.Plain) (ha : a.Plain) (h : g.sum.toInt + a.sum.toInt ≤ 2 ^ 53) :
    ∃ r, WireMerge g a r := by
  obtain ⟨h1, -⟩ := toNat_of_nonneg hg.sum
  obtain ⟨h2, -⟩ := toNat_of_nonneg ha.sum
  obtain ⟨-, hn⟩ := toInt_add_of_le hg.sum ha.sum (by omega)
  refine ⟨⟨wireMin g.min a.min, wireMax g.max a.max, g.sum + a.sum⟩, rfl, rfl, ?_⟩
  change binary64.IsSum _ _ (g.sum + a.sum).toNat
  rw [hn]
  refine Binary.Format.isSum_small ?_
  change _ ≤ 2 ^ 53
  omega

theorem WireMerge.read_eq (hm : WireMerge g a r) (hg : g.Plain) (ha : a.Plain)
    (h : g.sum.toInt + a.sum.toInt ≤ 2 ^ 53) : r.Plain ∧ r.read = g.read.merge a.read := by
  have hmin := wireMin_toInt (lt_float_of_plain ha.min hg.min)
  have hmax := wireMax_toInt (lt_float_of_plain hg.max ha.max)
  have hs := (isSum_float_iff hg.sum ha.sum (by omega)).mpr (Or.inr (Or.inr (Or.inl h))) _ hm.sum
  have hsum : r.sum.toInt = g.sum.toInt + a.sum.toInt := by
    rw [hs]
    exact (toInt_add_of_le hg.sum ha.sum (by omega)).1
  rw [← hm.min] at hmin
  rw [← hm.max] at hmax
  obtain ⟨hgmin, hgmax, hgsum⟩ := hg
  obtain ⟨hamin, hamax, hasum⟩ := ha
  refine ⟨⟨?_, ?_, ?_⟩, ?_⟩
  · rw [hmin]
    omega
  · rw [hmax]
    omega
  · omega
  · rw [Aggregators.merge_eq, WireAggregators.read, hmin, hmax, hsum]
    rfl

/-- While the sums stay up to `2 ^ 53`, the script computes the digest of the longs. -/
theorem WireFold.read_eq (hg : g.Plain) (has : ∀ a ∈ as, a.Plain)
    (h : g.sum.toInt + (as.map fun a => a.sum.toInt).sum ≤ 2 ^ 53) :
    (∃ s, WireFold g as s) ∧
      ∀ s, WireFold g as s → s.read = (as.map WireAggregators.read).foldl Aggregators.merge g.read := by
  induction as generalizing g with
  | nil => exact ⟨⟨g, .nil g⟩, fun s hs => by cases hs; rfl⟩
  | cons a as ih =>
    have ha := has a (by simp)
    have has' : ∀ b ∈ as, b.Plain := fun b hb => has b (List.mem_cons_of_mem _ hb)
    have hpos : 0 ≤ (as.map fun a => a.sum.toInt).sum := by
      apply List.sum_nonneg
      intro z hz
      obtain ⟨b, hb, rfl⟩ := List.mem_map.mp hz
      exact (has' b hb).sum
    rw [List.map_cons, List.sum_cons] at h
    have hstep : ∀ r, WireMerge g a r → r.Plain ∧ r.read = g.read.merge a.read ∧
        r.sum.toInt + (as.map fun a => a.sum.toInt).sum ≤ 2 ^ 53 := by
      intro r hr
      obtain ⟨hp, hread⟩ := hr.read_eq hg ha (by omega)
      have hsum : r.sum.toInt = g.sum.toInt + a.sum.toInt := congrArg Aggregators.sum hread
      exact ⟨hp, hread, by omega⟩
    constructor
    · obtain ⟨r, hr⟩ := WireMerge.exists_of_le hg ha (by omega)
      obtain ⟨hp, -, hle⟩ := hstep r hr
      obtain ⟨s, hs⟩ := (ih hp has' hle).1
      exact ⟨s, .cons hr hs⟩
    · intro s hs
      cases hs with
      | cons hr hrest =>
        obtain ⟨hp, hread, hle⟩ := hstep _ hr
        rw [(ih hp has' hle).2 s hrest, hread]
        rfl

end

end Clarisse
