import Mathlib.Data.List.Basic

/-!
# Formatted input

What `fscanf` takes from a stream of characters: white space, a decimal number,
and the words that repeated `%s` conversions return.
-/

namespace Scanf

def isSpace (c : Char) : Bool := c.toNat = 32 || decide (9 ≤ c.toNat ∧ c.toNat ≤ 13)

def sign : List Char → Bool × List Char
  | '-' :: rest => (true, rest)
  | '+' :: rest => (false, rest)
  | text => (false, text)

/-- A `%d` or `%ld` where the white space has been skipped: the number, unless there
is no digit, and the input after it. -/
def number (text : List Char) : Option Int × List Char :=
  let (negative, body) := sign text
  let digits := body.takeWhile Char.isDigit
  let value : Int := Nat.ofDigitChars 10 digits 0
  (if digits.isEmpty then none else some (if negative then -value else value), body.dropWhile Char.isDigit)

def cut : List Char → List Char × List (List Char)
  | [] => ([], [])
  | c :: rest =>
    let (w, ws) := cut rest
    if isSpace c then ([], if w.isEmpty then ws else w :: ws) else (c :: w, ws)

def words (text : List Char) : List (List Char) :=
  let (w, ws) := cut text
  if w.isEmpty then ws else w :: ws

def Blank (text : List Char) : Prop := ∀ c ∈ text, isSpace c = true

structure Word (text : List Char) : Prop where
  ne_nil : text ≠ []
  solid : ∀ c ∈ text, isSpace c = false

instance (text : List Char) : Decidable (Blank text) := List.decidableBAll (fun c => isSpace c = true) text

instance (text : List Char) : Decidable (Word text) :=
  have := List.decidableBAll (fun c => isSpace c = false) text
  decidable_of_iff (text ≠ [] ∧ ∀ c ∈ text, isSpace c = false) ⟨fun h => ⟨h.1, h.2⟩, fun h => ⟨h.1, h.2⟩⟩

def Stops : List Char → Prop
  | [] => True
  | c :: _ => isSpace c = true

section
variable {text s w : List Char} {c : Char}

/-! ## Words -/

theorem cut_space (hc : isSpace c = true) (rest : List Char) : cut (c :: rest) = ([], words rest) := by
  simp [cut, words, hc]

theorem cut_solid (hc : isSpace c = false) (rest : List Char) :
    cut (c :: rest) = (c :: (cut rest).1, (cut rest).2) := by
  simp [cut, hc]

theorem words_space (hc : isSpace c = true) (rest : List Char) : words (c :: rest) = words rest := by
  rw [words, cut_space hc]
  rfl

theorem words_blank_append (hs : Blank s) (rest : List Char) : words (s ++ rest) = words rest := by
  induction s with
  | nil => rfl
  | cons c s ih =>
    rw [List.cons_append, words_space (hs c (by simp))]
    exact ih fun d hd => hs d (List.mem_cons_of_mem _ hd)

theorem cut_stops (h : Stops text) : cut text = ([], words text) := by
  cases text with
  | nil => rfl
  | cons c rest => rw [cut_space h, words_space h]

theorem words_word_append (hw : Word w) (h : Stops text) : words (w ++ text) = w :: words text := by
  have key : ∀ l : List Char, (∀ c ∈ l, isSpace c = false) → cut (l ++ text) = (l, words text) := by
    intro l
    induction l with
    | nil => exact fun _ => cut_stops h
    | cons c l ih =>
      intro hl
      rw [List.cons_append, cut_solid (hl c (by simp)), ih fun d hd => hl d (List.mem_cons_of_mem _ hd)]
  rw [words, key w hw.solid]
  simp [hw.ne_nil]

/-! ## Numbers -/

theorem isSpace_of_isDigit (h : c.isDigit = true) : isSpace c = false := by
  simp only [Char.isDigit, Bool.and_eq_true, decide_eq_true_eq, ge_iff_le, UInt32.le_iff_toNat_le] at h
  change 48 ≤ c.toNat ∧ c.toNat ≤ 57 at h
  simp only [isSpace, Bool.or_eq_false_iff, decide_eq_false_iff_not]
  omega

theorem sign_digit (h : c.isDigit = true) (rest : List Char) : sign (c :: rest) = (false, c :: rest) := by
  unfold sign
  split
  · rename_i heq
    cases heq
    cases h
  · rename_i heq
    cases heq
    cases h
  · rfl

theorem dropDigits_stops (h : ∀ c ∈ text.head?, c.isDigit = false) :
    text.takeWhile Char.isDigit = [] ∧ text.dropWhile Char.isDigit = text := by
  cases text with
  | nil => exact ⟨rfl, rfl⟩
  | cons c rest =>
    have hc : c.isDigit = false := h c rfl
    simp [hc]

theorem Stops.not_digit (h : Stops text) : ∀ c ∈ text.head?, c.isDigit = false := by
  intro c hc
  cases text with
  | nil => cases hc
  | cons d rest =>
    have hs : isSpace c = true := by
      rw [← Option.some.inj hc]
      exact h
    cases hd : c.isDigit with
    | false => rfl
    | true =>
      rw [isSpace_of_isDigit hd] at hs
      cases hs

theorem isDigit_of_mem_toDigits {n : Nat} (h : c ∈ Nat.toDigits 10 n) : c.isDigit = true :=
  Nat.isDigit_of_mem_toDigits (by decide) (by decide) h

theorem number_of_sign {body : List Char} {negative : Bool} (n : Nat)
    (hs : sign body = (negative, Nat.toDigits 10 n ++ text)) (h : ∀ c ∈ text.head?, c.isDigit = false) :
    number body = (some (if negative then -(n : Int) else n), text) := by
  have hd : ∀ c ∈ Nat.toDigits 10 n, c.isDigit = true := fun c hc => isDigit_of_mem_toDigits hc
  have hne : Nat.toDigits 10 n ≠ [] := Nat.toDigits_ne_nil
  obtain ⟨h1, h2⟩ := dropDigits_stops h
  unfold number
  rw [hs]
  simp only [List.takeWhile_append_of_pos hd, List.dropWhile_append_of_pos hd, h1, h2, List.append_nil,
    Nat.ofDigitChars_toDigits (b := 10) (by decide) (by decide)]
  simp [hne]

theorem sign_toDigits (n : Nat) (rest : List Char) :
    sign (Nat.toDigits 10 n ++ rest) = (false, Nat.toDigits 10 n ++ rest) := by
  cases hl : Nat.toDigits 10 n with
  | nil => exact absurd hl Nat.toDigits_ne_nil
  | cons c l => exact sign_digit (isDigit_of_mem_toDigits (n := n) (by simp [hl])) _

theorem number_toDigits (n : Nat) (h : Stops text) :
    number (Nat.toDigits 10 n ++ text) = (some (n : Int), text) :=
  number_of_sign n (sign_toDigits n text) h.not_digit

theorem number_toString (z : Int) (h : ∀ c ∈ text.head?, c.isDigit = false) :
    number ((toString z).toList ++ text) = (some z, text) := by
  rw [Int.toString_eq_repr, Int.repr_eq_if]
  by_cases hz : 0 ≤ z
  · rw [if_pos hz, Nat.toList_repr, number_of_sign z.toNat (sign_toDigits _ _) h]
    simp only [Bool.false_eq_true, if_false, Int.toNat_of_nonneg hz]
  · rw [if_neg hz, String.toList_append, Nat.toList_repr]
    have hs : sign ("-".toList ++ Nat.toDigits 10 (-z).toNat ++ text) =
        (true, Nat.toDigits 10 (-z).toNat ++ text) := rfl
    rw [number_of_sign (-z).toNat hs h]
    have : ((-z).toNat : Int) = -z := Int.toNat_of_nonneg (by omega)
    simp [this]

theorem solid_head_toString (z : Int) (rest : List Char) :
    ∀ c ∈ ((toString z).toList ++ rest).head?, isSpace c = false := by
  have hd : ∀ n : Nat, ∀ c ∈ (Nat.toDigits 10 n ++ rest).head?, isSpace c = false := by
    intro n c hc
    cases hl : Nat.toDigits 10 n with
    | nil => exact absurd hl Nat.toDigits_ne_nil
    | cons d l =>
      rw [hl] at hc
      cases hc
      exact isSpace_of_isDigit (isDigit_of_mem_toDigits (n := n) (by simp [hl]))
  rw [Int.toString_eq_repr, Int.repr_eq_if]
  by_cases hz : 0 ≤ z
  · rw [if_pos hz, Nat.toList_repr]
    exact hd _
  · rw [if_neg hz, String.toList_append]
    intro c hc
    have : some '-' = some c := hc
    cases this
    decide

theorem dropSpace_head (h : ∀ c ∈ text.head?, isSpace c = false) : text.dropWhile isSpace = text := by
  cases text with
  | nil => rfl
  | cons c rest =>
    have hc : isSpace c = false := h c rfl
    simp [hc]

theorem cut_word (hw : ∀ c ∈ w, isSpace c = false) : cut w = (w, []) := by
  induction w with
  | nil => rfl
  | cons c w ih =>
    rw [cut_solid (hw c (by simp)), ih fun d hd => hw d (List.mem_cons_of_mem _ hd)]

end

end Scanf
