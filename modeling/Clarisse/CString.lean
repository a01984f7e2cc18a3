import Mathlib.Data.List.Basic

/-!
# Strings in arrays of characters

An array of a fixed size, the text before its first terminator, and what
`sprintf` and `memcpy` write. Behind the terminator an array holds anything.
-/

namespace CString

def nul : Char := Char.ofNat 0

structure Buffer (size : Nat) where
  chars : List Char
  length_eq : chars.length = size

variable {size : Nat}

/-- The text that the array holds, if it is terminated. -/
def Buffer.text (b : Buffer size) : Option (List Char) :=
  if nul ∈ b.chars then some (b.chars.takeWhile (· != nul)) else none

/-- Writes a text and its terminator, unless they would not fit. -/
def Buffer.put (b : Buffer size) (text : List Char) : Option (Buffer size) :=
  if h : text.length + 1 ≤ size then
    some ⟨text ++ nul :: b.chars.drop (text.length + 1), by simp [b.length_eq]; omega⟩
  else none

def Buffer.memcpy (dst src : Buffer size) (count : Nat) : Buffer size where
  chars := src.chars.take count ++ dst.chars.drop count
  length_eq := by simp [src.length_eq, dst.length_eq]; omega

def Buffer.fill (c : Char) (size : Nat) : Buffer size := ⟨List.replicate size c, List.length_replicate⟩

@[simp] theorem Buffer.memcpy_all (dst src : Buffer size) : dst.memcpy src size = src := by
  obtain ⟨s, hs⟩ := src
  obtain ⟨d, hd⟩ := dst
  have h1 : s.take size = s := List.take_of_length_le (Nat.le_of_eq hs)
  have h2 : d.drop size = [] := List.drop_of_length_le (Nat.le_of_eq hd)
  simp [memcpy, h1, h2]

theorem Buffer.put_eq_some (b : Buffer size) {text : List Char} (h : text.length + 1 ≤ size) :
    ∃ b', b.put text = some b' := ⟨_, dif_pos h⟩

theorem Buffer.le_of_put {b b' : Buffer size} {text : List Char} (h : b.put text = some b') :
    text.length + 1 ≤ size := by
  unfold put at h
  split at h
  · assumption
  · cases h

theorem takeWhile_terminated {text : List Char} (h : nul ∉ text) (rest : List Char) :
    (text ++ nul :: rest).takeWhile (· != nul) = text := by
  have hall : ∀ c ∈ text, (c != nul) = true := by
    intro c hc
    have hne : c ≠ nul := fun e => h (e ▸ hc)
    simpa using hne
  rw [List.takeWhile_append_of_pos hall]
  simp

theorem Buffer.text_put {b b' : Buffer size} {text : List Char} (h : nul ∉ text) (hp : b.put text = some b') :
    b'.text = some text := by
  unfold put at hp
  split at hp
  · cases hp
    simp [Buffer.text, takeWhile_terminated h]
  · cases hp

end CString
