import Clarisse.Bootstrap
import Clarisse.CString
import Clarisse.Scanf

/-!
# The address of a parent

`compute_evpath_addr` prints a stone and a contact list into an array, the whole
array goes to the children, and `set_stones_actions` reads the two back. A
character here is a byte.
-/

namespace Clarisse

open CString

def addressSize : Nat := 2048

abbrev Address := Buffer addressSize

/-- The string of a contact list: no white space, no terminator. -/
structure Contact where
  text : String
  word : Scanf.Word text.toList
  plain : nul ∉ text.toList

def addrText (stone : Int) (contact : String) : String := toString stone ++ ":" ++ contact

def sprintfAddr (addr : Address) (splitStone : BitVec 32) (contact : String) : Option Address :=
  addr.put (addrText splitStone.toInt contact).toList

/-- `addr` after `MPI_Recv` in a child, and its copy in `parent_addr`. -/
def transferAddr (myaddr addr parentAddr : Address) : Address :=
  parentAddr.memcpy (addr.memcpy myaddr addressSize) addressSize

/-- `sscanf(…, "%d:%s", &remote_stone, string_list)` on a text, with what it returns;
it fails when the word does not fit into `string_list`. -/
def scanAddr (text : List Char) (remoteStone : BitVec 32) (stringList : Address) :
    Option (Int × BitVec 32 × Address) :=
  let start := text.dropWhile Scanf.isSpace
  match Scanf.number start with
  | (none, _) => some (if start.isEmpty then -1 else 0, remoteStone, stringList)
  | (some value, ':' :: rest) =>
    let w := (Scanf.cut (rest.dropWhile Scanf.isSpace)).1
    if w.isEmpty then some (1, BitVec.ofInt 32 value, stringList)
    else (stringList.put w).map fun stringList => (2, BitVec.ofInt 32 value, stringList)
  | (some value, _) => some (1, BitVec.ofInt 32 value, stringList)

def sscanfAddr (parentAddr : Address) (remoteStone : BitVec 32) (stringList : Address) :
    Option (Int × BitVec 32 × Address) :=
  parentAddr.text.bind fun text => scanAddr text remoteStone stringList

theorem computeEvpathAddr_eq (stone : Nat → Int) (contact : Nat → String) (rank : Nat) :
    computeEvpathAddr stone contact rank = addrText (stone rank) (contact rank) := rfl

theorem addrText_toList (stone : Int) (contact : String) :
    (addrText stone contact).toList = (toString stone).toList ++ ':' :: contact.toList := by
  simp [addrText]

theorem mem_toString_ne_nul {z : Int} : nul ∉ (toString z).toList := by
  have hd : ∀ n : Nat, nul ∉ Nat.toDigits 10 n := fun n h =>
    absurd (Scanf.isDigit_of_mem_toDigits h) (by decide)
  rw [Int.toString_eq_repr, Int.repr_eq_if]
  by_cases hz : 0 ≤ z
  · rw [if_pos hz, Nat.toList_repr]
    exact hd _
  · rw [if_neg hz, String.toList_append, Nat.toList_repr, List.mem_append]
    intro h
    cases h with
    | inl h => exact absurd h (by decide)
    | inr h => exact hd _ h

section
variable {addr parent list : Address} {s r : BitVec 32} {c : Contact}

theorem addrText_plain (z : Int) (c : Contact) : nul ∉ (addrText z c.text).toList := by
  rw [addrText_toList, List.mem_append, List.mem_cons]
  intro h
  rcases h with h | h | h
  · exact mem_toString_ne_nul h
  · exact absurd h (by decide)
  · exact c.plain h

theorem scanAddr_addrText (s r : BitVec 32) (c : Contact) (list : Address) :
    scanAddr (addrText s.toInt c.text).toList r list =
      (list.put c.text.toList).map fun list => (2, s, list) := by
  have hcolon : ∀ d ∈ (':' :: c.text.toList).head?, d.isDigit = false := by
    intro d hd
    cases hd
    decide
  have hword : ∀ d ∈ c.text.toList.head?, Scanf.isSpace d = false :=
    fun d hd => c.word.solid d (List.mem_of_mem_head? hd)
  unfold scanAddr
  simp only [addrText_toList, Scanf.dropSpace_head (Scanf.solid_head_toString _ _), Scanf.number_toString _ hcolon,
    Scanf.dropSpace_head hword, Scanf.cut_word c.word.solid, BitVec.ofInt_toInt]
  rw [if_neg]
  simpa using c.word.ne_nil

theorem sscanfAddr_of_text (ht : parent.text = some (addrText s.toInt c.text).toList)
    (hfit : (addrText s.toInt c.text).length + 1 ≤ addressSize) :
    ∃ list', sscanfAddr parent r list = some (2, s, list') ∧ list'.text = some c.text.toList := by
  have hword : c.text.toList.length + 1 ≤ addressSize := by
    rw [← String.length_toList, addrText_toList, List.length_append, List.length_cons] at hfit
    omega
  obtain ⟨list', hl⟩ := list.put_eq_some hword
  refine ⟨list', ?_, Buffer.text_put c.plain hl⟩
  rw [sscanfAddr, ht, Option.bind_some, scanAddr_addrText, hl]
  rfl

theorem sscanfAddr_sprintfAddr {sent : Address} (hp : sprintfAddr addr s c.text = some sent)
    (recv parent list : Address) (r : BitVec 32) :
    ∃ list', sscanfAddr (transferAddr sent recv parent) r list = some (2, s, list') ∧
      list'.text = some c.text.toList := by
  rw [transferAddr, Buffer.memcpy_all, Buffer.memcpy_all]
  exact sscanfAddr_of_text (Buffer.text_put (addrText_plain s.toInt c) hp) (Buffer.le_of_put hp)

theorem addr_injective {addr' sent sent' : Address} {s' : BitVec 32} {c' : Contact}
    (hp : sprintfAddr addr s c.text = some sent) (hp' : sprintfAddr addr' s' c'.text = some sent')
    (h : sent.text = sent'.text) : s = s' ∧ c.text = c'.text := by
  obtain ⟨l, hl, ht⟩ := sscanfAddr_sprintfAddr hp sent sent addr s
  obtain ⟨l', hl', ht'⟩ := sscanfAddr_sprintfAddr hp' sent sent addr s
  simp only [sscanfAddr, transferAddr, Buffer.memcpy_all] at hl hl'
  rw [h, hl'] at hl
  cases hl
  rw [ht'] at ht
  exact ⟨rfl, (String.toList_inj.mp (Option.some.inj ht)).symm⟩

end

/-- Printing, sending the array and scanning gives back the stone and the contact list,
so the address determines both. -/
theorem address_roundtrip (s : BitVec 32) (c : Contact) (addr recv parent list : Address) (r : BitVec 32)
    (hfit : (addrText s.toInt c.text).length + 1 ≤ addressSize) :
    ∃ sent list', sprintfAddr addr s c.text = some sent ∧
      sscanfAddr (transferAddr sent recv parent) r list = some (2, s, list') ∧
      list'.text = some c.text.toList ∧
      ∀ (s' : BitVec 32) (c' : Contact) (addr' sent' : Address), sprintfAddr addr' s' c'.text = some sent' →
        sent.text = sent'.text → s = s' ∧ c.text = c'.text := by
  obtain ⟨sent, hp⟩ := addr.put_eq_some hfit
  obtain ⟨list', hs, hl⟩ := sscanfAddr_sprintfAddr hp recv parent list r
  exact ⟨sent, list', hp, hs, hl, fun s' c' addr' sent' hp' h => addr_injective hp hp' h⟩

theorem address_roundtrip_digits :
    ∃ sent list', sprintfAddr (Buffer.fill 'x' addressSize) (-7) "12:34" = some sent ∧
      sscanfAddr (transferAddr sent (Buffer.fill 'y' addressSize) (Buffer.fill 'z' addressSize)) 0
        (Buffer.fill 'w' addressSize) = some (2, -7, list') ∧
      list'.text = some "12:34".toList ∧
      ∀ (s' : BitVec 32) (c' : Contact) (addr' sent' : Address), sprintfAddr addr' s' c'.text = some sent' →
        sent.text = sent'.text → -7 = s' ∧ "12:34" = c'.text :=
  address_roundtrip (-7) ⟨"12:34", by decide, by decide⟩ (Buffer.fill 'x' addressSize) (Buffer.fill 'y' addressSize)
    (Buffer.fill 'z' addressSize) (Buffer.fill 'w' addressSize) 0 (by decide)

end Clarisse
