import Mathlib.Data.List.Basic
import Mathlib.Logic.Function.Basic
import Mathlib.Tactic.Common

/-!
# Doubly linked lists

The links of a heap are functions from addresses to optional addresses. A list is
represented when its elements are visited in order along one link and in the
reverse order along the other. Insertion at the front and unlinking keep both
paths; the facts about one link hold of the other on the reversed list.
-/

namespace LinkedList

variable {P : Type}

/-- Following the link from `o` visits the list and ends at null. -/
def Path (next : P → Option P) : Option P → List P → Prop
  | o, [] => o = none
  | o, p :: l => o = some p ∧ Path next (next p) l

structure Linked (next prev : P → Option P) (l : List P) : Prop where
  forward : Path next l.head? l
  backward : Path prev l.reverse.head? l.reverse

def setAt [DecidableEq P] (o v : Option P) (link : P → Option P) : P → Option P :=
  match o with
  | none => link
  | some q => Function.update link q v

section
variable {next next' prev prev' : P → Option P} {o : Option P} {p q : P} {l m : List P}

theorem Path.head (h : Path next o l) : o = l.head? := by
  cases l with
  | nil => exact h
  | cons p l => exact h.1

theorem Path.congr (h : Path next o l) (he : ∀ p ∈ l, next' p = next p) : Path next' o l := by
  induction l generalizing o with
  | nil => exact h
  | cons p l ih =>
    refine ⟨h.1, ?_⟩
    rw [he p (by simp)]
    exact ih h.2 fun q hq => he q (List.mem_cons_of_mem _ hq)

theorem Path.unique (h : Path next o l) (h' : Path next o m) : l = m := by
  induction l generalizing o m with
  | nil =>
    cases m with
    | nil => rfl
    | cons q m => exact absurd (h.symm.trans h'.1) (by simp)
  | cons p l ih =>
    cases m with
    | nil => exact absurd (h'.symm.trans h.1) (by simp)
    | cons q m =>
      obtain rfl : p = q := Option.some.inj (h.1.symm.trans h'.1)
      rw [ih h.2 h'.2]

theorem Path.suffix (h : Path next o (l ++ m)) : Path next m.head? m := by
  induction l generalizing o with
  | nil =>
    rw [List.nil_append] at h
    exact h.head ▸ h
  | cons p l ih => exact ih h.2

theorem Path.nodup (h : Path next o l) : l.Nodup := by
  induction l generalizing o with
  | nil => exact List.nodup_nil
  | cons p l ih =>
    refine List.nodup_cons.mpr ⟨fun hp => ?_, ih h.2⟩
    obtain ⟨as, bs, rfl⟩ := List.append_of_mem hp
    have hs : Path next (some p) (p :: bs) := Path.suffix (l := p :: as) h
    have hw : Path next (some p) (p :: (as ++ p :: bs)) := ⟨rfl, h.2⟩
    have := congrArg List.length (hw.unique hs)
    simp only [List.length_cons, List.length_append] at this
    omega

theorem Path.next_eq (h : Path next o (l ++ p :: m)) : next p = m.head? :=
  (Path.suffix (l := l) h).2.head

section
variable [DecidableEq P]

theorem Path.update_of_notMem (h : Path next o l) (hp : p ∉ l) (v : Option P) :
    Path (Function.update next p v) o l :=
  h.congr fun q hq => Function.update_of_ne (fun he : q = p => hp (he ▸ hq)) _ _

theorem Path.cons (h : Path next l.head? l) (hp : p ∉ l) :
    Path (Function.update next p l.head?) (some p) (p :: l) := by
  refine ⟨rfl, ?_⟩
  rw [Function.update_self]
  exact h.update_of_notMem hp _

theorem Path.redirect (h : Path next o (l ++ m)) {m' : List P} (hm : Path next m'.head? m')
    (hd : ∀ q ∈ m', q ∉ l) : Path (setAt l.getLast? m'.head? next) (l ++ m').head? (l ++ m') := by
  induction l generalizing o with
  | nil => exact hm
  | cons a l ih =>
    cases l with
    | nil =>
      refine ⟨rfl, ?_⟩
      change Path (Function.update next a _) (Function.update next a _ a) m'
      rw [Function.update_self]
      exact hm.update_of_notMem (fun ha => hd a ha (by simp)) _
    | cons b l =>
      have hrest := ih h.2 fun q hq hmem => hd q hq (List.mem_cons_of_mem _ hmem)
      obtain ⟨z, hz⟩ : ∃ z, (b :: l).getLast? = some z := ⟨_, List.getLast?_cons⟩
      have hne : a ≠ z := by
        intro he
        have hnd : (a :: (b :: l ++ m)).Nodup := h.nodup
        exact (List.nodup_cons.mp hnd).1 (List.mem_append_left _ (he ▸ List.mem_of_getLast? hz))
      have hlast : (a :: b :: l).getLast? = some z := hz
      rw [hz] at hrest
      rw [hlast]
      refine ⟨rfl, ?_⟩
      have hnext : setAt (some z) m'.head? next a = some b := (Function.update_of_ne hne _ _).trans h.2.1
      rw [hnext]
      exact hrest

theorem Path.snoc (h : Path next o l) (hp : p ∉ l) (hn : next p = none) :
    Path (setAt l.getLast? (some p) next) (l ++ [p]).head? (l ++ [p]) := by
  have h' : Path next o (l ++ []) := by rwa [List.append_nil]
  have hm : Path next [p].head? [p] := ⟨rfl, hn⟩
  refine h'.redirect hm fun q hq => ?_
  rw [List.mem_singleton.mp hq]
  exact hp

theorem Path.remove (h : Path next o (l ++ p :: m)) :
    Path (setAt l.getLast? (next p) next) (l ++ m).head? (l ++ m) := by
  have hm : Path next m.head? m := Path.suffix (l := l ++ [p]) (by simpa using h)
  rw [h.next_eq]
  refine h.redirect hm fun q hq hmem => ?_
  exact (List.nodup_append.mp h.nodup).2.2 q hmem q (List.mem_cons_of_mem _ hq) rfl

end

theorem setAt_of_ne [DecidableEq P] {v : Option P} (h : o ≠ some q) : setAt o v next q = next q := by
  cases o with
  | none => rfl
  | some p => exact Function.update_of_ne (fun he => h (congrArg some he.symm)) _ _

/-! ## Both links -/

theorem Linked.reverse (h : Linked next prev l) : Linked prev next l.reverse :=
  ⟨h.backward, by rw [List.reverse_reverse]; exact h.forward⟩

theorem Linked.nodup (h : Linked next prev l) : l.Nodup := h.forward.nodup

theorem Linked.congr (h : Linked next prev l) (hn : ∀ p ∈ l, next' p = next p) (hp : ∀ p ∈ l, prev' p = prev p) :
    Linked next' prev' l :=
  ⟨h.forward.congr hn, h.backward.congr fun q hq => hp q (List.mem_reverse.mp hq)⟩

theorem Linked.next_eq (h : Linked next prev (l ++ p :: m)) : next p = m.head? := h.forward.next_eq

theorem Linked.prev_eq (h : Linked next prev (l ++ p :: m)) : prev p = l.getLast? := by
  have hb : Linked prev next (m.reverse ++ p :: l.reverse) := by simpa using h.reverse
  rw [hb.next_eq, List.head?_reverse]

theorem linked_nil : Linked next prev [] := ⟨rfl, rfl⟩

section
variable [DecidableEq P]

theorem Linked.pushFront (h : Linked next prev l) (hp : p ∉ l) :
    Linked (Function.update next p l.head?) (setAt l.head? (some p) (Function.update prev p none)) (p :: l) := by
  refine ⟨h.forward.cons hp, ?_⟩
  have hr : p ∉ l.reverse := fun hm => hp (List.mem_reverse.mp hm)
  have hs := (h.backward.update_of_notMem hr none).snoc hr (Function.update_self ..)
  rwa [List.getLast?_reverse, ← List.reverse_cons] at hs

theorem Linked.pushBack (h : Linked next prev l) (hp : p ∉ l) :
    Linked (setAt l.getLast? (some p) (Function.update next p none)) (Function.update prev p l.getLast?)
      (l ++ [p]) := by
  have hr := (h.reverse.pushFront (p := p) fun hm => hp (List.mem_reverse.mp hm)).reverse
  rwa [List.head?_reverse, List.reverse_cons, List.reverse_reverse] at hr

theorem Linked.unlink (h : Linked next prev (l ++ p :: m)) :
    Linked (setAt (prev p) (next p) next) (setAt (next p) (prev p) prev) (l ++ m) := by
  have hb : Path prev (m.reverse ++ p :: l.reverse).head? (m.reverse ++ p :: l.reverse) := by
    simpa using h.backward
  refine ⟨?_, ?_⟩
  · rw [h.prev_eq]
    exact h.forward.remove
  · have hr := hb.remove
    rw [List.getLast?_reverse, ← h.next_eq, ← List.reverse_append] at hr
    exact hr

end

end

end LinkedList
