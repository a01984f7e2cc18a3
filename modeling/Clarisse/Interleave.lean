import Mathlib.Data.Finset.Card
import Mathlib.Data.List.Nodup
import Mathlib.Order.Bounds.Basic
import Mathlib.Tactic.Common

/-!
# Interleavings of numbered streams

Several sources send items numbered 0, 1, 2, ... to one place, each in order; the
list of arrivals, tagged by source, is any interleaving of them. The items of
one number form a level, and a level is full when every source has sent it.
-/

namespace Interleave

section
variable {ι α : Type} [DecidableEq ι] (ts : α → Nat)

def stream (i : ι) (w : List (ι × α)) : List α :=
  (w.filter fun x => x.1 = i).map Prod.snd

/-- The arrivals numbered `t`. -/
def level (t : Nat) (w : List (ι × α)) : List (ι × α) :=
  w.filter fun x => ts x.2 = t

def items (t : Nat) (l : List α) : List α :=
  l.filter fun x => ts x = t

def InOrder (l : List α) : Prop := l.map ts = List.range l.length

instance (l : List α) : Decidable (InOrder ts l) := inferInstanceAs (Decidable (_ = _))

/-- `w` interleaves in-order streams of the sources `S`. -/
structure Interleaved (S : Finset ι) (w : List (ι × α)) : Prop where
  tag : ∀ x ∈ w, x.1 ∈ S
  order : ∀ i ∈ S, InOrder ts (stream i w)

/-! ## Streams in order -/

theorem inOrder_snoc {l : List α} {x : α} : InOrder ts (l ++ [x]) ↔ InOrder ts l ∧ ts x = l.length := by
  unfold InOrder
  rw [List.map_append, List.length_append, List.length_singleton, List.range_succ]
  refine ⟨?_, ?_⟩
  · intro h
    obtain ⟨h1, h2⟩ := List.append_inj h (by simp)
    exact ⟨h1, by simpa using h2⟩
  · rintro ⟨h1, h2⟩
    rw [h1, List.map_singleton, h2]

theorem inOrder_append_left {l m : List α} (h : InOrder ts (l ++ m)) : InOrder ts l := by
  induction m using List.reverseRecOn with
  | nil => simpa using h
  | append_singleton m x ih =>
    rw [← List.append_assoc, inOrder_snoc] at h
    exact ih h.1

theorem inOrder_of_le {l m : List α} (hp : l <+: m) (h : InOrder ts m) : InOrder ts l := by
  obtain ⟨r, rfl⟩ := hp
  exact inOrder_append_left ts h

theorem inOrder_get {l : List α} (h : InOrder ts l) {k : Nat} {x : α} (hx : l[k]? = some x) : ts x = k := by
  have hk : k < l.length := (List.getElem?_eq_some_iff.mp hx).1
  have e : (l.map ts)[k]? = (List.range l.length)[k]? := by rw [h]
  rw [List.getElem?_map, hx, List.getElem?_range hk] at e
  simpa using e

theorem getElem?_snoc {l : List α} {x y : α} {k : Nat} (h : (l ++ [x])[k]? = some y) :
    l[k]? = some y ∨ (k = l.length ∧ y = x) := by
  rcases Nat.lt_or_ge k l.length with hlt | hge
  · rw [List.getElem?_append_left hlt] at h
    exact Or.inl h
  · have hk : k = l.length := by
      have := (List.getElem?_eq_some_iff.mp h).1
      rw [List.length_append, List.length_singleton] at this
      omega
    rw [hk, List.getElem?_concat_length] at h
    exact Or.inr ⟨hk, (Option.some.inj h).symm⟩

theorem inOrder_of_get {l : List α} (h : ∀ k x, l[k]? = some x → ts x = k) : InOrder ts l := by
  induction l using List.reverseRecOn with
  | nil => rfl
  | append_singleton l x ih =>
    refine (inOrder_snoc ts).mpr ⟨ih fun k y hk => h k y ?_, h _ x List.getElem?_concat_length⟩
    rw [List.getElem?_append_left (List.getElem?_eq_some_iff.mp hk).1]
    exact hk

theorem inOrder_mem {l : List α} (h : InOrder ts l) (t : Nat) : (∃ x ∈ l, ts x = t) ↔ t < l.length := by
  refine ⟨?_, ?_⟩
  · intro hx
    obtain ⟨x, hx, rfl⟩ := hx
    have : ts x ∈ l.map ts := List.mem_map_of_mem hx
    rw [h, List.mem_range] at this
    exact this
  · intro ht
    exact ⟨l[t], List.getElem_mem ht, inOrder_get ts h (List.getElem?_eq_getElem ht)⟩

theorem items_inOrder {l : List α} (h : InOrder ts l) (t : Nat) : items ts t l = l[t]?.toList := by
  induction l using List.reverseRecOn with
  | nil => rfl
  | append_singleton l x ih =>
    obtain ⟨hl, hx⟩ := (inOrder_snoc ts).mp h
    unfold items at *
    rw [List.filter_append, ih hl, List.getElem?_append]
    rcases Nat.lt_trichotomy t l.length with ht | ht | ht
    · have : ts x ≠ t := by omega
      simp [ht, this]
    · subst ht
      simp [hx]
    · have h1 : ts x ≠ t := by omega
      have h2 : ¬ t < l.length := by omega
      have h4 : t - l.length ≠ 0 := by omega
      simp [h1, h2, h4]

/-! ## Streams and levels of an interleaving -/

theorem stream_append (i : ι) (u v : List (ι × α)) : stream i (u ++ v) = stream i u ++ stream i v := by
  simp [stream]

theorem stream_snoc (i j : ι) (w : List (ι × α)) (x : α) :
    stream i (w ++ [(j, x)]) = stream i w ++ if j = i then [x] else [] := by
  rw [stream_append]
  by_cases h : j = i <;> simp [stream, h]

theorem stream_le (i : ι) {u w : List (ι × α)} (h : u <+: w) : stream i u <+: stream i w := by
  obtain ⟨v, rfl⟩ := h
  rw [stream_append]
  exact List.prefix_append _ _

omit [DecidableEq ι] in
theorem level_append (t : Nat) (u v : List (ι × α)) : level ts t (u ++ v) = level ts t u ++ level ts t v := by
  simp [level]

omit [DecidableEq ι] in
theorem level_items (t : Nat) (w : List (ι × α)) : (level ts t w).map Prod.snd = items ts t (w.map Prod.snd) := by
  rw [items, List.filter_map]
  rfl

theorem stream_level (i : ι) (t : Nat) (w : List (ι × α)) :
    stream i (level ts t w) = items ts t (stream i w) := by
  unfold stream level items
  rw [List.filter_map, List.filter_filter, List.filter_filter]
  congr 1
  apply List.filter_congr
  intro x _
  simp [Bool.and_comm]

theorem mem_stream {i : ι} {x : α} {w : List (ι × α)} : x ∈ stream i w ↔ (i, x) ∈ w := by
  simp only [stream, List.mem_map, List.mem_filter, decide_eq_true_eq]
  refine ⟨?_, ?_⟩
  · rintro ⟨⟨j, y⟩, ⟨h, rfl⟩, rfl⟩
    exact h
  · intro h
    exact ⟨(i, x), ⟨h, rfl⟩, rfl⟩

theorem stream_deliver {i : ι} {w : List (ι × α)} {l : List α} {x : α} (h : stream i w <+: l)
    (hx : l[(stream i w).length]? = some x) : stream i (w ++ [(i, x)]) <+: l := by
  obtain ⟨r, rfl⟩ := h
  rw [List.getElem?_append_right (Nat.le_refl _), Nat.sub_self] at hx
  cases r with
  | nil => cases hx
  | cons y r =>
    cases hx
    rw [stream_snoc, if_pos rfl]
    exact ⟨r, by simp⟩

variable {ts}
variable {S : Finset ι} {w : List (ι × α)}

theorem Interleaved.left {u v : List (ι × α)} (h : Interleaved ts S (u ++ v)) : Interleaved ts S u where
  tag x hx := h.tag x (List.mem_append_left _ hx)
  order i hi := by
    have := h.order i hi
    rw [stream_append] at this
    exact inOrder_append_left ts this

theorem interleaved_of_le (f : ι → List α) (ht : ∀ x ∈ w, x.1 ∈ S) (hl : ∀ i ∈ S, stream i w <+: f i)
    (ho : ∀ i ∈ S, InOrder ts (f i)) : Interleaved ts S w where
  tag := ht
  order i hi := inOrder_of_le ts (hl i hi) (ho i hi)

theorem Interleaved.next {i : ι} {x : α} (h : Interleaved ts S (w ++ [(i, x)])) :
    i ∈ S ∧ ts x = (stream i w).length := by
  have hi : i ∈ S := h.tag (i, x) (by simp)
  have := h.order i hi
  rw [stream_snoc, if_pos rfl, inOrder_snoc] at this
  exact ⟨hi, this.2⟩

theorem Interleaved.stream_level_eq (h : Interleaved ts S w) {i : ι} (hi : i ∈ S) (t : Nat) :
    stream i (level ts t w) = (stream i w)[t]?.toList := by
  rw [stream_level, items_inOrder ts (h.order i hi)]

theorem count_tags (i : ι) (w : List (ι × α)) : (w.map Prod.fst).count i = (stream i w).length := by
  induction w with
  | nil => rfl
  | cons x w ih =>
    rw [List.map_cons, List.count_cons, ih, stream, stream, List.filter_cons]
    by_cases hx : x.1 = i <;> simp [hx]

theorem Interleaved.tags_nodup (h : Interleaved ts S w) (t : Nat) : ((level ts t w).map Prod.fst).Nodup := by
  rw [List.nodup_iff_count_le_one]
  intro i
  rw [count_tags]
  by_cases hi : i ∈ S
  · rw [h.stream_level_eq hi]
    cases (stream i w)[t]? <;> simp
  · have : stream i (level ts t w) = [] := by
      apply List.eq_nil_iff_forall_not_mem.mpr
      intro x hx
      have hm := (List.mem_filter.mp (mem_stream.mp hx)).1
      exact hi (h.tag _ hm)
    simp [this]

theorem Interleaved.tags_eq (h : Interleaved ts S w) (t : Nat) :
    ((level ts t w).map Prod.fst).toFinset = S.filter fun i => t < (stream i w).length := by
  ext i
  rw [List.mem_toFinset, Finset.mem_filter, List.mem_map]
  refine ⟨?_, ?_⟩
  · rintro ⟨⟨j, x⟩, hx, rfl⟩
    have hw := (List.mem_filter.mp hx).1
    have hj : j ∈ S := h.tag _ hw
    refine ⟨hj, ?_⟩
    have hs : x ∈ stream j (level ts t w) := mem_stream.mpr hx
    rw [h.stream_level_eq hj] at hs
    simp only [Option.mem_toList] at hs
    exact (List.getElem?_eq_some_iff.mp hs).1
  · rintro ⟨hi, ht⟩
    have hs : (stream i w)[t] ∈ stream i (level ts t w) := by
      rw [h.stream_level_eq hi, List.getElem?_eq_getElem ht]
      simp
    exact ⟨_, mem_stream.mp hs, rfl⟩

theorem Interleaved.level_length (h : Interleaved ts S w) (t : Nat) :
    (level ts t w).length = (S.filter fun i => t < (stream i w).length).card := by
  rw [← h.tags_eq, List.toFinset_card_of_nodup (h.tags_nodup t), List.length_map]

theorem Interleaved.level_le (h : Interleaved ts S w) (t : Nat) : (level ts t w).length ≤ S.card := by
  rw [h.level_length]
  exact Finset.card_filter_le _ _

theorem Interleaved.full_iff (h : Interleaved ts S w) (t : Nat) :
    (level ts t w).length = S.card ↔ ∀ i ∈ S, t < (stream i w).length := by
  rw [h.level_length, Finset.card_filter_eq_iff]

theorem Interleaved.level_anti (h : Interleaved ts S w) {t u : Nat} (htu : t ≤ u) :
    (level ts u w).length ≤ (level ts t w).length := by
  rw [h.level_length, h.level_length]
  apply Finset.card_le_card
  intro i hi
  rw [Finset.mem_filter] at *
  exact ⟨hi.1, by omega⟩

theorem Interleaved.isLeast_iff (h : Interleaved ts S w) (m : Nat) :
    IsLeast {n | ∃ i ∈ S, (stream i w).length = n} m ↔
      (∀ t < m, (level ts t w).length = S.card) ∧ (level ts m w).length ≠ S.card := by
  refine ⟨?_, ?_⟩
  · intro hm
    obtain ⟨⟨i, hi, hl⟩, hlow⟩ := hm
    refine ⟨?_, ?_⟩
    · intro t ht
      rw [h.full_iff]
      intro j hj
      have : m ≤ (stream j w).length := hlow ⟨j, hj, rfl⟩
      omega
    · intro hf
      have := (h.full_iff m).mp hf i hi
      omega
  · intro hm
    obtain ⟨hfull, hnot⟩ := hm
    have hlow : ∀ j ∈ S, m ≤ (stream j w).length := by
      intro j hj
      rcases Nat.eq_zero_or_pos m with h0 | h0
      · omega
      · have := (h.full_iff (m - 1)).mp (hfull (m - 1) (by omega)) j hj
        omega
    refine ⟨?_, ?_⟩
    · rw [ne_eq, h.full_iff] at hnot
      refine Classical.byContradiction fun hc => hnot fun i hi => ?_
      have := hlow i hi
      rcases Nat.lt_or_ge m (stream i w).length with hlt | hge
      · exact hlt
      · exact absurd ⟨i, hi, by omega⟩ hc
    · intro n hn
      obtain ⟨j, hj, rfl⟩ := hn
      exact hlow j hj

theorem Interleaved.full_perm (h : Interleaved ts S w) {t : Nat} (hf : (level ts t w).length = S.card) :
    ((level ts t w).map Prod.fst).Perm S.toList := by
  apply List.perm_of_nodup_nodup_toFinset_eq (h.tags_nodup t) (Finset.nodup_toList S)
  rw [h.tags_eq, Finset.toList_toFinset, Finset.filter_eq_self]
  exact (h.full_iff t).mp hf

theorem Interleaved.mem_level (h : Interleaved ts S w) {t : Nat} {i : ι} {x : α} (hx : (i, x) ∈ level ts t w) :
    i ∈ S ∧ (stream i w)[t]? = some x := by
  have hi : i ∈ S := h.tag _ (List.mem_filter.mp hx).1
  have hs := mem_stream.mpr hx
  rw [h.stream_level_eq hi] at hs
  simp only [Option.mem_toList] at hs
  exact ⟨hi, hs⟩

end

/-! ## Staircases -/

section
variable {ι α : Type} [DecidableEq ι] (ts : α → Nat)

/-- What an interleaving of `K` streams looks like without the tags: when an
item arrives, all smaller numbers are there and no number from its own on is
complete. -/
def Stair (K : Nat) (l : List α) : Prop :=
  ∀ u x, (u ++ [x]) <+: l →
    (∀ t < ts x, items ts t u ≠ []) ∧ ∀ t, ts x ≤ t → (items ts t u).length < K

theorem Stair.left {K : Nat} {l m : List α} (h : Stair ts K (l ++ m)) : Stair ts K l :=
  fun u x hu => h u x (hu.trans (List.prefix_append _ _))

theorem Stair.last {K : Nat} {l : List α} {x : α} (h : Stair ts K (l ++ [x])) :
    (∀ t < ts x, items ts t l ≠ []) ∧ ∀ t, ts x ≤ t → (items ts t l).length < K :=
  h l x (List.prefix_refl _)

theorem items_append (t : Nat) (l m : List α) : items ts t (l ++ m) = items ts t l ++ items ts t m := by
  simp [items]

theorem items_snoc (t : Nat) (l : List α) (x : α) :
    items ts t (l ++ [x]) = items ts t l ++ if ts x = t then [x] else [] := by
  rw [items_append]
  by_cases h : ts x = t <;> simp [items, h]

theorem items_snoc_self (l : List α) (x : α) : items ts (ts x) (l ++ [x]) = items ts (ts x) l ++ [x] := by
  rw [items_snoc, if_pos rfl]

theorem items_snoc_of_ne {t : Nat} (l : List α) {x : α} (h : ts x ≠ t) : items ts t (l ++ [x]) = items ts t l := by
  rw [items_snoc, if_neg h, List.append_nil]

theorem mem_items {t : Nat} {l : List α} {x : α} : x ∈ items ts t l ↔ x ∈ l ∧ ts x = t := by
  simp [items]

variable {ts}
variable {S : Finset ι} {w : List (ι × α)}

theorem Interleaved.stair (h : Interleaved ts S w) : Stair ts S.card (w.map Prod.snd) := by
  intro u x hu
  obtain ⟨r, hr⟩ := hu
  obtain ⟨w', v, rfl, hw', -⟩ := List.map_eq_append_iff.mp hr.symm
  obtain ⟨w₁, w₂, rfl, rfl, hx⟩ := List.map_eq_append_iff.mp hw'
  obtain ⟨y, rfl, rfl⟩ := List.map_eq_singleton_iff.mp hx
  obtain ⟨i, y⟩ := y
  have hl := h.left.left
  obtain ⟨hi, hy⟩ := h.left.next
  refine ⟨?_, ?_⟩
  · intro t ht
    have hm : i ∈ ((level ts t w₁).map Prod.fst).toFinset := by
      rw [hl.tags_eq, Finset.mem_filter]
      exact ⟨hi, by dsimp only at ht; omega⟩
    rw [← level_items]
    intro he
    rw [List.mem_toFinset, List.mem_map] at hm
    obtain ⟨z, hz, -⟩ := hm
    rw [List.map_eq_nil_iff] at he
    rw [he] at hz
    cases hz
  · intro t ht
    rw [← level_items, List.length_map]
    refine Nat.lt_of_le_of_ne (hl.level_le t) fun he => ?_
    have := (hl.full_iff t).mp he i hi
    dsimp only at ht
    omega

end

end Interleave
