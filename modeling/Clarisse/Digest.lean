import Mathlib.Algebra.BigOperators.Group.Finset.Basic
import Mathlib.Order.Bounds.Basic

/-!
# Minimum, maximum and sum over a set

A digest of a family of values over a finite set is their minimum, maximum and
sum. Digests of disjoint sets merge to that of the union, so the order in which
they are merged does not matter, and whether each index is counted once can be
read off the set.
-/

structure Digest (α : Type) where
  min : α
  max : α
  sum : α

namespace Digest

section
variable {ι α : Type} [LinearOrder α] [AddCommMonoid α]

def single (a : α) : Digest α := ⟨a, a, a⟩

def merge (d e : Digest α) : Digest α := ⟨d.min ⊓ e.min, d.max ⊔ e.max, d.sum + e.sum⟩

structure Of (f : ι → α) (X : Finset ι) (d : Digest α) : Prop where
  min : IsLeast (f '' X) d.min
  max : IsGreatest (f '' X) d.max
  sum : d.sum = ∑ x ∈ X, f x

variable {f : ι → α}

theorem Of.single (x : ι) : Of f {x} (single (f x)) where
  min := by simp [Digest.single]
  max := by simp [Digest.single]
  sum := by simp [Digest.single]

variable [DecidableEq ι]

theorem Of.union {X Y : Finset ι} {d e : Digest α} (hd : Of f X d) (he : Of f Y e) (h : Disjoint X Y) :
    Of f (X ∪ Y) (d.merge e) where
  min := by
    rw [Finset.coe_union, Set.image_union]
    exact hd.min.union he.min
  max := by
    rw [Finset.coe_union, Set.image_union]
    exact hd.max.union he.max
  sum := by
    rw [Finset.sum_union h, ← hd.sum, ← he.sum]
    rfl

theorem Of.fold {κ : Type} [DecidableEq κ] {part : κ → Finset ι} (first : κ × Digest α) (rest : List (κ × Digest α))
    (hn : ((first :: rest).map Prod.fst).Nodup) (hd : ∀ x ∈ first :: rest, Of f (part x.1) x.2)
    (hp : ∀ x ∈ first :: rest, ∀ y ∈ first :: rest, x.1 ≠ y.1 → Disjoint (part x.1) (part y.1)) :
    Of f (((first :: rest).map Prod.fst).toFinset.biUnion part) (rest.foldl (fun d x => d.merge x.2) first.2) := by
  induction rest using List.reverseRecOn with
  | nil => simpa using hd first (List.mem_singleton_self _)
  | append_singleton rest x ih =>
    rw [← List.cons_append] at hn hd hp ⊢
    have hx : x ∈ first :: rest ++ [x] := by simp
    have hmem : ∀ y ∈ first :: rest, y ∈ first :: rest ++ [x] := fun y hy => List.mem_append_left _ hy
    rw [List.map_append, List.nodup_append] at hn
    have hrest := ih hn.1 (fun y hy => hd y (hmem y hy)) fun y hy z hz => hp y (hmem y hy) z (hmem z hz)
    rw [List.map_append, List.toFinset_append, Finset.union_biUnion, List.foldl_append]
    have hdis : Disjoint (((first :: rest).map Prod.fst).toFinset.biUnion part) (part x.1) := by
      rw [Finset.disjoint_biUnion_left]
      intro i hi
      rw [List.mem_toFinset, List.mem_map] at hi
      obtain ⟨y, hy, rfl⟩ := hi
      exact hp y (hmem y hy) x hx (hn.2.2 y.1 (List.mem_map_of_mem hy) x.1 (by simp))
    have hlast := hrest.union (hd x hx) hdis
    simpa using hlast

end

/-! ## Digests of a list -/

section
variable {α : Type} [LinearOrder α] [AddCommMonoid α]

structure OfList (l : List (Digest α)) (d : Digest α) : Prop where
  min : IsLeast {a | ∃ e ∈ l, e.min = a} d.min
  max : IsGreatest {a | ∃ e ∈ l, e.max = a} d.max
  sum : d.sum = (l.map Digest.sum).sum

theorem OfList.singleton (d : Digest α) : OfList [d] d where
  min := by simp
  max := by simp
  sum := by simp

theorem OfList.snoc {l : List (Digest α)} {d : Digest α} (h : OfList l d) (e : Digest α) :
    OfList (l ++ [e]) (d.merge e) where
  min := by
    have hset : {a | ∃ x ∈ l ++ [e], x.min = a} = {a | ∃ x ∈ l, x.min = a} ∪ {e.min} := by
      ext a
      simp [or_and_right, exists_or, eq_comm, or_comm]
    rw [hset]
    exact h.min.union isLeast_singleton
  max := by
    have hset : {a | ∃ x ∈ l ++ [e], x.max = a} = {a | ∃ x ∈ l, x.max = a} ∪ {e.max} := by
      ext a
      simp [or_and_right, exists_or, eq_comm, or_comm]
    rw [hset]
    exact h.max.union isGreatest_singleton
  sum := by
    rw [List.map_append, List.sum_append, ← h.sum]
    simp [merge]

theorem OfList.foldl (d : Digest α) (l : List (Digest α)) : OfList (d :: l) (l.foldl merge d) := by
  induction l using List.reverseRecOn with
  | nil => exact OfList.singleton d
  | append_singleton l e ih =>
    rw [List.foldl_append, ← List.cons_append]
    exact ih.snoc e

theorem OfList.perm {l l' : List (Digest α)} {d : Digest α} (hp : l.Perm l') (h : OfList l d) : OfList l' d where
  min := by
    have := h.min
    simpa only [hp.mem_iff] using this
  max := by
    have := h.max
    simpa only [hp.mem_iff] using this
  sum := h.sum.trans (hp.map _).sum_eq

end

end Digest
