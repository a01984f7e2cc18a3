import Clarisse.UtHashItems
import Mathlib.Data.Fintype.EquivFin
import Mathlib.Data.Finset.Basic

/-!
# A hash table is a map

What the program does with its tables: it looks a key up, adds an element that it
allocates, changes the value of an element it has found, takes an element out and
frees it, and frees them all. Seen from outside the table is a map, and no other
element is in memory.
-/

namespace UtHash

variable {P K V : Type}

def hashGet [DecidableEq K] (hash : K → Nat) (s : Hash P K V) (key : K) : Option (Option V) := do
  match ← hashFind hash s key with
  | none => some none
  | some found => (s.heap found).map fun e => some e.value

section
variable [DecidableEq P]

/-- `malloc`, the fields of the element, `HASH_ADD`, which fills the handle in. -/
def hashInsert (hash : K → Nat) (malloc : Heap P K V → P) (s : Hash P K V) (key : K) (value : V) :
    Option (Hash P K V) :=
  let p := malloc s.heap
  hashAdd hash { s with heap := Function.update s.heap p (some ⟨key, value, none, none, none, none, 0⟩) } p

def hashUpsert [DecidableEq K] (hash : K → Nat) (malloc : Heap P K V → P) (s : Hash P K V) (key : K) (value : V)
    (f : V → V) : Option (Hash P K V) := do
  match ← hashFind hash s key with
  | none => hashInsert hash malloc s key value
  | some found => do
    let heap ← s.heap.modify (some found) fun e => { e with value := f e.value }
    some { s with heap := heap }

/-- `HASH_DEL(head, found); free(found);`. -/
def hashRemove (s : Hash P K V) (found : P) : Option (Hash P K V) := do
  let s ← hashDelete s found
  let heap ← s.heap.free found
  some { s with heap := heap }

inductive Command (K V : Type) where
  | get (key : K)
  | upsert (key : K) (value : V) (f : V → V)
  | remove (key : K)
  | clear

/-- The table after the command, and what the command has found. -/
def exec [DecidableEq K] (hash : K → Nat) (malloc : Heap P K V → P) (s : Hash P K V) :
    Command K V → Option (Hash P K V × Option V)
  | .get key => do
    let found ← hashGet hash s key
    some (s, found)
  | .upsert key value f => do
    let found ← hashGet hash s key
    let s ← hashUpsert hash malloc s key value f
    some (s, found)
  | .remove key => do
    match ← hashFind hash s key with
    | none => some (s, none)
    | some p => do
      let found ← hashGet hash s key
      let s ← hashRemove s p
      some (s, found)
  | .clear => do
    let s ← hashDeleteAll s
    some (s, none)

end

def execAll [DecidableEq P] [DecidableEq K] (hash : K → Nat) (malloc : Nat → Heap P K V → P) :
    Nat → Hash P K V → List (Command K V) → Option (Hash P K V × List (Option V))
  | _, s, [] => some (s, [])
  | n, s, c :: cs => do
    let (s, found) ← exec hash (malloc n) s c
    let (s, rest) ← execAll hash malloc (n + 1) s cs
    some (s, found :: rest)

def Command.apply [DecidableEq K] (f : K → Option V) : Command K V → (K → Option V) × Option V
  | .get key => (f, f key)
  | .upsert key value g => (Function.update f key (some (((f key).map g).getD value)), f key)
  | .remove key => (Function.update f key none, f key)
  | .clear => (fun _ => none, none)

def applyAll [DecidableEq K] : (K → Option V) → List (Command K V) → (K → Option V) × List (Option V)
  | f, [] => (f, [])
  | f, c :: cs => ((applyAll (c.apply f).1 cs).1, (c.apply f).2 :: (applyAll (c.apply f).1 cs).2)

/-- What `malloc` promises, while the elements in memory are finitely many. -/
def Fresh (malloc : Heap P K V → P) : Prop :=
  ∀ (m : Heap P K V) (l : List P), (∀ q, (m q).isSome → q ∈ l) → m (malloc m) = none

/-- `f` has the keys and values of the elements in memory. -/
structure Contents (d : P → Option (K × V)) (f : K → Option V) : Prop where
  maps : ∀ k v, f k = some v ↔ ∃ p, d p = some (k, v)
  distinct : ∀ k p q v w, d p = some (k, v) → d q = some (k, w) → p = q

def Heap.contents (m : Heap P K V) : P → Option (K × V) := fun p => (m p).map Elem.data

/-- The table holds `l`, and nothing else is in memory. -/
structure Represents (hash : K → Nat) (s : Hash P K V) (l : List P) (f : K → Option V) : Prop where
  holds : Holds hash s l
  memory : ∀ q, (s.heap q).isSome → q ∈ l
  contents : Contents s.heap.contents f

def Hash.empty : Hash P K V := ⟨fun _ => none, none, none⟩

section
variable {hash : K → Nat} {s s' : Hash P K V} {l : List P} {f : K → Option V} {p q : P} {k : K} {v w : V}
  {e : Elem P K V} {d : P → Option (K × V)} {m : Heap P K V}

theorem contents_none (hd : ∀ p, d p = none) : Contents d fun _ => none :=
  ⟨by simp [hd], by simp [hd]⟩

theorem Contents.set [DecidableEq P] [DecidableEq K] (h : Contents d f)
    (hp : d p = some (k, w) ∨ d p = none ∧ f k = none) (v : V) :
    Contents (Function.update d p (some (k, v))) (Function.update f k (some v)) := by
  have hother : ∀ q v, q ≠ p → d q ≠ some (k, v) := by
    intro q v hq hd
    rcases hp with hp | ⟨-, hk⟩
    · exact hq (h.distinct k q p v w hd hp)
    · exact absurd ((h.maps k v).mpr ⟨q, hd⟩) (by simp [hk])
  have hpk : ∀ k' v, k' ≠ k → d p ≠ some (k', v) := by
    intro k' v hk' hd
    rcases hp with hp | ⟨hp, -⟩
    · rw [hp, Option.some.injEq, Prod.mk.injEq] at hd
      exact hk' hd.1.symm
    · exact absurd hd (by simp [hp])
  refine ⟨fun k' v' => ?_, fun k' q q' v' w' hq hq' => ?_⟩
  · by_cases hk : k' = k
    · subst hk
      rw [Function.update_self, Option.some.injEq]
      constructor
      · rintro rfl
        exact ⟨p, Function.update_self ..⟩
      · rintro ⟨q, hq⟩
        by_cases hqp : q = p
        · subst hqp
          rw [Function.update_self] at hq
          exact (Prod.mk.inj (Option.some.inj hq)).2
        · rw [Function.update_of_ne hqp] at hq
          exact absurd hq (hother q v' hqp)
    · rw [Function.update_of_ne hk, h.maps]
      constructor
      · rintro ⟨q, hq⟩
        have hqp : q ≠ p := fun he => hpk k' v' hk (he ▸ hq)
        exact ⟨q, by rw [Function.update_of_ne hqp, hq]⟩
      · rintro ⟨q, hq⟩
        have hqp : q ≠ p := by
          rintro rfl
          rw [Function.update_self] at hq
          exact hk (Prod.mk.inj (Option.some.inj hq)).1.symm
        exact ⟨q, by rwa [Function.update_of_ne hqp] at hq⟩
  · by_cases hqp : q = p <;> by_cases hqp' : q' = p
    · rw [hqp, hqp']
    · subst hqp
      rw [Function.update_self, Option.some.injEq, Prod.mk.injEq] at hq
      rw [Function.update_of_ne hqp', ← hq.1] at hq'
      exact absurd hq' (hother q' w' hqp')
    · subst hqp'
      rw [Function.update_self, Option.some.injEq, Prod.mk.injEq] at hq'
      rw [Function.update_of_ne hqp, ← hq'.1] at hq
      exact absurd hq (hother q v' hqp)
    · rw [Function.update_of_ne hqp] at hq
      rw [Function.update_of_ne hqp'] at hq'
      exact h.distinct k' q q' v' w' hq hq'

theorem Contents.erase [DecidableEq P] [DecidableEq K] (h : Contents d f) (hp : d p = some (k, w)) :
    Contents (Function.update d p none) (Function.update f k none) := by
  have hne : ∀ q k' v, Function.update d p none q = some (k', v) → q ≠ p ∧ d q = some (k', v) := by
    intro q k' v hq
    have hqp : q ≠ p := by
      rintro rfl
      simp at hq
    exact ⟨hqp, by rwa [Function.update_of_ne hqp] at hq⟩
  refine ⟨fun k' v' => ?_, fun k' q q' v' w' hq hq' => ?_⟩
  · by_cases hk : k' = k
    · subst hk
      rw [Function.update_self]
      refine ⟨fun h => by simp at h, ?_⟩
      rintro ⟨q, hq⟩
      obtain ⟨hqp, hd⟩ := hne q _ _ hq
      exact absurd (h.distinct _ q p _ _ hd hp) hqp
    · rw [Function.update_of_ne hk, h.maps]
      constructor
      · rintro ⟨q, hq⟩
        have hqp : q ≠ p := by
          rintro rfl
          rw [hp, Option.some.injEq, Prod.mk.injEq] at hq
          exact hk hq.1.symm
        exact ⟨q, by rw [Function.update_of_ne hqp, hq]⟩
      · rintro ⟨q, hq⟩
        exact ⟨q, (hne q _ _ hq).2⟩
  · exact h.distinct k' q q' v' w' (hne q _ _ hq).2 (hne q' _ _ hq').2

theorem contents_eq (he : m p = some e) : m.contents p = some (e.key, e.value) := by
  rw [Heap.contents, he]
  rfl

theorem isSome_contents (m : Heap P K V) (p : P) : (m.contents p).isSome = (m p).isSome := Option.isSome_map

theorem represents_empty (hash : K → Nat) : Represents hash (Hash.empty : Hash P K V) [] fun _ => none :=
  ⟨Holds.nil rfl rfl, fun _ h => by simp [Hash.empty] at h, contents_none fun _ => rfl⟩

theorem Represents.find [DecidableEq K] (h : Represents hash s l f) (k : K) :
    hashFind hash s k = some none ∧ f k = none ∨
      ∃ p e, hashFind hash s k = some (some p) ∧ p ∈ l ∧ s.heap p = some e ∧ e.key = k ∧ f k = some e.value := by
  obtain ⟨r, hr, hsome, hnone⟩ := hashFind_spec h.holds k
  cases r with
  | none =>
    refine Or.inl ⟨hr, Option.eq_none_iff_forall_ne_some.mpr fun v hf => ?_⟩
    obtain ⟨p, hd⟩ := (h.contents.maps k v).mp hf
    obtain ⟨e, he, hkv⟩ := Option.map_eq_some_iff.mp hd
    have hp : p ∈ l := h.memory p (by rw [he]; rfl)
    refine hnone rfl p hp ?_
    rw [he, Option.map_some, show e.key = k from congrArg Prod.fst hkv]
  | some p =>
    obtain ⟨hp, hk⟩ := hsome p rfl
    obtain ⟨e, he, rfl⟩ := Option.map_eq_some_iff.mp hk
    exact Or.inr ⟨p, e, hr, hp, he, rfl, (h.contents.maps _ _).mpr ⟨p, contents_eq he⟩⟩

theorem Represents.get [DecidableEq K] (h : Represents hash s l f) (k : K) : hashGet hash s k = some (f k) := by
  rcases h.find k with ⟨hr, hf⟩ | ⟨p, e, hr, -, he, -, hf⟩
  · simp only [hashGet, hr, hf, Option.bind_eq_bind, Option.bind_some]
  · simp only [hashGet, hr, hf, he, Option.bind_eq_bind, Option.bind_some, Option.map_some]

theorem Represents.clear [DecidableEq P] (h : Represents hash s l f) :
    ∃ s', hashDeleteAll s = some s' ∧ Represents hash s' [] fun _ => none := by
  obtain ⟨s', hs', hh, hd⟩ := hashDeleteAll_spec h.holds
  have hnone : ∀ q, s'.heap.contents q = none := by
    intro q
    rw [Heap.contents, hd q]
    split
    · rfl
    · rename_i hq
      cases hm : s.heap q with
      | none => rfl
      | some e => exact absurd (h.memory q (by rw [hm]; rfl)) hq
  refine ⟨s', hs', hh, fun q hq => ?_, contents_none hnone⟩
  rw [← isSome_contents, hnone q] at hq
  simp at hq

section
variable [DecidableEq P] [DecidableEq K]

theorem Represents.insert (h : Represents hash s l f) (hk : f k = none) {malloc : Heap P K V → P} (hm : Fresh malloc)
    (v : V) :
    ∃ s' l', hashInsert hash malloc s k v = some s' ∧ Represents hash s' l' (Function.update f k (some v)) := by
  have hfree := hm s.heap l h.memory
  generalize hp : malloc s.heap = p at hfree
  have hpl : p ∉ l := fun hmem => by simpa [hfree] using h.holds.allocated.isSome hmem
  have hother : ∀ q ∈ l, Function.update s.heap p (some ⟨k, v, none, none, none, none, 0⟩) q = s.heap q :=
    fun q hq => Function.update_of_ne (fun he : q = p => hpl (he ▸ hq)) _ _
  have hholds := h.holds.of_heap fun q hq => congrArg _ (hother q hq)
  obtain ⟨s', hs', hh, hd⟩ := hashAdd_spec hholds hpl (Function.update_self ..)
  have hcontents : s'.heap.contents = Function.update s.heap.contents p (some (k, v)) := by
    funext q
    refine (hd q).trans ?_
    by_cases hq : q = p
    · rw [hq, Function.update_self]
      exact contents_eq (Function.update_self ..)
    · rw [Function.update_of_ne hq]
      exact congrArg _ (Function.update_of_ne hq _ _)
  refine ⟨s', l ++ [p], by rw [hashInsert, hp]; exact hs', hh, fun q hq => ?_, ?_⟩
  · by_cases hqp : q = p
    · simp [hqp]
    · rw [← isSome_contents, hcontents, Function.update_of_ne hqp, isSome_contents] at hq
      exact List.mem_append_left _ (h.memory q hq)
  · rw [hcontents]
    exact h.contents.set (w := v) (Or.inr ⟨by rw [Heap.contents, hfree]; rfl, hk⟩) v

theorem Represents.upsert (h : Represents hash s l f) {malloc : Heap P K V → P} (hm : Fresh malloc) (k : K) (v : V)
    (g : V → V) :
    ∃ s' l', hashUpsert hash malloc s k v g = some s' ∧
      Represents hash s' l' (Function.update f k (some (((f k).map g).getD v))) := by
  rcases h.find k with ⟨hr, hf⟩ | ⟨p, e, hr, hp, he, rfl, hf⟩
  · obtain ⟨s', l', hs', h'⟩ := h.insert hf hm v
    refine ⟨s', l', ?_, by rwa [hf]⟩
    simp only [hashUpsert, hr, Option.bind_eq_bind, Option.bind_some]
    exact hs'
  · obtain ⟨m', hm', hother, hpm⟩ := modify_eq_some (m := s.heap) (o := some p)
      (f := fun e => { e with value := g e.value }) fun q hq => by cases hq; simp [he]
    have hp' := hpm p e rfl he
    have hshape : Same Elem.shape s.heap m' := same_of_modify hm' fun _ => rfl
    refine ⟨{ s with heap := m' }, l, ?_, h.holds.of_heap fun q _ => hshape q, fun q hq => ?_, ?_⟩
    · simp only [hashUpsert, hr, hm', Option.bind_eq_bind, Option.bind_some]
    · exact h.memory q (hshape.isSome q ▸ hq)
    · have hcontents : m'.contents = Function.update s.heap.contents p (some (e.key, g e.value)) := by
        funext q
        by_cases hq : q = p
        · rw [hq, Function.update_self]
          exact contents_eq hp'
        · rw [Function.update_of_ne hq]
          exact congrArg _ (hother q fun he => hq (Option.some.inj he).symm)
      change Contents m'.contents _
      rw [hcontents, hf]
      exact h.contents.set (Or.inl (contents_eq he)) _

theorem Represents.remove (h : Represents hash s l f) (hp : p ∈ l) (he : s.heap p = some e) :
    ∃ s', hashRemove s p = some s' ∧ Represents hash s' (l.erase p) (Function.update f e.key none) := by
  obtain ⟨s1, hs1, hh, hd⟩ := hashDelete_spec h.holds hp
  obtain ⟨e1, he1⟩ : ∃ e1, s1.heap p = some e1 := by
    refine Option.isSome_iff_exists.mp ?_
    rw [hd.isSome, he]
    rfl
  obtain ⟨hfree, hh'⟩ := hh.free h.holds.nodup.not_mem_erase he1
  have hcontents : Heap.contents (Function.update s1.heap p none) = Function.update s.heap.contents p none := by
    funext q
    by_cases hq : q = p
    · rw [hq, Function.update_self]
      exact congrArg _ (Function.update_self p none s1.heap)
    · rw [Function.update_of_ne hq]
      exact (congrArg _ (Function.update_of_ne hq none s1.heap)).trans (hd q)
  refine ⟨_, ?_, hh', fun q hq => ?_, ?_⟩
  · simp only [hashRemove, hs1, hfree, Option.bind_eq_bind, Option.bind_some]
  · have hq' := isSome_contents (Function.update s1.heap p none) q
    rw [hcontents] at hq'
    have hqp : q ≠ p := by
      rintro rfl
      simp at hq
    rw [Function.update_of_ne hqp, isSome_contents] at hq'
    exact (List.mem_erase_of_ne hqp).mpr (h.memory q (hq'.trans hq))
  · change Contents (Heap.contents (Function.update s1.heap p none)) _
    rw [hcontents]
    exact h.contents.erase (contents_eq he)

/-! ## Whole runs -/

theorem exec_spec (h : Represents hash s l f) {malloc : Heap P K V → P} (hm : Fresh malloc) (c : Command K V) :
    ∃ s' l', exec hash malloc s c = some (s', (c.apply f).2) ∧ Represents hash s' l' (c.apply f).1 := by
  cases c with
  | get k => exact ⟨s, l, by simp only [exec, h.get k]; rfl, h⟩
  | upsert k v g =>
    obtain ⟨s', l', hs', h'⟩ := h.upsert hm k v g
    exact ⟨s', l', by simp only [exec, h.get k, hs']; rfl, h'⟩
  | remove k =>
    rcases h.find k with ⟨hr, hf⟩ | ⟨p, e, hr, hp, he, rfl, hf⟩
    · refine ⟨s, l, ?_, ?_⟩
      · simp only [exec, hr, Command.apply, hf]
        rfl
      · rwa [Command.apply, Function.update_eq_self_iff.mpr hf.symm]
    · obtain ⟨s', hs', h'⟩ := h.remove hp he
      refine ⟨s', _, ?_, h'⟩
      simp only [exec, hr, h.get e.key, hs', Option.bind_eq_bind, Option.bind_some]
      rfl
  | clear =>
    obtain ⟨s', hs', h'⟩ := h.clear
    exact ⟨s', [], by simp only [exec, hs']; rfl, h'⟩

theorem execAll_spec {malloc : Nat → Heap P K V → P} (hm : ∀ n, Fresh (malloc n)) (cs : List (Command K V)) (n : Nat)
    (h : Represents hash s l f) :
    ∃ s' l', execAll hash malloc n s cs = some (s', (applyAll f cs).2) ∧ Represents hash s' l' (applyAll f cs).1 := by
  induction cs generalizing n s l f with
  | nil => exact ⟨s, l, rfl, h⟩
  | cons c cs ih =>
    obtain ⟨s1, l1, hs1, h1⟩ := exec_spec h (hm n) c
    obtain ⟨s2, l2, hs2, h2⟩ := ih (n + 1) h1
    refine ⟨s2, l2, ?_, h2⟩
    simp only [execAll, hs1, hs2, Option.bind_eq_bind, Option.bind_some]
    rfl

/-- Whatever the hash, no run of the macros uses an address without an element, every
lookup finds what a map would, and the table passes the check of `HASH_FSCK`. -/
theorem hash_table_refines_map (hash : K → Nat) {malloc : Nat → Heap P K V → P} (hm : ∀ n, Fresh (malloc n))
    (cs : List (Command K V)) :
    ∃ s, execAll hash malloc 0 Hash.empty cs = some (s, (applyAll (fun _ => none) cs).2) ∧
      hashFsck s = some true ∧ Contents s.heap.contents (applyAll (fun _ => none) cs).1 := by
  obtain ⟨s, l, hs, h⟩ := execAll_spec hm cs 0 (represents_empty hash)
  exact ⟨s, hs, hashFsck_spec h.holds, h.contents⟩

end

end

open Classical in
noncomputable def firstFree (m : Heap Nat K V) : Nat := if h : ∃ p, m p = none then Nat.find h else 0

theorem firstFree_fresh : Fresh (firstFree : Heap Nat K V → Nat) := by
  intro m l hl
  have h : ∃ p, m p = none := by
    obtain ⟨p, hp⟩ := Infinite.exists_notMem_finset l.toFinset
    refine ⟨p, Option.not_isSome_iff_eq_none.mp fun hs => hp ?_⟩
    exact List.mem_toFinset.mpr (hl p hs)
  rw [firstFree, dif_pos h]
  exact Nat.find_spec h

theorem hash_table_refines_map_readded :
    ∃ s : Hash Nat UInt8 Nat, execAll (fun key => hashJen [key]) (fun _ => firstFree) 0 Hash.empty
        [.upsert 7 1 Nat.succ, .upsert 7 1 Nat.succ, .remove 7, .get 7, .upsert 7 1 Nat.succ, .get 7] =
          some (s, [none, some 1, some 2, none, none, some 1]) ∧
      hashFsck s = some true ∧ ∃ p, s.heap.contents p = some (7, 1) := by
  obtain ⟨s, hs, hf, hc⟩ := hash_table_refines_map (fun key : UInt8 => hashJen [key])
    (fun _ => firstFree_fresh)
    [.upsert 7 1 Nat.succ, .upsert 7 1 Nat.succ, .remove 7, .get 7, .upsert 7 1 Nat.succ, .get 7]
  exact ⟨s, hs, hf, (hc.maps 7 1).mp rfl⟩

end UtHash
