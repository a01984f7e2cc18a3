import Clarisse.LinkedList
import Clarisse.UtHash
import Mathlib.Algebra.Ring.Nat
import Mathlib.Data.List.Perm.Basic
import Mathlib.Data.List.Dedup

/-!
# The hash tables hold their items

Two lists go through each element: that of the application order, and that of its
bucket. Both are doubly linked, a bucket's chain has the items whose hash ends in
the number of the bucket, and the counts are the lengths. Every operation keeps
this and finds every address that it uses.
-/

namespace UtHash

open LinkedList

variable {P K V : Type}

def Heap.link (m : Heap P K V) (f : Elem P K V → Option P) : P → Option P := fun p => (m p).bind f

def Heap.hashv (m : Heap P K V) (p : P) : Nat := ((m p).map Elem.hashv).getD 0

def bucketOf (m : Heap P K V) (numBuckets : Nat) (p : P) : Nat := hashToBkt (m.hashv p) numBuckets

def Elem.outer (e : Elem P K V) : K × V × Option P × Option P × Nat := (e.key, e.value, e.prev, e.next, e.hashv)

def Elem.inner (e : Elem P K V) : K × V × Option P × Option P × Nat :=
  (e.key, e.value, e.hhPrev, e.hhNext, e.hashv)

def Elem.chained (e : Elem P K V) : Option P × Option P × Nat := (e.hhPrev, e.hhNext, e.hashv)

def Elem.data (e : Elem P K V) : K × V := (e.key, e.value)

/-- Two heaps have elements at the same addresses, which agree on `k`. -/
def Same {α : Type} (k : Elem P K V → α) (m m' : Heap P K V) : Prop := ∀ q, (m' q).map k = (m q).map k

/-- The chains of the buckets, of the items `D` together. -/
structure Chains (m : Heap P K V) (n : Nat) (buckets : List (Bucket P)) (D : List P) (chain : Nat → List P) :
    Prop where
  length : buckets.length = n
  bucket : ∀ b < n, ∃ mult, buckets[b]? = some ⟨(chain b).head?, (chain b).length, mult⟩
  linked : ∀ b < n, Linked (m.link Elem.hhNext) (m.link Elem.hhPrev) (chain b)
  perm : ∀ b < n, (chain b).Perm (D.filter fun p => bucketOf m n p = b)

structure TableOk (m : Heap P K V) (t : Table P) (l : List P) (chain : Nat → List P) : Prop
    extends Chains m t.numBuckets t.buckets l chain where
  size : t.numBuckets = 2 ^ t.log2NumBuckets
  numItems : t.numItems = l.length
  tail : t.tail = l.getLast?

/-- The table has the items `l`, in the order in which they were added. -/
structure Holds (hash : K → Nat) (s : Hash P K V) (l : List P) : Prop where
  head : s.head = l.head?
  app : Linked (s.heap.link Elem.next) (s.heap.link Elem.prev) l
  items : ∀ p ∈ l, ∃ e, s.heap p = some e ∧ e.hashv = hash e.key
  empty : l = [] → s.tbl = none
  table : l ≠ [] → ∃ t chain, s.tbl = some t ∧ TableOk s.heap t l chain

section
variable {m m' m'' : Heap P K V} {n : Nat} {D D' l : List P} {chain : Nat → List P} {buckets : List (Bucket P)}
  {p q : P} {e : Elem P K V} {o v : Option P} {f : Elem P K V → Elem P K V} {α β : Type} {k : Elem P K V → α}

theorem hashToBkt_lt (h : 0 < n) (hashv : Nat) : hashToBkt hashv n < n := by
  have : hashv &&& (n - 1) ≤ n - 1 := Nat.and_le_right
  unfold hashToBkt
  omega

/-! ## Reading and writing the heap -/

theorem link_eq (h : m p = some e) (k : Elem P K V → Option P) : m.link k p = k e := by
  rw [Heap.link, h, Option.bind_some]

theorem Same.refl (m : Heap P K V) : Same k m m := fun _ => rfl

theorem Same.trans (h : Same k m m') (h' : Same k m' m'') : Same k m m'' := fun q => (h' q).trans (h q)

theorem map_comp {a b : Option (Elem P K V)} (h : a.map k = b.map k) (g : α → β) :
    a.map (fun e => g (k e)) = b.map fun e => g (k e) := by
  have := congrArg (Option.map g) h
  rwa [Option.map_map, Option.map_map] at this

theorem Same.comp (h : Same k m m') (g : α → β) : Same (fun e => g (k e)) m m' := fun q => map_comp (h q) g

theorem Same.isSome (h : Same k m m') (q : P) : (m' q).isSome = (m q).isSome := by
  have := congrArg Option.isSome (h q)
  simpa using this

theorem link_congr {k : Elem P K V → Option P} (h : (m' q).map k = (m q).map k) : m'.link k q = m.link k q := by
  unfold Heap.link
  cases hm : m q <;> cases hm' : m' q <;> simp_all

theorem bucketOf_congr (h : (m' q).map Elem.hashv = (m q).map Elem.hashv) (n : Nat) :
    bucketOf m' n q = bucketOf m n q := by
  rw [bucketOf, Heap.hashv, h, bucketOf, Heap.hashv]

theorem Same.link {k : Elem P K V → Option P} (h : Same k m m') : m'.link k = m.link k :=
  funext fun q => link_congr (h q)

theorem Same.bucketOf (h : Same Elem.hashv m m') : bucketOf m' = bucketOf m :=
  funext fun n => funext fun q => bucketOf_congr (h q) n

section
variable [DecidableEq P]

theorem modify_eq_some (h : ∀ p, o = some p → (m p).isSome) :
    ∃ m', m.modify o f = some m' ∧ (∀ q, o ≠ some q → m' q = m q) ∧ ∀ p e, o = some p → m p = some e →
      m' p = some (f e) := by
  cases o with
  | none => exact ⟨m, rfl, fun _ _ => rfl, fun _ _ hp => by cases hp⟩
  | some p =>
    obtain ⟨e, he⟩ := Option.isSome_iff_exists.mp (h p rfl)
    refine ⟨Function.update m p (some (f e)), by rw [Heap.modify, he, Option.map_some], ?_, ?_⟩
    · exact fun q hq => Function.update_of_ne (fun hqp => hq (congrArg some hqp.symm)) _ _
    · intro p' e' hp he'
      cases hp
      rw [he] at he'
      cases he'
      exact Function.update_self ..

theorem same_of_modify (h : m.modify o f = some m') (hk : ∀ e, k (f e) = k e) : Same k m m' := by
  cases o with
  | none => cases h; exact Same.refl m
  | some p =>
    rw [Heap.modify, Option.map_eq_some_iff] at h
    obtain ⟨e, he, rfl⟩ := h
    intro q
    by_cases hq : q = p
    · rw [hq, Function.update_self, he, Option.map_some, Option.map_some, hk]
    · rw [Function.update_of_ne hq]

theorem link_of_modify {k : Elem P K V → Option P} (h : m.modify o f = some m') (hk : ∀ e, k (f e) = v) :
    m'.link k = setAt o v (m.link k) := by
  cases o with
  | none => cases h; rfl
  | some p =>
    rw [Heap.modify, Option.map_eq_some_iff] at h
    obtain ⟨e, -, rfl⟩ := h
    funext q
    change (Function.update m p (some (f e)) q).bind k = Function.update (m.link k) p v q
    by_cases hq : q = p
    · rw [hq, Function.update_self, Function.update_self]
      exact hk e
    · rw [Function.update_of_ne hq, Function.update_of_ne hq]
      rfl

theorem modify_hhNext (h : ∀ p, o = some p → (m p).isSome) (v : Option P) :
    ∃ m', m.modify o (fun e => { e with hhNext := v }) = some m' ∧
      m'.link Elem.hhNext = setAt o v (m.link Elem.hhNext) ∧ m'.link Elem.hhPrev = m.link Elem.hhPrev ∧
      Same Elem.outer m m' ∧ ∀ q, o ≠ some q → m' q = m q := by
  obtain ⟨m', hm, hother, -⟩ := modify_eq_some (f := fun e => { e with hhNext := v }) h
  have hprev : Same Elem.hhPrev m m' := same_of_modify hm fun _ => rfl
  exact ⟨m', hm, link_of_modify hm fun _ => rfl, hprev.link, same_of_modify hm fun _ => rfl, hother⟩

theorem modify_hhPrev (h : ∀ p, o = some p → (m p).isSome) (v : Option P) :
    ∃ m', m.modify o (fun e => { e with hhPrev := v }) = some m' ∧
      m'.link Elem.hhPrev = setAt o v (m.link Elem.hhPrev) ∧ m'.link Elem.hhNext = m.link Elem.hhNext ∧
      Same Elem.outer m m' ∧ ∀ q, o ≠ some q → m' q = m q := by
  obtain ⟨m', hm, hother, -⟩ := modify_eq_some (f := fun e => { e with hhPrev := v }) h
  have hnext : Same Elem.hhNext m m' := same_of_modify hm fun _ => rfl
  exact ⟨m', hm, link_of_modify hm fun _ => rfl, hnext.link, same_of_modify hm fun _ => rfl, hother⟩

theorem modify_next (h : ∀ p, o = some p → (m p).isSome) (v : Option P) :
    ∃ m', m.modify o (fun e => { e with next := v }) = some m' ∧
      m'.link Elem.next = setAt o v (m.link Elem.next) ∧ m'.link Elem.prev = m.link Elem.prev ∧
      Same Elem.inner m m' ∧ ∀ q, o ≠ some q → m' q = m q := by
  obtain ⟨m', hm, hother, -⟩ := modify_eq_some (f := fun e => { e with next := v }) h
  have hprev : Same Elem.prev m m' := same_of_modify hm fun _ => rfl
  exact ⟨m', hm, link_of_modify hm fun _ => rfl, hprev.link, same_of_modify hm fun _ => rfl, hother⟩

theorem modify_prev (h : ∀ p, o = some p → (m p).isSome) (v : Option P) :
    ∃ m', m.modify o (fun e => { e with prev := v }) = some m' ∧
      m'.link Elem.prev = setAt o v (m.link Elem.prev) ∧ m'.link Elem.next = m.link Elem.next ∧
      Same Elem.inner m m' ∧ ∀ q, o ≠ some q → m' q = m q := by
  obtain ⟨m', hm, hother, -⟩ := modify_eq_some (f := fun e => { e with prev := v }) h
  have hnext : Same Elem.next m m' := same_of_modify hm fun _ => rfl
  exact ⟨m', hm, link_of_modify hm fun _ => rfl, hnext.link, same_of_modify hm fun _ => rfl, hother⟩

end

theorem Same.chained (h : Same Elem.inner m m') : Same Elem.chained m m' := h.comp fun x => x.2.2

theorem Same.hashv (h : Same Elem.outer m m') : Same Elem.hashv m m' := h.comp fun x => x.2.2.2.2

/-! ## Chains -/

theorem Chains.mem (h : Chains m n buckets D chain) {b : Nat} (hb : b < n) :
    q ∈ chain b ↔ q ∈ D ∧ UtHash.bucketOf m n q = b := by
  rw [(h.perm b hb).mem_iff, List.mem_filter, decide_eq_true_iff]

theorem Chains.congr (h : Chains m n buckets D chain)
    (hs : ∀ q ∈ D, (m' q).map Elem.chained = (m q).map Elem.chained) : Chains m' n buckets D chain := by
  refine ⟨h.length, h.bucket, fun b hbn => ?_, fun b hbn => ?_⟩
  · have hD : ∀ q ∈ chain b, q ∈ D := fun q hq => ((h.mem hbn).mp hq).1
    exact (h.linked b hbn).congr (fun q hq => link_congr (map_comp (hs q (hD q hq)) fun x => x.2.1))
      fun q hq => link_congr (map_comp (hs q (hD q hq)) fun x => x.1)
  · rw [List.filter_congr fun q hq => by rw [bucketOf_congr (map_comp (hs q hq) fun x => x.2.2)]]
    exact h.perm b hbn

theorem Chains.of_perm (h : Chains m n buckets D chain) (hd : D.Perm D') : Chains m n buckets D' chain :=
  ⟨h.length, h.bucket, h.linked, fun b hb => (h.perm b hb).trans (hd.filter _)⟩

theorem Chains.set (h : Chains m n buckets D chain) {b : Nat} (hb : b < n) {bkt : Bucket P} {c : List P}
    (hh : bkt.hhHead = c.head?) (hc : bkt.count = c.length)
    (hl : Linked (m'.link Elem.hhNext) (m'.link Elem.hhPrev) c) (hbucket : UtHash.bucketOf m' = UtHash.bucketOf m)
    (hperm : c.Perm (D'.filter fun p => UtHash.bucketOf m n p = b))
    (hother : ∀ b', b' ≠ b →
      (D'.filter fun p => UtHash.bucketOf m n p = b') = D.filter fun p => UtHash.bucketOf m n p = b')
    (hlink : ∀ b' < n, b' ≠ b → ∀ q ∈ chain b',
      m'.link Elem.hhNext q = m.link Elem.hhNext q ∧ m'.link Elem.hhPrev q = m.link Elem.hhPrev q) :
    Chains m' n (buckets.set b bkt) D' (Function.update chain b c) := by
  refine ⟨by rw [List.length_set, h.length], fun b' hb' => ?_, fun b' hb' => ?_, fun b' hb' => ?_⟩
  · by_cases he : b' = b
    · rw [he, Function.update_self, List.getElem?_set_self (by rw [h.length]; exact hb), ← hh, ← hc]
      exact ⟨bkt.expandMult, rfl⟩
    · rw [Function.update_of_ne he, List.getElem?_set_ne (Ne.symm he)]
      exact h.bucket b' hb'
  · by_cases he : b' = b
    · rw [he, Function.update_self]
      exact hl
    · rw [Function.update_of_ne he]
      exact (h.linked b' hb').congr (fun q hq => (hlink b' hb' he q hq).1) fun q hq => (hlink b' hb' he q hq).2
  · rw [hbucket]
    by_cases he : b' = b
    · rw [he, Function.update_self]
      exact hperm
    · rw [Function.update_of_ne he, hother b' he]
      exact h.perm b' hb'

theorem Chains.apart (h : Chains m n buckets D chain) {b b' : Nat} (hb : b < n) (hb' : b' < n) (hne : b' ≠ b)
    (hq : q ∈ chain b') : q ∉ chain b :=
  fun hm => hne (((h.mem hb').mp hq).2.symm.trans ((h.mem hb).mp hm).2)

theorem Chains.push [DecidableEq P] (h : Chains m n buckets D chain) (hn : 0 < n) (hp : p ∉ D) {b : Nat}
    (hb : UtHash.bucketOf m n p = b) (hbucket : UtHash.bucketOf m' = UtHash.bucketOf m)
    (hnext : m'.link Elem.hhNext = Function.update (m.link Elem.hhNext) p (chain b).head?)
    (hprev : m'.link Elem.hhPrev =
      setAt (chain b).head? (some p) (Function.update (m.link Elem.hhPrev) p none)) (mult : Nat) :
    Chains m' n (buckets.set b ⟨some p, (chain b).length + 1, mult⟩) (p :: D)
      (Function.update chain b (p :: chain b)) := by
  have hbn : b < n := hb ▸ hashToBkt_lt hn _
  have hpc : ∀ b' < n, p ∉ chain b' := fun b' hb' hm => hp ((h.mem hb').mp hm).1
  refine h.set hbn rfl rfl ?_ hbucket ?_ (fun b' hne => ?_) ?_
  · rw [hnext, hprev]
    exact (h.linked b hbn).pushFront (hpc b hbn)
  · rw [List.filter_cons, if_pos (decide_eq_true hb)]
    exact (h.perm b hbn).cons p
  · rw [List.filter_cons, if_neg]
    rw [decide_eq_true_iff, hb]
    exact Ne.symm hne
  · intro b' hb' hne q hq
    have hqp : q ≠ p := fun he => hpc b' hb' (he ▸ hq)
    have hqb : (chain b).head? ≠ some q := fun hh => h.apart hbn hb' hne hq (List.mem_of_mem_head? hh)
    rw [hnext, hprev, setAt_of_ne hqb]
    exact ⟨Function.update_of_ne hqp _ _, Function.update_of_ne hqp _ _⟩

theorem Chains.erase [DecidableEq P] (h : Chains m n buckets D chain) {as bs : List P} {b : Nat} (hbn : b < n)
    (hb : UtHash.bucketOf m n p = b) (hc : chain b = as ++ p :: bs)
    (hbucket : UtHash.bucketOf m' = UtHash.bucketOf m)
    (hnext : m'.link Elem.hhNext = setAt as.getLast? bs.head? (m.link Elem.hhNext))
    (hprev : m'.link Elem.hhPrev = setAt bs.head? as.getLast? (m.link Elem.hhPrev)) (bkt : Bucket P)
    (hh : bkt.hhHead = (as ++ bs).head?) (hcount : bkt.count = (as ++ bs).length) :
    Chains m' n (buckets.set b bkt) (D.erase p) (Function.update chain b (as ++ bs)) := by
  have hl := h.linked b hbn
  rw [hc] at hl
  have hpas : p ∉ as := fun ha => (List.nodup_append.mp hl.nodup).2.2 p ha p (List.mem_cons_self ..) rfl
  refine h.set hbn hh hcount ?_ hbucket ?_ (fun b' hne => ?_) ?_
  · have hu := hl.unlink
    rw [hl.prev_eq, hl.next_eq] at hu
    rw [hnext, hprev]
    exact hu
  · have herase : (chain b).erase p = as ++ bs := by
      rw [hc, List.erase_append_right _ hpas, List.erase_cons_head]
    rw [← List.erase_filter, ← herase]
    exact (h.perm b hbn).erase p
  · rw [← List.erase_filter, List.erase_of_not_mem]
    intro hmem
    rw [List.mem_filter, decide_eq_true_iff] at hmem
    exact hne (hmem.2.symm.trans hb)
  · intro b' hb' hne q hq
    have hqb := h.apart hbn hb' hne hq
    have hqas : as.getLast? ≠ some q :=
      fun hm => hqb (by rw [hc]; exact List.mem_append_left _ (List.mem_of_getLast? hm))
    have hqbs : bs.head? ≠ some q :=
      fun hm => hqb (by rw [hc]; exact List.mem_append_right _ (List.mem_cons_of_mem _ (List.mem_of_mem_head? hm)))
    rw [hnext, hprev, setAt_of_ne hqas, setAt_of_ne hqbs]
    exact ⟨rfl, rfl⟩

theorem hashDelInBkt_spec [DecidableEq P] {t : Table P} (h : Chains m n t.buckets D chain) (hn : 0 < n) (hp : p ∈ D)
    (hD : ∀ q ∈ D, (m q).isSome) :
    ∃ m' bkts chain', hashDelInBkt m t (UtHash.bucketOf m n p) p = some (m', { t with buckets := bkts }) ∧
      Chains m' n bkts (D.erase p) chain' ∧ Same Elem.outer m m' := by
  have hbn : UtHash.bucketOf m n p < n := hashToBkt_lt hn _
  generalize hb : UtHash.bucketOf m n p = b at hbn
  obtain ⟨as, bs, hc⟩ := List.append_of_mem ((h.mem hbn).mpr ⟨hp, hb⟩)
  obtain ⟨mult, hbkt⟩ := h.bucket b hbn
  obtain ⟨e, he⟩ := Option.isSome_iff_exists.mp (hD p hp)
  have hl := h.linked b hbn
  rw [hc] at hl
  have hdisj := (List.nodup_append.mp hl.nodup).2.2
  have hnext : e.hhNext = bs.head? := (link_eq he Elem.hhNext).symm.trans hl.next_eq
  have hprev : e.hhPrev = as.getLast? := (link_eq he Elem.hhPrev).symm.trans hl.prev_eq
  have hin : ∀ q ∈ as ++ p :: bs, (m q).isSome := fun q hq => hD q ((h.mem hbn).mp (hc ▸ hq)).1
  obtain ⟨m1, hm1, hnext1, hprev1, hs1, ho1⟩ := modify_hhNext (o := e.hhPrev)
    (fun q hq => hin q (List.mem_append_left _ (List.mem_of_getLast? (hprev ▸ hq)))) e.hhNext
  have hne : e.hhPrev ≠ some p :=
    fun hq => hdisj p (List.mem_of_getLast? (hprev ▸ hq)) p (List.mem_cons_self ..) rfl
  have he1 : m1 p = some e := (ho1 p hne).trans he
  obtain ⟨m2, hm2, hprev2, hnext2, hs2, -⟩ := modify_hhPrev (m := m1) (o := e.hhNext)
    (fun q hq => by
      rw [hs1.isSome]
      have hqb : q ∈ bs := List.mem_of_mem_head? (hnext ▸ hq)
      exact hin q (List.mem_append_right _ (List.mem_cons_of_mem _ hqb))) e.hhPrev
  have hs := hs1.trans hs2
  have hhead : (if (chain b).head? = some p then e.hhNext else (chain b).head?) = (as ++ bs).head? := by
    rw [hc, hnext]
    cases as with
    | nil => simp
    | cons a as =>
      have hap : a ≠ p := fun ha => hdisj a (List.mem_cons_self ..) p (List.mem_cons_self ..) ha
      simp [hap]
  have hcount : (chain b).length - 1 = (as ++ bs).length := by
    simp only [hc, List.length_append, List.length_cons]
    omega
  have hchains := h.erase hbn hb hc hs.hashv.bucketOf (by rw [hnext2, hnext1, hprev, hnext])
    (by rw [hprev2, hprev1, hprev, hnext])
    ⟨if (chain b).head? = some p then e.hhNext else (chain b).head?, (chain b).length - 1, mult⟩ hhead hcount
  refine ⟨m2, _, _, ?_, hchains, hs⟩
  simp only [hashDelInBkt, hbkt, he, hm1, he1, hm2, Option.bind_eq_bind, Option.bind_some]

theorem chains_replicate (m : Heap P K V) (n : Nat) : Chains m n (List.replicate n {}) [] fun _ => [] := by
  refine ⟨List.length_replicate, fun b hb => ⟨0, ?_⟩, fun b _ => linked_nil, fun b _ => List.Perm.refl _⟩
  rw [List.getElem?_replicate, if_pos hb]
  rfl

theorem Chains.flatten (h : Chains m n buckets D chain) (hn : 0 < n) (hD : D.Nodup) :
    ((List.range n).map chain).flatten.Perm D := by
  have hnd : ((List.range n).map chain).flatten.Nodup := by
    refine List.nodup_flatten.mpr ⟨fun c hc => ?_, ?_⟩
    · obtain ⟨b, hb, rfl⟩ := List.mem_map.mp hc
      exact (h.linked b (List.mem_range.mp hb)).nodup
    · rw [List.pairwise_map]
      refine List.nodup_range.imp_of_mem fun {a b} ha hb hne q hqa hqb => ?_
      exact h.apart (List.mem_range.mp hb) (List.mem_range.mp ha) hne hqa hqb
  refine (List.perm_ext_iff_of_nodup hnd hD).mpr fun q => ?_
  simp only [List.mem_flatten, List.mem_map, List.mem_range]
  constructor
  · rintro ⟨c, ⟨b, hb, rfl⟩, hq⟩
    exact ((h.mem hb).mp hq).1
  · intro hq
    have hb : UtHash.bucketOf m n q < n := hashToBkt_lt hn _
    exact ⟨_, ⟨_, hb, rfl⟩, (h.mem hb).mpr ⟨hq, rfl⟩⟩

theorem Chains.forall₂ (h : Chains m n buckets D chain) :
    List.Forall₂ (fun bkt c => bkt.hhHead = c.head? ∧ bkt.count = c.length ∧
      Linked (m.link Elem.hhNext) (m.link Elem.hhPrev) c) buckets ((List.range n).map chain) := by
  refine List.forall₂_iff_get.mpr ⟨by simp [h.length], fun b hb hb' => ?_⟩
  have hbn : b < n := h.length ▸ hb
  obtain ⟨mult, hbkt⟩ := h.bucket b hbn
  have hget : buckets.get ⟨b, hb⟩ = ⟨(chain b).head?, (chain b).length, mult⟩ := by
    rw [List.getElem?_eq_getElem hb] at hbkt
    exact Option.some.inj hbkt
  have hget' : ((List.range n).map chain).get ⟨b, hb'⟩ = chain b := by simp
  rw [hget, hget']
  exact ⟨rfl, rfl, h.linked b hbn⟩

theorem TableOk.numBuckets_pos {t : Table P} (h : t.numBuckets = 2 ^ t.log2NumBuckets) : 0 < t.numBuckets :=
  h ▸ Nat.two_pow_pos _

/-- The comment above `HASH_EXPAND_BUCKETS`: the shift and the mask round up. -/
theorem idealChainMaxlen_eq {t : Table P} (h : t.numBuckets = 2 ^ t.log2NumBuckets) :
    idealChainMaxlen t = (t.numItems + (t.numBuckets * 2 - 1)) / (t.numBuckets * 2) := by
  have hpow : t.numBuckets * 2 = 2 ^ (t.log2NumBuckets + 1) := by rw [h, Nat.pow_succ]
  unfold idealChainMaxlen
  rw [hpow, Nat.and_two_pow_sub_one_eq_mod, Nat.shiftRight_eq_div_pow]
  generalize hB : 2 ^ (t.log2NumBuckets + 1) = B
  have hB0 : 0 < B := hB ▸ Nat.two_pow_pos _
  have hdiv := Nat.div_add_mod t.numItems B
  have hmod := Nat.mod_lt t.numItems hB0
  generalize t.numItems / B = d at hdiv ⊢
  generalize t.numItems % B = r at hdiv hmod ⊢
  symm
  rw [← hdiv]
  split
  · have : B * d + r + (B - 1) = (r - 1) + B * (d + 1) := by rw [Nat.mul_add]; omega
    rw [this, Nat.add_mul_div_left _ _ hB0, Nat.div_eq_of_lt (by omega)]
    omega
  · have : B * d + r + (B - 1) = (B - 1) + B * d := by omega
    rw [this, Nat.add_mul_div_left _ _ hB0, Nat.div_eq_of_lt (by omega)]
    omega

section
variable [DecidableEq P]

/-- The three writes that put `p` before `o`, in the order of `HASH_EXPAND_BUCKETS`. -/
theorem pushHead (hp : (m p).isSome) (ho : ∀ q, o = some q → (m q).isSome) :
    ∃ m1 m2 m3, m.modify (some p) (fun e => { e with hhPrev := none }) = some m1 ∧
      m1.modify (some p) (fun e => { e with hhNext := o }) = some m2 ∧
      m2.modify o (fun e => { e with hhPrev := some p }) = some m3 ∧
      m3.link Elem.hhNext = Function.update (m.link Elem.hhNext) p o ∧
      m3.link Elem.hhPrev = setAt o (some p) (Function.update (m.link Elem.hhPrev) p none) ∧
      Same Elem.outer m m3 ∧ ∀ q, q ≠ p → o ≠ some q → m3 q = m q := by
  obtain ⟨m1, hm1, hprev1, hnext1, hs1, ho1⟩ := modify_hhPrev (o := some p) (fun q hq => Option.some.inj hq ▸ hp) none
  obtain ⟨m2, hm2, hnext2, hprev2, hs2, ho2⟩ := modify_hhNext (m := m1) (o := some p)
    (fun q hq => by rw [hs1.isSome]; exact Option.some.inj hq ▸ hp) o
  obtain ⟨m3, hm3, hprev3, hnext3, hs3, ho3⟩ := modify_hhPrev (m := m2) (o := o)
    (fun q hq => by rw [(hs1.trans hs2).isSome]; exact ho q hq) (some p)
  refine ⟨m1, m2, m3, hm1, hm2, hm3, ?_, ?_, (hs1.trans hs2).trans hs3, fun q hq hoq => ?_⟩
  · rw [hnext3, hnext2, hnext1]
    rfl
  · rw [hprev3, hprev2, hprev1]
    rfl
  · have hpq : some p ≠ some q := fun he => hq (Option.some.inj he).symm
    rw [ho3 q hoq, ho2 q hpq, ho1 q hpq]

theorem pushHead' (hp : (m p).isSome) (ho : ∀ q, o = some q → (m q).isSome) :
    ∃ m1 m2 m3, m.modify (some p) (fun e => { e with hhNext := o }) = some m1 ∧
      m1.modify (some p) (fun e => { e with hhPrev := none }) = some m2 ∧
      m2.modify o (fun e => { e with hhPrev := some p }) = some m3 ∧
      m3.link Elem.hhNext = Function.update (m.link Elem.hhNext) p o ∧
      m3.link Elem.hhPrev = setAt o (some p) (Function.update (m.link Elem.hhPrev) p none) ∧
      Same Elem.outer m m3 := by
  obtain ⟨m1, hm1, hnext1, hprev1, hs1, -⟩ := modify_hhNext (o := some p) (fun q hq => Option.some.inj hq ▸ hp) o
  obtain ⟨m2, hm2, hprev2, hnext2, hs2, -⟩ := modify_hhPrev (m := m1) (o := some p)
    (fun q hq => by rw [hs1.isSome]; exact Option.some.inj hq ▸ hp) none
  obtain ⟨m3, hm3, hprev3, hnext3, hs3, -⟩ := modify_hhPrev (m := m2) (o := o)
    (fun q hq => by rw [(hs1.trans hs2).isSome]; exact ho q hq) (some p)
  refine ⟨m1, m2, m3, hm1, hm2, hm3, ?_, ?_, (hs1.trans hs2).trans hs3⟩
  · rw [hnext3, hnext2, hnext1]
    rfl
  · rw [hprev3, hprev2, hprev1]
    rfl

/-! ## Expanding -/

theorem expandItem_spec {x : Expansion P K V} {ideal : Nat} (h : Chains x.heap n x.buckets D chain) (hn : 0 < n)
    (hi : 0 < ideal) (hp : p ∉ D) (hpm : (x.heap p).isSome) (hD : ∀ q ∈ D, (x.heap q).isSome) :
    ∃ x' chain', expandItem n ideal x p = some x' ∧ Chains x'.heap n x'.buckets (p :: D) chain' ∧
      Same Elem.outer x.heap x'.heap ∧ ∀ q, q ∉ p :: D → x'.heap q = x.heap q := by
  obtain ⟨e, he⟩ := Option.isSome_iff_exists.mp hpm
  have hb : hashToBkt e.hashv n = UtHash.bucketOf x.heap n p := by
    rw [UtHash.bucketOf, Heap.hashv, he]
    rfl
  have hbn : UtHash.bucketOf x.heap n p < n := hashToBkt_lt hn _
  generalize hbe : UtHash.bucketOf x.heap n p = b at hb hbn
  obtain ⟨mult, hbkt⟩ := h.bucket b hbn
  have hhead : ∀ q, (chain b).head? = some q → q ∈ D := fun q hq => ((h.mem hbn).mp (List.mem_of_mem_head? hq)).1
  obtain ⟨m1, m2, m3, hm1, hm2, hm3, hnext, hprev, hs, ho⟩ := pushHead hpm fun q hq => hD q (hhead q hq)
  obtain ⟨x', hx', hheap, mult', hbuckets⟩ : ∃ x', expandItem n ideal x p = some x' ∧ x'.heap = m3 ∧
      ∃ mult', x'.buckets = x.buckets.set b ⟨some p, (chain b).length + 1, mult'⟩ := by
    simp only [expandItem, he, hb, hbkt, hm1, hm2, hm3, Option.bind_eq_bind, Option.bind_some,
      if_neg (Nat.pos_iff_ne_zero.mp hi)]
    split
    · exact ⟨_, rfl, rfl, _, rfl⟩
    · exact ⟨_, rfl, rfl, _, rfl⟩
  refine ⟨x', Function.update chain b (p :: chain b), hx', ?_, ?_, fun q hq => ?_⟩
  · rw [hheap, hbuckets]
    exact h.push hn hp hbe hs.hashv.bucketOf hnext hprev mult'
  · rw [hheap]
    exact hs
  · rw [hheap]
    exact ho q (fun hqp => hq (hqp ▸ List.mem_cons_self ..)) fun hqh => hq (List.mem_cons_of_mem _ (hhead q hqh))

/-- The items of one old chain move one after the other; the rest of it is not written to. -/
theorem expandChain_spec {x : Expansion P K V} {ideal rounds : Nat} {c : List P}
    (h : Chains x.heap n x.buckets D chain) (hn : 0 < n) (hi : 0 < ideal) (hc : Path (x.heap.link Elem.hhNext) o c)
    (hnd : (c ++ D).Nodup) (hm : ∀ q ∈ c ++ D, (x.heap q).isSome) (hr : c.length < rounds) :
    ∃ x' chain', expandChain n ideal rounds x o = some x' ∧ Chains x'.heap n x'.buckets (c ++ D) chain' ∧
      Same Elem.outer x.heap x'.heap ∧ ∀ q, q ∉ c ++ D → x'.heap q = x.heap q := by
  induction c generalizing x D chain o rounds with
  | nil =>
    obtain ⟨rounds, rfl⟩ : ∃ r, rounds = r + 1 := ⟨rounds - 1, (Nat.succ_pred_eq_of_pos hr).symm⟩
    obtain rfl : o = none := hc
    exact ⟨x, chain, rfl, h, Same.refl _, fun _ _ => rfl⟩
  | cons p c ih =>
    obtain ⟨rounds, rfl⟩ : ∃ r, rounds = r + 1 := ⟨rounds - 1, by simp at hr; omega⟩
    obtain ⟨rfl, hc⟩ := hc
    have hpnd := List.nodup_cons.mp hnd
    have hpD : p ∉ D := fun hp => hpnd.1 (List.mem_append_right _ hp)
    obtain ⟨x1, chain1, hx1, h1, hs1, ho1⟩ := expandItem_spec h hn hi hpD (hm p (by simp))
      fun q hq => hm q (List.mem_append_right _ hq)
    obtain ⟨e, he⟩ := Option.isSome_iff_exists.mp (hm p (by simp))
    have hperm : (c ++ p :: D).Perm (p :: c ++ D) := List.perm_middle
    have hrest : ∀ q ∈ c, x1.heap q = x.heap q := by
      intro q hq
      refine ho1 q fun hmem => ?_
      rcases List.mem_cons.mp hmem with rfl | hqD
      · exact hpnd.1 (List.mem_append_left _ hq)
      · exact (List.nodup_append.mp hpnd.2).2.2 q hq q hqD rfl
    have hc1 : Path (x1.heap.link Elem.hhNext) e.hhNext c := by
      rw [← link_eq he Elem.hhNext]
      exact hc.congr fun q hq => by rw [Heap.link, hrest q hq, Heap.link]
    obtain ⟨x2, chain2, hx2, h2, hs2, ho2⟩ := ih h1 hc1 (hperm.nodup_iff.mpr hnd)
      (fun q hq => by rw [hs1.isSome]; exact hm q (hperm.mem_iff.mp hq)) (by simp at hr; omega)
    refine ⟨x2, chain2, ?_, h2.of_perm hperm, hs1.trans hs2, fun q hq => ?_⟩
    · simp only [expandChain, he, hx1, Option.bind_eq_bind, Option.bind_some]
      exact hx2
    · have hq' : q ∉ c ++ p :: D := fun hmem => hq (hperm.mem_iff.mp hmem)
      rw [ho2 q hq', ho1 q fun hmem => hq' (List.mem_append_right _ hmem)]

/-- Bucket after bucket is moved; a chain that is still to come has not been written to. -/
theorem expandChains_spec {x : Expansion P K V} {ideal rounds : Nat} {cs : List (List P)}
    (h : Chains x.heap n x.buckets D chain) (hn : 0 < n) (hi : 0 < ideal)
    (hcs : List.Forall₂ (fun bkt c => Path (x.heap.link Elem.hhNext) bkt.hhHead c) buckets cs)
    (hnd : (cs.flatten ++ D).Nodup) (hm : ∀ q ∈ cs.flatten ++ D, (x.heap q).isSome)
    (hr : ∀ c ∈ cs, c.length < rounds) :
    ∃ x' chain', buckets.foldlM (fun x bkt => expandChain n ideal rounds x bkt.hhHead) x = some x' ∧
      Chains x'.heap n x'.buckets (cs.flatten ++ D) chain' ∧ Same Elem.outer x.heap x'.heap := by
  induction cs generalizing x D chain buckets with
  | nil =>
    obtain rfl := List.forall₂_nil_right_iff.mp hcs
    exact ⟨x, chain, rfl, h, Same.refl _⟩
  | cons c cs ih =>
    obtain ⟨bkt, buckets, hc, hrest, rfl⟩ := List.forall₂_cons_right_iff.mp hcs
    rw [List.flatten_cons, List.append_assoc] at hnd hm
    have hcomm : (cs.flatten ++ c).Perm (c ++ cs.flatten) := List.perm_append_comm
    have hperm : (cs.flatten ++ (c ++ D)).Perm (c ++ (cs.flatten ++ D)) := by simpa using hcomm.append_right D
    have hapart := List.nodup_append.mp (hperm.nodup_iff.mpr hnd)
    obtain ⟨x1, chain1, hx1, h1, hs1, ho1⟩ := expandChain_spec h hn hi hc hapart.2.1
      (fun q hq => hm q (hperm.mem_iff.mp (List.mem_append_right _ hq))) (hr c (List.mem_cons_self ..))
    have hcs1 : List.Forall₂ (fun bkt c => Path (x1.heap.link Elem.hhNext) bkt.hhHead c) buckets cs := by
      refine List.forall₂_iff_zip.mpr ⟨hrest.length_eq, fun {bkt c'} hz => ?_⟩
      refine ((List.forall₂_iff_zip.mp hrest).2 hz).congr fun q hq => ?_
      have hq' : q ∈ cs.flatten := List.mem_flatten.mpr ⟨c', (List.of_mem_zip hz).2, hq⟩
      rw [Heap.link, ho1 q fun hmem => hapart.2.2 q hq' q hmem rfl, Heap.link]
    obtain ⟨x2, chain2, hx2, h2, hs2⟩ := ih h1 hcs1 (hperm.nodup_iff.mpr hnd)
      (fun q hq => by rw [hs1.isSome]; exact hm q (hperm.mem_iff.mp hq))
      fun c' hc' => hr c' (List.mem_cons_of_mem _ hc')
    refine ⟨x2, chain2, ?_, ?_, hs1.trans hs2⟩
    · simp only [List.foldlM_cons, hx1, Option.bind_eq_bind, Option.bind_some]
      exact hx2
    · rw [List.flatten_cons, List.append_assoc]
      exact h2.of_perm hperm

theorem hashExpandBuckets_spec {t : Table P} (h : TableOk m t l chain) (hl : l ≠ []) (hnd : l.Nodup)
    (hm : ∀ q ∈ l, (m q).isSome) :
    ∃ m' t' chain', hashExpandBuckets m t = some (m', t') ∧ TableOk m' t' l chain' ∧ Same Elem.outer m m' := by
  have hpos := TableOk.numBuckets_pos h.size
  have hitems : 0 < t.numItems := by
    rw [h.numItems]
    exact List.length_pos_iff.mpr hl
  have hideal : 0 < idealChainMaxlen t := by
    rw [idealChainMaxlen_eq h.size]
    exact Nat.div_pos (by omega) (by omega)
  have hperm := h.flatten hpos hnd
  have hlen : ∀ c ∈ (List.range t.numBuckets).map chain, c.length < t.rounds := by
    intro c hc
    obtain ⟨b, hb, rfl⟩ := List.mem_map.mp hc
    have hle := (h.perm b (List.mem_range.mp hb)).length_eq ▸ List.length_filter_le _ l
    rw [Table.rounds, h.numItems]
    exact Nat.lt_succ_of_le hle
  obtain ⟨x, chain', hx, hchains, hs⟩ := expandChains_spec
    (x := ⟨m, List.replicate (t.numBuckets * 2) {}, 0⟩) (chains_replicate m _) (by omega) hideal
    (h.forall₂.imp fun _ _ hc => hc.1 ▸ hc.2.2.forward)
    (by simpa using hperm.nodup_iff.mpr hnd) (fun q hq => hm q (hperm.mem_iff.mp (by simpa using hq))) hlen
  rw [List.append_nil] at hchains
  obtain ⟨t', ht', hn', hb', hl', hi', hta'⟩ : ∃ t' : Table P, hashExpandBuckets m t = some (x.heap, t') ∧
      t'.numBuckets = t.numBuckets * 2 ∧ t'.buckets = x.buckets ∧ t'.log2NumBuckets = t.log2NumBuckets + 1 ∧
      t'.numItems = t.numItems ∧ t'.tail = t.tail := by
    simp only [hashExpandBuckets, hx, Option.bind_eq_bind, Option.bind_some]
    exact ⟨_, rfl, rfl, rfl, rfl, rfl, rfl⟩
  refine ⟨x.heap, t', chain', ht', ⟨?_, ?_, hi'.trans h.numItems, hta'.trans h.tail⟩, hs⟩
  · rw [hn', hb']
    exact hchains.of_perm hperm
  · rw [hn', hl', h.size, Nat.pow_succ]

end

end

end UtHash
