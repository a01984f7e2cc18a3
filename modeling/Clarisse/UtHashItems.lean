import Clarisse.UtHashSound

/-!
# What the operations of a hash table do to its items

On a table that holds a list of items every operation succeeds: adding appends an
item, deleting takes one out and leaves the others in their order, finding looks
for the key among them, and iterating visits all of them.
-/

namespace UtHash

open LinkedList

variable {P K V : Type}

def Elem.hashed (e : Elem P K V) : K × Nat := (e.key, e.hashv)

def Elem.shape (e : Elem P K V) : K × Option P × Option P × Option P × Option P × Nat :=
  (e.key, e.prev, e.next, e.hhPrev, e.hhNext, e.hashv)

def Allocated (hash : K → Nat) (m : Heap P K V) (l : List P) : Prop :=
  ∀ p ∈ l, ∃ e, m p = some e ∧ e.hashv = hash e.key

section
variable {m m' : Heap P K V} {l : List P} {p q : P} {e : Elem P K V} {hash : K → Nat} {s : Hash P K V}

theorem Allocated.isSome (h : Allocated hash m l) (hq : q ∈ l) : (m q).isSome := by
  obtain ⟨e, he, -⟩ := h q hq
  rw [he]
  rfl

theorem Allocated.congr (h : Allocated hash m l) (hs : ∀ q ∈ l, (m' q).map Elem.hashed = (m q).map Elem.hashed) :
    Allocated hash m' l := by
  intro q hq
  obtain ⟨e, he, hh⟩ := h q hq
  have hm := hs q hq
  rw [he, Option.map_some, Option.map_eq_some_iff] at hm
  obtain ⟨e', he', hee⟩ := hm
  refine ⟨e', he', ?_⟩
  rw [show e'.hashv = e.hashv from congrArg Prod.snd hee, hh, show e'.key = e.key from congrArg Prod.fst hee]

theorem Holds.allocated (h : Holds hash s l) : Allocated hash s.heap l := h.items

theorem Holds.nodup (h : Holds hash s l) : l.Nodup := h.app.nodup

theorem Holds.of_heap (h : Holds hash s l) (hm : ∀ q ∈ l, (m q).map Elem.shape = (s.heap q).map Elem.shape) :
    Holds hash { s with heap := m } l := by
  refine ⟨h.head, h.app.congr (fun q hq => ?_) fun q hq => ?_, ?_, h.empty, fun hl => ?_⟩
  · exact link_congr (map_comp (hm q hq) fun x => x.2.2.1)
  · exact link_congr (map_comp (hm q hq) fun x => x.2.1)
  · exact h.allocated.congr fun q hq => map_comp (hm q hq) fun x => (x.1, x.2.2.2.2.2)
  · obtain ⟨t, chain, ht, hok⟩ := h.table hl
    have hchains := hok.toChains.congr fun q hq => map_comp (hm q hq) fun x => x.2.2.2
    exact ⟨t, chain, ht, hchains, hok.size, hok.numItems, hok.tail⟩

theorem Holds.nil (hs : s.head = none) (ht : s.tbl = none) : Holds hash s [] :=
  ⟨hs, linked_nil, fun _ hp => absurd hp List.not_mem_nil, fun _ => ht, fun h => absurd rfl h⟩

theorem Holds.table_eq (h : Holds hash s l) (hl : l ≠ []) :
    ∃ t chain, s.table = some t ∧ s.tbl = some t ∧ TableOk s.heap t l chain := by
  obtain ⟨t, chain, ht, hok⟩ := h.table hl
  obtain ⟨p, l, rfl⟩ := List.exists_cons_of_ne_nil hl
  obtain ⟨e, he, -⟩ := h.items p (List.mem_cons_self ..)
  refine ⟨t, chain, ?_, ht, hok⟩
  rw [Hash.table, h.head, List.head?_cons, Option.bind_some, he, Option.bind_some, ht]

/-! ## Finding -/

theorem hashFindInBkt_spec [DecidableEq K] (key : K) {rounds : Nat} {o : Option P} {c : List P}
    (hc : Path (m.link Elem.hhNext) o c) (hm : ∀ q ∈ c, (m q).isSome) (hr : c.length < rounds) :
    hashFindInBkt m key rounds o = some (c.find? fun p => (m p).map Elem.key = some key) := by
  induction c generalizing o rounds with
  | nil =>
    obtain ⟨rounds, rfl⟩ : ∃ r, rounds = r + 1 := ⟨rounds - 1, (Nat.succ_pred_eq_of_pos hr).symm⟩
    obtain rfl : o = none := hc
    rfl
  | cons p c ih =>
    obtain ⟨rounds, rfl⟩ : ∃ r, rounds = r + 1 := ⟨rounds - 1, (Nat.succ_pred_eq_of_pos (by omega)).symm⟩
    obtain ⟨rfl, hc⟩ := hc
    obtain ⟨e, he⟩ := Option.isSome_iff_exists.mp (hm p (List.mem_cons_self ..))
    rw [link_eq he] at hc
    simp only [hashFindInBkt, he, Option.bind_eq_bind, Option.bind_some, List.find?_cons, Option.map_some,
      Option.some.injEq]
    by_cases hk : e.key = key
    · simp [hk]
    · rw [if_neg hk, decide_eq_false hk]
      exact ih hc (fun q hq => hm q (List.mem_cons_of_mem _ hq)) (by simpa using hr)

theorem hashFind_spec [DecidableEq K] (h : Holds hash s l) (key : K) :
    ∃ r, hashFind hash s key = some r ∧ (∀ p, r = some p → p ∈ l ∧ (s.heap p).map Elem.key = some key) ∧
      (r = none → ∀ p ∈ l, (s.heap p).map Elem.key ≠ some key) := by
  cases l with
  | nil =>
    refine ⟨none, ?_, by simp, by simp⟩
    rw [hashFind, h.head]
    rfl
  | cons a l =>
    obtain ⟨t, chain, htable, -, hok⟩ := h.table_eq (List.cons_ne_nil a l)
    have hbn : hashToBkt (hash key) t.numBuckets < t.numBuckets := hashToBkt_lt (TableOk.numBuckets_pos hok.size) _
    obtain ⟨mult, hbkt⟩ := hok.bucket _ hbn
    have hchain := (hok.linked _ hbn).forward
    generalize hb : hashToBkt (hash key) t.numBuckets = b at hbn hbkt hchain
    have hmem : ∀ q ∈ chain b, q ∈ a :: l := fun q hq => ((hok.toChains.mem hbn).mp hq).1
    have hlen : (chain b).length < t.rounds := by
      have hle := (hok.perm b hbn).length_eq ▸ List.length_filter_le _ (a :: l)
      rw [Table.rounds, hok.numItems]
      exact Nat.lt_succ_of_le hle
    have hfind := hashFindInBkt_spec key hchain (fun q hq => h.allocated.isSome (hmem q hq)) hlen
    refine ⟨(chain b).find? fun p => (s.heap p).map Elem.key = some key, ?_, fun p hp => ?_, fun hnone p hp hk => ?_⟩
    · simp only [hashFind, h.head, List.head?_cons, htable, hb, hbkt, Option.bind_eq_bind, Option.bind_some]
      exact hfind
    · exact ⟨hmem p (List.mem_of_find?_eq_some hp), by simpa using List.find?_some hp⟩
    · obtain ⟨e, he, hh⟩ := h.items p hp
      rw [he, Option.map_some] at hk
      have hpb : bucketOf s.heap t.numBuckets p = b := by
        rw [bucketOf, Heap.hashv, he, ← hb, ← Option.some.inj hk, ← hh]
        rfl
      refine absurd (List.find?_eq_none.mp hnone p ((hok.toChains.mem hbn).mpr ⟨hp, hpb⟩)) ?_
      simp [he, Option.some.inj hk]

section
variable [DecidableEq P]

/-! ## Adding -/

theorem hashAddToBkt_spec {t : Table P} {chain : Nat → List P} (h : Chains m t.numBuckets t.buckets l chain)
    (hsize : t.numBuckets = 2 ^ t.log2NumBuckets) (hnum : t.numItems = (l ++ [p]).length)
    (htail : t.tail = (l ++ [p]).getLast?) (hnd : (l ++ [p]).Nodup) (hm : ∀ q ∈ l ++ [p], (m q).isSome) :
    ∃ m' t' chain', hashAddToBkt m t (bucketOf m t.numBuckets p) p = some (m', t') ∧ TableOk m' t' (l ++ [p]) chain' ∧
      Same Elem.outer m m' := by
  have hn := TableOk.numBuckets_pos hsize
  have hbn : bucketOf m t.numBuckets p < t.numBuckets := hashToBkt_lt hn _
  have hp : p ∉ l := fun hp => (List.nodup_append.mp hnd).2.2 p hp p (List.mem_singleton_self p) rfl
  generalize hb : bucketOf m t.numBuckets p = b at hbn
  obtain ⟨mult, hbkt⟩ := h.bucket b hbn
  have hhead : ∀ q, (chain b).head? = some q → q ∈ l := fun q hq => ((h.mem hbn).mp (List.mem_of_mem_head? hq)).1
  obtain ⟨m1, m2, m3, hm1, hm2, hm3, hnext, hprev, hs⟩ := pushHead' (hm p (by simp)) fun q hq =>
    hm q (List.mem_append_left _ (hhead q hq))
  have hchains := (h.push hn hp hb hs.hashv.bucketOf hnext hprev mult).of_perm (List.perm_append_singleton p l).symm
  have hok : TableOk m3 { t with buckets := t.buckets.set b ⟨some p, (chain b).length + 1, mult⟩ } (l ++ [p])
      (Function.update chain b (p :: chain b)) := ⟨hchains, hsize, hnum, htail⟩
  simp only [hashAddToBkt, hbkt, hm1, hm2, hm3, Option.bind_eq_bind, Option.bind_some]
  split
  · obtain ⟨m4, t4, chain4, h4, hok4, hs4⟩ := hashExpandBuckets_spec hok (by simp) hnd
      fun q hq => by rw [hs.isSome]; exact hm q hq
    exact ⟨m4, t4, chain4, h4, hok4, hs.trans hs4⟩
  · exact ⟨m3, _, _, rfl, hok, hs⟩

theorem hashAdd_bucket {m1 : Heap P K V} (t : Table P) {chain : Nat → List P} (head : P) (h : Holds hash s l)
    (hp : p ∉ l) (he : s.heap p = some e)
    (hnext : m1.link Elem.next = setAt l.getLast? (some p) (Function.update (s.heap.link Elem.next) p none))
    (hprev : m1.link Elem.prev = Function.update (s.heap.link Elem.prev) p l.getLast?)
    (hs : Same Elem.inner s.heap m1) (hhead : some head = (l ++ [p]).head?)
    (hchains : Chains m1 t.numBuckets t.buckets l chain) (hsize : t.numBuckets = 2 ^ t.log2NumBuckets)
    (hnum : t.numItems = (l ++ [p]).length) (htail : t.tail = (l ++ [p]).getLast?) :
    ∃ m2 m3 t', m1.modify (some p) (fun x => { x with hashv := hash e.key }) = some m2 ∧
      hashAddToBkt m2 t (hashToBkt (hash e.key) t.numBuckets) p = some (m3, t') ∧
      Holds hash ⟨m3, some head, some t'⟩ (l ++ [p]) ∧ Same Elem.data s.heap m3 := by
  have hpm : (m1 p).isSome := by
    rw [hs.isSome, he]
    rfl
  obtain ⟨e1, he1⟩ := Option.isSome_iff_exists.mp hpm
  obtain ⟨m2, hm2, ho2, he2⟩ := modify_eq_some (m := m1) (o := some p) (f := fun x => { x with hashv := hash e.key })
    fun q hq => Option.some.inj hq ▸ hpm
  have hkeep : ∀ q ∈ l, m2 q = m1 q := fun q hq => ho2 q fun hqp => hp (Option.some.inj hqp ▸ hq)
  have hp2 := he2 p e1 rfl he1
  have hdata1 : Same Elem.data s.heap m1 := hs.comp fun x => (x.1, x.2.1)
  have hdata2 : Same Elem.data m1 m2 := same_of_modify hm2 fun _ => rfl
  have hnext2 : Same Elem.next m1 m2 := same_of_modify hm2 fun _ => rfl
  have hprev2 : Same Elem.prev m1 m2 := same_of_modify hm2 fun _ => rfl
  have hkey : e1.key = e.key := by
    have := hdata1 p
    rw [he1, he] at this
    exact congrArg Prod.fst (Option.some.inj this)
  have halloc : Allocated hash m2 (l ++ [p]) := by
    intro q hq
    rcases List.mem_append.mp hq with hq | hq
    · have hold : Allocated hash m2 l := h.allocated.congr fun q hq => by
        rw [hkeep q hq]
        exact (hs.comp fun x => (x.1, x.2.2.2.2)) q
      exact hold q hq
    · rw [List.mem_singleton.mp hq]
      exact ⟨_, hp2, by rw [hkey]⟩
  have hnd : (l ++ [p]).Nodup := by
    refine List.nodup_append.mpr ⟨h.nodup, List.nodup_singleton p, fun a ha b hb hab => ?_⟩
    exact hp (List.mem_singleton.mp hb ▸ hab ▸ ha)
  have hbucket : bucketOf m2 t.numBuckets p = hashToBkt (hash e.key) t.numBuckets := by
    rw [bucketOf, Heap.hashv, hp2]
    rfl
  obtain ⟨m3, t', chain', hadd, hok, hs3⟩ := hashAddToBkt_spec (hchains.congr fun q hq => by rw [hkeep q hq]) hsize
    hnum htail hnd fun q hq => halloc.isSome hq
  refine ⟨m2, m3, t', hm2, hbucket ▸ hadd, ⟨hhead, ?_, ?_, ?_, fun _ => ⟨t', chain', rfl, hok⟩⟩, ?_⟩
  · change Linked (m3.link Elem.next) (m3.link Elem.prev) (l ++ [p])
    have hnext3 : Same Elem.next m2 m3 := hs3.comp fun x => x.2.2.2.1
    have hprev3 : Same Elem.prev m2 m3 := hs3.comp fun x => x.2.2.1
    rw [hnext3.link, hprev3.link, hnext2.link, hprev2.link, hnext, hprev]
    exact h.app.pushBack hp
  · exact halloc.congr fun q _ => (hs3.comp fun x => (x.1, x.2.2.2.2)) q
  · exact fun hl => absurd hl (by simp)
  · exact (hdata1.trans hdata2).trans (hs3.comp fun x => (x.1, x.2.1))

theorem hashAdd_spec (h : Holds hash s l) (hp : p ∉ l) (he : s.heap p = some e) :
    ∃ s', hashAdd hash s p = some s' ∧ Holds hash s' (l ++ [p]) ∧ Same Elem.data s.heap s'.heap := by
  have hpm : (s.heap p).isSome := by rw [he]; rfl
  obtain ⟨m1, hm1, hnext1, hprev1, hs1, -⟩ := modify_next (o := some p) (fun q hq => Option.some.inj hq ▸ hpm) none
  have hp1 : (m1 p).isSome := by rwa [hs1.isSome]
  cases l with
  | nil =>
    obtain ⟨m2, hm2, hprev2, hnext2, hs2, -⟩ := modify_prev (m := m1) (o := some p)
      (fun q hq => Option.some.inj hq ▸ hp1) none
    have hnext : m2.link Elem.next = Function.update (s.heap.link Elem.next) p none := by
      rw [hnext2, hnext1]
      rfl
    have hprev : m2.link Elem.prev = Function.update (s.heap.link Elem.prev) p none := by
      rw [hprev2, hprev1]
      rfl
    obtain ⟨m3, m4, t', hm3, hm4, hh, hd⟩ :=
      hashAdd_bucket { hashMakeTable p with numItems := 1 } p h hp he hnext hprev (hs1.trans hs2) rfl
        (chains_replicate m2 32) rfl rfl rfl
    refine ⟨_, ?_, hh, hd⟩
    simp only [hashAdd, he, hm1, h.head, hm2, hm3, List.head?_nil, Option.bind_eq_bind, Option.bind_some]
    exact Option.bind_eq_some_iff.mpr ⟨_, hm4, rfl⟩
  | cons a l =>
    obtain ⟨t, chain, htable, -, hok⟩ := h.table_eq (List.cons_ne_nil a l)
    obtain ⟨z, hz⟩ : ∃ z, (a :: l).getLast? = some z := ⟨_, List.getLast?_cons⟩
    have hzm : (m1 z).isSome := by
      rw [hs1.isSome]
      exact h.allocated.isSome (List.mem_of_getLast? hz)
    obtain ⟨m2, hm2, hnext2, hprev2, hs2, -⟩ := modify_next (m := m1) (o := some z)
      (fun q hq => Option.some.inj hq ▸ hzm) (some p)
    obtain ⟨m3, hm3, hprev3, hnext3, hs3, -⟩ := modify_prev (m := m2) (o := some p)
      (fun q hq => by rw [hs2.isSome]; exact Option.some.inj hq ▸ hp1) (some z)
    have hs := (hs1.trans hs2).trans hs3
    obtain ⟨m4, m5, t', hm4, hm5, hh, hd⟩ := hashAdd_bucket
      { t with tail := some p, numItems := t.numItems + 1 } a h hp he (by rw [hnext3, hnext2, hnext1, hz]; rfl)
      (by rw [hprev3, hprev2, hprev1, hz]; rfl) hs rfl (hok.toChains.congr fun q _ => hs.chained q) hok.size
      (by simp [hok.numItems]) List.getLast?_concat.symm
    refine ⟨_, ?_, hh, hd⟩
    simp only [hashAdd, he, hm1, h.head, htable, hok.tail, hz, hm2, hm3, hm4, List.head?_cons, Option.bind_eq_bind,
      Option.bind_some]
    exact Option.bind_eq_some_iff.mpr ⟨_, hm5, rfl⟩

/-! ## Deleting -/

theorem hashDelete_spec (h : Holds hash s l) (hp : p ∈ l) :
    ∃ s', hashDelete s p = some s' ∧ Holds hash s' (l.erase p) ∧ Same Elem.data s.heap s'.heap := by
  obtain ⟨as, bs, rfl⟩ := List.append_of_mem hp
  have hdisj := (List.nodup_append.mp h.nodup).2.2
  have hpas : p ∉ as := fun ha => hdisj p ha p (List.mem_cons_self ..) rfl
  have hpbs : p ∉ bs := (List.nodup_cons.mp (List.nodup_append.mp h.nodup).2.1).1
  have herase : (as ++ p :: bs).erase p = as ++ bs := by
    rw [List.erase_append_right _ hpas, List.erase_cons_head]
  obtain ⟨t, chain, htable, -, hok⟩ := h.table_eq (by simp)
  obtain ⟨e, he, -⟩ := h.items p hp
  have hprev : e.prev = as.getLast? := (link_eq he Elem.prev).symm.trans h.app.prev_eq
  have hnext : e.next = bs.head? := (link_eq he Elem.next).symm.trans h.app.next_eq
  rw [herase]
  by_cases hlast : as ++ bs = []
  · obtain ⟨rfl, rfl⟩ := List.append_eq_nil_iff.mp hlast
    refine ⟨{ s with head := none, tbl := none }, ?_, Holds.nil rfl rfl, Same.refl _⟩
    simp only [hashDelete, he, htable, Option.bind_eq_bind, Option.bind_some]
    exact if_pos ⟨hprev, hnext⟩
  have hnot : ¬ (e.prev = none ∧ e.next = none) := by
    rintro ⟨h1, h2⟩
    rw [hprev, List.getLast?_eq_none_iff] at h1
    rw [hnext, List.head?_eq_none_iff] at h2
    exact hlast (by rw [h1, h2]; rfl)
  have halloc := h.allocated
  have hprevne : e.prev ≠ some p := fun hq => hpas (List.mem_of_getLast? (hprev ▸ hq))
  have hnextne : e.next ≠ some p := fun hq => hpbs (List.mem_of_mem_head? (hnext ▸ hq))
  -- the neighbours in the application order are joined
  obtain ⟨m1, hm1, hnext1, hprev1, hs1, ho1⟩ := modify_next (o := e.prev)
    (fun q hq => halloc.isSome (List.mem_append_left _ (List.mem_of_getLast? (hprev ▸ hq)))) e.next
  obtain ⟨m2, hm2, hprev2, hnext2, hs2, ho2⟩ := modify_prev (m := m1) (o := e.next)
    (fun q hq => by
      rw [hs1.isSome]
      have hqb : q ∈ bs := List.mem_of_mem_head? (hnext ▸ hq)
      exact halloc.isSome (List.mem_append_right _ (List.mem_cons_of_mem _ hqb))) e.prev
  have hs := hs1.trans hs2
  have he1 : m1 p = some e := (ho1 p hprevne).trans he
  have he2 : m2 p = some e := (ho2 p hnextne).trans he1
  -- the item leaves its bucket
  have hchains := hok.toChains.congr fun q _ => hs.chained q
  have hn := TableOk.numBuckets_pos hok.size
  obtain ⟨m3, bkts, chain', hdel, hchains', hs3⟩ := hashDelInBkt_spec (t := { t with tail := (as ++ bs).getLast? })
    hchains hn hp fun q hq => by
      rw [hs.isSome]
      exact halloc.isSome hq
  have hbucket : bucketOf m2 t.numBuckets p = hashToBkt e.hashv t.numBuckets := by
    rw [bucketOf, Heap.hashv, he2]
    rfl
  have hhead : (if e.prev = none then e.next else s.head) = (as ++ bs).head? := by
    rw [hprev, hnext, h.head]
    cases as <;> simp
  have htail : (if t.tail = some p then e.prev else t.tail) = (as ++ bs).getLast? := by
    rw [hprev, hok.tail]
    cases bs with
    | nil => simp
    | cons b bs =>
      have hne : (b :: bs).getLast? ≠ some p := fun hq => hpbs (List.mem_of_getLast? hq)
      have hcons : (p :: b :: bs).getLast? = (b :: bs).getLast? := List.getLast?_cons_cons
      rw [List.getLast?_append, List.getLast?_append, hcons]
      obtain ⟨z, hz⟩ : ∃ z, (b :: bs).getLast? = some z := ⟨_, List.getLast?_cons⟩
      rw [hz] at hne ⊢
      exact if_neg hne
  obtain ⟨x, hx⟩ : ∃ x, (as ++ bs).head? = some x :=
    ⟨_, List.head?_eq_some_head hlast⟩
  obtain ⟨ex, hex⟩ : ∃ ex, m2 x = some ex := by
    refine Option.isSome_iff_exists.mp ?_
    rw [hs.isSome]
    exact halloc.isSome (List.mem_of_mem_erase (herase ▸ List.mem_of_mem_head? hx))
  have htail' :
      (if t.tail = some p then { t with tail := e.prev } else t) = { t with tail := (as ++ bs).getLast? } := by
    rw [← htail]
    split <;> rfl
  refine ⟨⟨m3, some x, some { t with tail := (as ++ bs).getLast?, buckets := bkts, numItems := t.numItems - 1 }⟩,
    ?_, ⟨hx.symm, ?_, ?_, fun hl => absurd hl hlast, fun _ => ⟨_, chain', rfl, ?_, hok.size, ?_, rfl⟩⟩, ?_⟩
  · simp only [hashDelete, he, htable, Option.bind_eq_bind, Option.bind_some]
    rw [if_neg hnot]
    simp only [hhead, hx, hm1, he1, hm2, he2, Hash.table, hex, htail', Option.bind_some]
    rw [← hbucket]
    exact Option.bind_eq_some_iff.mpr ⟨_, hdel, rfl⟩
  · change Linked (m3.link Elem.next) (m3.link Elem.prev) (as ++ bs)
    have hnext3 : Same Elem.next m2 m3 := hs3.comp fun x => x.2.2.2.1
    have hprev3 : Same Elem.prev m2 m3 := hs3.comp fun x => x.2.2.1
    rw [hnext3.link, hprev3.link, hnext2, hprev2, hnext1, hprev1, ← link_eq he Elem.prev, ← link_eq he Elem.next]
    exact h.app.unlink
  · have hhashed : Same Elem.hashed s.heap m3 :=
      (hs.comp fun x => (x.1, x.2.2.2.2)).trans (hs3.comp fun x => (x.1, x.2.2.2.2))
    have hall : Allocated hash m3 (as ++ p :: bs) := halloc.congr fun q _ => hhashed q
    intro q hq
    exact hall q (List.mem_of_mem_erase (herase ▸ hq))
  · rw [herase] at hchains'
    exact hchains'
  · simp only [hok.numItems, List.length_append, List.length_cons]
    omega
  · exact (hs.comp fun x => (x.1, x.2.1)).trans (hs3.comp fun x => (x.1, x.2.1))

theorem Holds.free (h : Holds hash s l) (hp : p ∉ l) (he : s.heap p = some e) :
    s.heap.free p = some (Function.update s.heap p none) ∧
      Holds hash { s with heap := Function.update s.heap p none } l := by
  refine ⟨by rw [Heap.free, he, Option.map_some], h.of_heap fun q hq => congrArg _ ?_⟩
  exact Function.update_of_ne (fun hqp : q = p => hp (hqp ▸ hq)) _ _

theorem hashIterDelete_spec (rounds : Nat) (h : Holds hash s l) (hr : l.length < rounds) :
    ∃ s', hashIterDelete rounds s l.head? l.tail.head? = some s' ∧ Holds hash s' [] ∧
      ∀ q, (s'.heap q).map Elem.data = if q ∈ l then none else (s.heap q).map Elem.data := by
  induction l generalizing s rounds with
  | nil =>
    obtain ⟨rounds, rfl⟩ : ∃ r, rounds = r + 1 := ⟨rounds - 1, (Nat.succ_pred_eq_of_pos hr).symm⟩
    exact ⟨s, rfl, h, fun q => (if_neg List.not_mem_nil).symm⟩
  | cons p l ih =>
    obtain ⟨rounds, rfl⟩ : ∃ r, rounds = r + 1 := ⟨rounds - 1, (Nat.succ_pred_eq_of_pos (by omega)).symm⟩
    obtain ⟨hpl, -⟩ := List.nodup_cons.mp h.nodup
    obtain ⟨s1, hdel, h1, hd1⟩ := hashDelete_spec h (List.mem_cons_self ..)
    rw [List.erase_cons_head] at h1
    obtain ⟨e, he⟩ : ∃ e, s1.heap p = some e := by
      refine Option.isSome_iff_exists.mp ?_
      rw [hd1.isSome]
      exact h.allocated.isSome (List.mem_cons_self ..)
    obtain ⟨hfree, h2⟩ := h1.free hpl he
    obtain ⟨s3, hiter, h3, hd3⟩ := ih rounds h2 (by simpa using hr)
    refine ⟨s3, ?_, h3, fun q => ?_⟩
    · simp only [List.head?_cons, List.tail_cons, hashIterDelete, hdel, hfree, Option.bind_eq_bind, Option.bind_some]
      cases l with
      | nil => exact hiter
      | cons a l =>
        obtain ⟨ea, hea, -⟩ := h2.items a (List.mem_cons_self ..)
        have hnext : ea.next = l.head? := (link_eq hea Elem.next).symm.trans (h2.app.next_eq (l := []))
        refine Option.bind_eq_some_iff.mpr ⟨ea, hea, ?_⟩
        rw [hnext]
        exact hiter
    · rw [hd3 q]
      by_cases hqp : q = p
      · rw [hqp, if_neg hpl, if_pos (List.mem_cons_self ..)]
        exact congrArg (Option.map Elem.data) (Function.update_self p none s1.heap)
      · rw [← hd1 q]
        simp [hqp]

theorem hashDeleteAll_spec (h : Holds hash s l) :
    ∃ s', hashDeleteAll s = some s' ∧ Holds hash s' [] ∧
      ∀ q, (s'.heap q).map Elem.data = if q ∈ l then none else (s.heap q).map Elem.data := by
  cases l with
  | nil =>
    refine ⟨s, ?_, h, fun q => (if_neg List.not_mem_nil).symm⟩
    rw [hashDeleteAll, h.head]
    rfl
  | cons p l =>
    obtain ⟨t, chain, htable, -, hok⟩ := h.table_eq (List.cons_ne_nil p l)
    obtain ⟨e, he, -⟩ := h.items p (List.mem_cons_self ..)
    have hnext : e.next = l.head? := (link_eq he Elem.next).symm.trans (h.app.next_eq (l := []))
    obtain ⟨s', hs', hh, hd⟩ := hashIterDelete_spec t.rounds h (by rw [Table.rounds, hok.numItems]; omega)
    refine ⟨s', ?_, hh, hd⟩
    simp only [hashDeleteAll, h.head, List.head?_cons, htable, he, hnext, Option.bind_eq_bind, Option.bind_some]
    exact hs'

/-! ## Checking -/

theorem fsckWalk_spec {link back : Elem P K V → Option P} (rounds count : Nat) (as : List P) {c : List P}
    (h : Linked (m.link link) (m.link back) (as ++ c)) (hm : ∀ q ∈ c, (m q).isSome) (hr : c.length < rounds) :
    fsckWalk m link back rounds as.getLast? c.head? count = some (some (count + c.length)) := by
  induction c generalizing rounds count as with
  | nil =>
    obtain ⟨rounds, rfl⟩ : ∃ r, rounds = r + 1 := ⟨rounds - 1, (Nat.succ_pred_eq_of_pos hr).symm⟩
    rfl
  | cons p c ih =>
    obtain ⟨rounds, rfl⟩ : ∃ r, rounds = r + 1 := ⟨rounds - 1, (Nat.succ_pred_eq_of_pos (by omega)).symm⟩
    obtain ⟨e, he⟩ := Option.isSome_iff_exists.mp (hm p (List.mem_cons_self ..))
    have hback : back e = as.getLast? := (link_eq he back).symm.trans h.prev_eq
    have hlink : link e = c.head? := (link_eq he link).symm.trans h.next_eq
    have hrest := ih rounds (count + 1) (as ++ [p]) (by simpa using h)
      (fun q hq => hm q (List.mem_cons_of_mem _ hq)) (by simpa using hr)
    rw [List.getLast?_concat] at hrest
    simp only [List.head?_cons, fsckWalk, he, Option.bind_eq_bind, Option.bind_some, hback, if_true, hlink, hrest]
    simp only [List.length_cons]
    congr 2
    omega

theorem fsckBuckets_spec {buckets : List (Bucket P)} {cs : List (List P)} {rounds : Nat} (total : Nat)
    (h : List.Forall₂ (fun bkt c => bkt.hhHead = c.head? ∧ bkt.count = c.length ∧
      Linked (m.link Elem.hhNext) (m.link Elem.hhPrev) c) buckets cs)
    (hm : ∀ q ∈ cs.flatten, (m q).isSome) (hr : ∀ c ∈ cs, c.length < rounds) :
    buckets.foldlM (fsckBucket m rounds) (some total) = some (some (total + cs.flatten.length)) := by
  induction cs generalizing buckets total with
  | nil =>
    obtain rfl := List.forall₂_nil_right_iff.mp h
    rfl
  | cons c cs ih =>
    obtain ⟨bkt, buckets, ⟨hhead, hcount, hlinked⟩, hrest, rfl⟩ := List.forall₂_cons_right_iff.mp h
    have hwalk : fsckWalk m Elem.hhNext Elem.hhPrev rounds none bkt.hhHead 0 = some (some (0 + c.length)) := by
      rw [hhead]
      exact fsckWalk_spec rounds 0 [] hlinked (fun q hq => hm q (by simp [hq])) (hr c (List.mem_cons_self ..))
    have hbkt : fsckBucket m rounds (some total) bkt = some (some (total + c.length)) := by
      simp only [fsckBucket, hwalk, Option.bind_eq_bind, Option.bind_some, Nat.zero_add, hcount, if_true]
    rw [List.foldlM_cons, hbkt, Option.bind_eq_bind, Option.bind_some,
      ih _ hrest (fun q hq => hm q (by simp at hq ⊢; exact Or.inr hq))
        fun c' hc' => hr c' (List.mem_cons_of_mem _ hc')]
    simp [Nat.add_assoc]

theorem hashFsck_spec (h : Holds hash s l) : hashFsck s = some true := by
  cases l with
  | nil =>
    rw [hashFsck, h.head]
    rfl
  | cons a l =>
    obtain ⟨t, chain, htable, -, hok⟩ := h.table_eq (List.cons_ne_nil a l)
    have hn := TableOk.numBuckets_pos hok.size
    have hperm := hok.toChains.flatten hn h.nodup
    have hlen : ∀ c ∈ (List.range t.numBuckets).map chain, c.length < t.rounds := by
      intro c hc
      have hle := hperm.length_eq ▸ (List.sublist_flatten_of_mem hc).length_le
      rw [Table.rounds, hok.numItems]
      exact Nat.lt_succ_of_le hle
    have htotal := fsckBuckets_spec 0 hok.toChains.forall₂
      (fun q hq => h.allocated.isSome (hperm.mem_iff.mp hq)) hlen
    have hcounted := fsckWalk_spec t.rounds 0 [] h.app
      (fun q hq => h.allocated.isSome hq) (by rw [Table.rounds, hok.numItems]; exact Nat.lt_succ_self _)
    rw [hperm.length_eq, Nat.zero_add] at htotal
    rw [Nat.zero_add, List.head?_cons] at hcounted
    simp only [hashFsck, h.head, List.head?_cons, htable, htotal, Option.bind_eq_bind, Option.bind_some]
    refine Option.bind_eq_some_iff.mpr ⟨_, hcounted, ?_⟩
    simp [hok.numItems]

end

end

end UtHash
