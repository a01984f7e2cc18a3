import Mathlib.Logic.Function.Basic

/-!
# The hash tables of uthash.h

The macros that storage.c and metrics_aggregator.c use, on a heap of elements.
An element is a structure with its hash handle, at one address; its links are
those of the application order (`prev`, `next`) and of its bucket (`hh_prev`,
`hh_next`). An operation that uses an address at which there is no element, or a
loop that does not end after as many rounds as there are items, has no result.
-/

namespace UtHash

/-- `hh.key` points into the element, so the handle has the key. -/
structure Elem (P K V : Type) where
  key : K
  value : V
  prev : Option P
  next : Option P
  hhPrev : Option P
  hhNext : Option P
  hashv : Nat
  deriving DecidableEq

abbrev Heap (P K V : Type) := P → Option (Elem P K V)

structure Bucket (P : Type) where
  hhHead : Option P := none
  count : Nat := 0
  expandMult : Nat := 0
  deriving DecidableEq

structure Table (P : Type) where
  buckets : List (Bucket P)
  numBuckets : Nat
  log2NumBuckets : Nat
  numItems : Nat
  tail : Option P
  idealChainMaxlen : Nat
  nonidealItems : Nat
  ineffExpands : Nat
  noexpand : Nat
  deriving DecidableEq

/-- The heap, the head of the table, and what `head->hh.tbl` points to. -/
structure Hash (P K V : Type) where
  heap : Heap P K V
  head : Option P
  tbl : Option (Table P)

variable {P K V : Type}

def Hash.table (s : Hash P K V) : Option (Table P) :=
  s.head.bind fun head => (s.heap head).bind fun _ => s.tbl

def hashToBkt (hashv numBkts : Nat) : Nat := hashv &&& (numBkts - 1)

/-! ## `HASH_JEN` -/

def hashJenMix (a b c : UInt32) : UInt32 × UInt32 × UInt32 :=
  let a := (a - b - c) ^^^ (c >>> 13)
  let b := (b - c - a) ^^^ (a <<< 8)
  let c := (c - a - b) ^^^ (b >>> 13)
  let a := (a - b - c) ^^^ (c >>> 12)
  let b := (b - c - a) ^^^ (a <<< 16)
  let c := (c - a - b) ^^^ (b >>> 5)
  let a := (a - b - c) ^^^ (c >>> 3)
  let b := (b - c - a) ^^^ (a <<< 10)
  let c := (c - a - b) ^^^ (b >>> 15)
  (a, b, c)

/-- Byte `n` of the key, shifted; the `switch` adds nothing for a byte past its end. -/
def keyByte (key : List UInt8) (n : Nat) (shift : UInt32) : UInt32 := (key.getD n 0).toUInt32 <<< shift

def keyWord (key : List UInt8) (n : Nat) : UInt32 :=
  keyByte key n 0 + keyByte key (n + 1) 8 + keyByte key (n + 2) 16 + keyByte key (n + 3) 24

/-- The blocks of twelve bytes, and what is left of the key. -/
def hashJenBlocks : Nat → List UInt8 → UInt32 × UInt32 × UInt32 → List UInt8 × UInt32 × UInt32 × UInt32
  | 0, key, x => (key, x)
  | blocks + 1, key, (i, j, hashv) =>
    hashJenBlocks blocks (key.drop 12) (hashJenMix (i + keyWord key 0) (j + keyWord key 4) (hashv + keyWord key 8))

/-- The length takes the lowest byte of the last `hashv` word. -/
def hashJen (key : List UInt8) : Nat :=
  let (rest, i, j, hashv) := hashJenBlocks (key.length / 12) key (0x9e3779b9, 0x9e3779b9, 0xfeedbeef)
  let hashv := hashv + key.length.toUInt32 + keyByte rest 8 8 + keyByte rest 9 16 + keyByte rest 10 24
  (hashJenMix (i + keyWord rest 0) (j + keyWord rest 4) hashv).2.2.toNat

/-- The rounds that a loop over items is given. -/
def Table.rounds (t : Table P) : Nat := t.numItems + 1

section
variable [DecidableEq P]

/-- `o->… = …`, and nothing when `o` is null. -/
def Heap.modify (m : Heap P K V) (o : Option P) (f : Elem P K V → Elem P K V) : Option (Heap P K V) :=
  match o with
  | none => some m
  | some p => (m p).map fun e => Function.update m p (some (f e))

def Heap.free (m : Heap P K V) (p : P) : Option (Heap P K V) := (m p).map fun _ => Function.update m p none

/-! ## Finding -/

def hashFindInBkt [DecidableEq K] (m : Heap P K V) (key : K) : Nat → Option P → Option (Option P)
  | 0, _ => none
  | _ + 1, none => some none
  | rounds + 1, some out => do
    let e ← m out
    if e.key = key then some (some out) else hashFindInBkt m key rounds e.hhNext

def hashFind [DecidableEq K] (hash : K → Nat) (s : Hash P K V) (key : K) : Option (Option P) :=
  match s.head with
  | none => some none
  | some _ => do
    let t ← s.table
    let bkt ← t.buckets[hashToBkt (hash key) t.numBuckets]?
    hashFindInBkt s.heap key t.rounds bkt.hhHead

/-! ## Expanding -/

/-- The heap, the new buckets and `nonideal_items` while the items are moved. -/
structure Expansion (P K V : Type) where
  heap : Heap P K V
  buckets : List (Bucket P)
  nonidealItems : Nat

/-- `ceil(num_items / (2 * num_buckets))`, without a division. -/
def idealChainMaxlen (t : Table P) : Nat :=
  (t.numItems >>> (t.log2NumBuckets + 1)) + if t.numItems &&& (t.numBuckets * 2 - 1) ≠ 0 then 1 else 0

/-- One round of the inner loop, with the division of `expand_mult` checked. -/
def expandItem (numBuckets ideal : Nat) (x : Expansion P K V) (thh : P) : Option (Expansion P K V) := do
  let e ← x.heap thh
  let b := hashToBkt e.hashv numBuckets
  let newbkt ← x.buckets[b]?
  let count := newbkt.count + 1
  let expandMult ←
    if count > ideal then
      if ideal = 0 then none else some (count / ideal)
    else some newbkt.expandMult
  let heap ← x.heap.modify (some thh) fun e => { e with hhPrev := none }
  let heap ← heap.modify (some thh) fun e => { e with hhNext := newbkt.hhHead }
  let heap ← heap.modify newbkt.hhHead fun e => { e with hhPrev := some thh }
  some ⟨heap, x.buckets.set b ⟨some thh, count, expandMult⟩,
    if count > ideal then x.nonidealItems + 1 else x.nonidealItems⟩

def expandChain (numBuckets ideal : Nat) : Nat → Expansion P K V → Option P → Option (Expansion P K V)
  | 0, _, _ => none
  | _ + 1, x, none => some x
  | rounds + 1, x, some thh => do
    let e ← x.heap thh
    let x ← expandItem numBuckets ideal x thh
    expandChain numBuckets ideal rounds x e.hhNext

def hashExpandBuckets (heap : Heap P K V) (t : Table P) : Option (Heap P K V × Table P) := do
  let ideal := idealChainMaxlen t
  let numBuckets := t.numBuckets * 2
  let x ← t.buckets.foldlM (fun x bkt => expandChain numBuckets ideal t.rounds x bkt.hhHead)
    ⟨heap, List.replicate numBuckets {}, 0⟩
  let ineffExpands := if x.nonidealItems > t.numItems >>> 1 then t.ineffExpands + 1 else 0
  some (x.heap,
    { t with
      buckets := x.buckets
      numBuckets := numBuckets
      log2NumBuckets := t.log2NumBuckets + 1
      idealChainMaxlen := ideal
      nonidealItems := x.nonidealItems
      ineffExpands := ineffExpands
      noexpand := if ineffExpands > 1 then 1 else t.noexpand })

/-! ## Adding and deleting -/

def hashMakeTable (head : P) : Table P where
  buckets := List.replicate 32 {}
  numBuckets := 32
  log2NumBuckets := 5
  numItems := 0
  tail := some head
  idealChainMaxlen := 0
  nonidealItems := 0
  ineffExpands := 0
  noexpand := 0

def bktCapacityThresh : Nat := 10

def hashAddToBkt (heap : Heap P K V) (t : Table P) (b : Nat) (addhh : P) : Option (Heap P K V × Table P) := do
  let bkt ← t.buckets[b]?
  let heap ← heap.modify (some addhh) fun e => { e with hhNext := bkt.hhHead }
  let heap ← heap.modify (some addhh) fun e => { e with hhPrev := none }
  let heap ← heap.modify bkt.hhHead fun e => { e with hhPrev := some addhh }
  let bkt : Bucket P := ⟨some addhh, bkt.count + 1, bkt.expandMult⟩
  let t := { t with buckets := t.buckets.set b bkt }
  if bkt.count ≥ (bkt.expandMult + 1) * bktCapacityThresh ∧ t.noexpand ≠ 1 then hashExpandBuckets heap t
  else some (heap, t)

/-- `HASH_ADD`, for an element whose key field is set. -/
def hashAdd (hash : K → Nat) (s : Hash P K V) (add : P) : Option (Hash P K V) := do
  let e ← s.heap add
  let heap ← s.heap.modify (some add) fun e => { e with next := none }
  let (heap, head, t) ←
    match s.head with
    | none => do
      let heap ← heap.modify (some add) fun e => { e with prev := none }
      some (heap, add, hashMakeTable add)
    | some head => do
      let t ← s.table
      let tail ← t.tail
      let heap ← heap.modify (some tail) fun e => { e with next := some add }
      let heap ← heap.modify (some add) fun e => { e with prev := some tail }
      some (heap, head, { t with tail := some add })
  let t := { t with numItems := t.numItems + 1 }
  let hashv := hash e.key
  let heap ← heap.modify (some add) fun e => { e with hashv := hashv }
  let (heap, t) ← hashAddToBkt heap t (hashToBkt hashv t.numBuckets) add
  some ⟨heap, some head, some t⟩

def hashDelInBkt (heap : Heap P K V) (t : Table P) (b : Nat) (hhDel : P) : Option (Heap P K V × Table P) := do
  let bkt ← t.buckets[b]?
  let e ← heap hhDel
  let hhHead := if bkt.hhHead = some hhDel then e.hhNext else bkt.hhHead
  let heap ← heap.modify e.hhPrev fun q => { q with hhNext := e.hhNext }
  let e ← heap hhDel
  let heap ← heap.modify e.hhNext fun q => { q with hhPrev := e.hhPrev }
  some (heap, { t with buckets := t.buckets.set b ⟨hhHead, bkt.count - 1, bkt.expandMult⟩ })

/-- `HASH_DELETE`; the last element takes the table with it. -/
def hashDelete (s : Hash P K V) (delptr : P) : Option (Hash P K V) := do
  let e ← s.heap delptr
  let t ← s.table
  if e.prev = none ∧ e.next = none then some { s with head := none, tbl := none }
  else
    let t := if t.tail = some delptr then { t with tail := e.prev } else t
    let heap ← s.heap.modify e.prev fun q => { q with next := e.next }
    let head := if e.prev = none then e.next else s.head
    let e ← heap delptr
    let heap ← heap.modify e.next fun q => { q with prev := e.prev }
    let e ← heap delptr
    let t ← Hash.table ⟨heap, head, some t⟩
    let (heap, t) ← hashDelInBkt heap t (hashToBkt e.hashv t.numBuckets) delptr
    some ⟨heap, head, some { t with numItems := t.numItems - 1 }⟩

def hashClear (s : Hash P K V) : Option (Hash P K V) :=
  match s.head with
  | none => some s
  | some _ => do
    let _ ← s.table
    some { s with head := none, tbl := none }

/-! ## Iterating -/

/-- `HASH_ITER` around `HASH_DEL(head, el); free(el);`. -/
def hashIterDelete : Nat → Hash P K V → Option P → Option P → Option (Hash P K V)
  | 0, _, _, _ => none
  | _ + 1, s, none, _ => some s
  | rounds + 1, s, some el, tmp => do
    let s ← hashDelete s el
    let heap ← s.heap.free el
    let s := { s with heap := heap }
    match tmp with
    | none => hashIterDelete rounds s none none
    | some q => do
      let e ← heap q
      hashIterDelete rounds s (some q) e.next

def hashDeleteAll (s : Hash P K V) : Option (Hash P K V) :=
  match s.head with
  | none => some s
  | some el => do
    let t ← s.table
    let e ← s.heap el
    hashIterDelete t.rounds s (some el) e.next

def fsckWalk (m : Heap P K V) (link back : Elem P K V → Option P) : Nat → Option P → Option P → Nat →
    Option (Option Nat)
  | 0, _, _, _ => none
  | _ + 1, _, none, count => some (some count)
  | rounds + 1, prev, some p, count => do
    let e ← m p
    if back e = prev then fsckWalk m link back rounds (some p) (link e) (count + 1) else some none

def fsckBucket (m : Heap P K V) (rounds : Nat) (total : Option Nat) (bkt : Bucket P) : Option (Option Nat) := do
  let counted ← fsckWalk m Elem.hhNext Elem.hhPrev rounds none bkt.hhHead 0
  match total, counted with
  | some total, some count => some (if bkt.count = count then some (total + count) else none)
  | _, _ => some none

/-- Whether `HASH_FSCK` has nothing to report. -/
def hashFsck (s : Hash P K V) : Option Bool :=
  match s.head with
  | none => some true
  | some head => do
    let t ← s.table
    let total ← t.buckets.foldlM (fsckBucket s.heap t.rounds) (some 0)
    let counted ← fsckWalk s.heap Elem.next Elem.prev t.rounds none (some head) 0
    some (decide (total = some t.numItems ∧ counted = some t.numItems))

end

end UtHash
