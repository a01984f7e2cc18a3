import Clarisse.OwnMetrics
import Clarisse.UtHashMap

/-!
# The table of timestamps in memory

`compute_own_metrics` with the `h_timestamp_t` elements of `hash_ts` that it
allocates, finds, counts in and frees. It does what the handler over a map does,
and when the aggregator is destroyed no element is left.
-/

namespace Clarisse.TimestampTable

open UtHash

variable {P : Type}

def keyBytes (ts : UInt64) : List UInt8 := (List.range 8).map fun n => (ts >>> (8 * n).toUInt64).toUInt8

def hashTs (ts : UInt64) : Nat := hashJen (keyBytes ts)

/-- `own` without its map, which the table is there for. -/
structure State (P : Type) where
  own : OwnState := {}
  table : Hash P UInt64 Nat := Hash.empty

section
variable [DecidableEq P] (T : Topology) (rank : Nat) (E : Nat → When → Sampling)

def submitOwn (event : Metrics) (found : P) (x : State P) : Option (Except Halt (State P)) :=
  let sampled :=
    if x.own.firstPulse ∨ event.updateFile ≠ 0 ∨ event.quit ≠ 0 then
      { x.own with firstPulse := false }.sample T rank E .current event
    else .ok x.own
  match sampled with
  | .error e => some (.error e)
  | .ok own => do
    let table ← hashRemove x.table found
    let own := { own with submitted := own.submitted ++ [own.data], counter := own.counter + 1 }
    if event.quit ≠ 0 then some (.ok ⟨own, table⟩)
    else
      match own.sample T rank E .next event with
      | .error e => some (.error e)
      | .ok own => some (.ok ⟨own, table⟩)

/-- The first `HASH_FIND` is for the timestamp of the event. The second takes its key of
eight bytes at `&counter`, an `int`; the four bytes after it are taken to be zero, so that
the key is the value of `counter`. -/
def computeOwnMetrics (malloc : Heap P UInt64 Nat → P) (x : State P) (event : Metrics) :
    Option (Except Halt (State P)) := do
  let table ← hashUpsert hashTs malloc x.table event.timestamp.toUInt64 1 Nat.succ
  match ← hashFind hashTs table x.own.counter.toUInt64 with
  | none => some (.error .nullFound)
  | some found => do
    let e ← table.heap found
    if e.value = T.getDegreeNode rank then submitOwn T rank E event found { x with table := table }
    else some (.ok { x with table := table })

def handleFrom (malloc : Nat → Heap P UInt64 Nat → P) : Nat → State P → List Metrics → Option (Except Halt (State P))
  | _, x, [] => some (.ok x)
  | n, x, e :: es =>
    match computeOwnMetrics T rank E (malloc n) x e with
    | none => none
    | some (.error h) => some (.error h)
    | some (.ok x) => handleFrom malloc (n + 1) x es

end

/-- The table stands for the map, which has no key that is not a `uint64_t`. -/
structure Refines (x : State P) (s : OwnState) : Prop where
  own : x.own = { s with hashTs := fun _ => none }
  table : ∃ l, Represents hashTs x.table l fun ts => s.hashTs ts.toNat
  range : ∀ ts, 2 ^ 64 ≤ ts → s.hashTs ts = none

inductive Simulates : Option (Except Halt (State P)) → Except Halt OwnState → Prop where
  | error (h : Halt) : Simulates (some (.error h)) (.error h)
  | ok {x : State P} {s : OwnState} (h : Refines x s) : Simulates (some (.ok x)) (.ok s)

section
variable {T : Topology} {rank : Nat} {E : Nat → When → Sampling} {x : State P} {s : OwnState} {e : Metrics}

theorem refines_init : Refines ({} : State P) {} :=
  ⟨rfl, ⟨[], represents_empty hashTs⟩, fun _ _ => rfl⟩

theorem toNat_toUInt64 {ts : Nat} (h : ts < 2 ^ 64) : ts.toUInt64.toNat = ts := by
  simpa using Nat.mod_eq_of_lt h

theorem update_toNat {f : Nat → Option Nat} {ts : Nat} (h : ts < 2 ^ 64) (v : Option Nat) :
    Function.update (fun k : UInt64 => f k.toNat) ts.toUInt64 v = fun k => Function.update f ts v k.toNat := by
  funext k
  by_cases hk : k = ts.toUInt64
  · rw [hk, Function.update_self, toNat_toUInt64 h, Function.update_self]
  · have hne : k.toNat ≠ ts := fun he => hk (UInt64.toNat.inj (by rw [toNat_toUInt64 h, he]))
    rw [Function.update_of_ne hk, Function.update_of_ne hne]

theorem range_update {f : Nat → Option Nat} {ts : Nat} (hf : ∀ ts, 2 ^ 64 ≤ ts → f ts = none) (h : ts < 2 ^ 64)
    (v : Option Nat) : ∀ t, 2 ^ 64 ≤ t → Function.update f ts v t = none := by
  intro t ht
  rw [Function.update_of_ne (by omega), hf t ht]

theorem Refines.sample (h : Refines x s) (T : Topology) (rank : Nat) (E : Nat → When → Sampling) (e : Metrics)
    (w : When) :
    (∃ err, s.sample T rank E w e = .error err ∧ x.own.sample T rank E w e = .error err) ∨
      ∃ s' own, s.sample T rank E w e = .ok s' ∧ x.own.sample T rank E w e = .ok own ∧ s'.counter = s.counter ∧
        s'.hashTs = s.hashTs ∧ Refines { x with own := own } s' := by
  rw [h.own]
  unfold OwnState.sample
  cases getMetricsValues T rank (E s.counter w) s.aggregator e s.counter s.data with
  | error err => exact Or.inl ⟨err, rfl, rfl⟩
  | ok y => exact Or.inr ⟨_, _, rfl, rfl, rfl, rfl, rfl, h.table, h.range⟩

section
variable [DecidableEq P]

theorem Refines.receive (h : Refines x s) {malloc : Heap P UInt64 Nat → P} (hm : Fresh malloc) {ts : Nat}
    (hts : ts < 2 ^ 64) :
    ∃ table, hashUpsert hashTs malloc x.table ts.toUInt64 1 Nat.succ = some table ∧
      Refines { x with table := table } (s.receive ts) := by
  obtain ⟨l, hl⟩ := h.table
  obtain ⟨table, l', ht, h'⟩ := hl.upsert hm ts.toUInt64 1 Nat.succ
  have hv : ((s.hashTs ts.toUInt64.toNat).map Nat.succ).getD 1 = (s.hashTs ts).getD 0 + 1 := by
    rw [toNat_toUInt64 hts]
    cases s.hashTs ts <;> rfl
  rw [hv, update_toNat hts] at h'
  exact ⟨table, ht, h.own, ⟨l', h'⟩, range_update h.range hts _⟩

theorem Refines.submit (h : Refines x s) (hc : s.counter < 2 ^ 64) {found : P} {l : List P}
    {el : Elem P UInt64 Nat} (hl : Represents hashTs x.table l fun ts => s.hashTs ts.toNat) (hf : found ∈ l)
    (he : x.table.heap found = some el) (hk : el.key = s.counter.toUInt64) :
    ∃ table, hashRemove x.table found = some table ∧
      Refines ⟨{ x.own with submitted := x.own.submitted ++ [x.own.data], counter := x.own.counter + 1 }, table⟩
        s.submit := by
  obtain ⟨table, ht, h'⟩ := hl.remove hf he
  rw [hk, update_toNat hc] at h'
  refine ⟨table, ht, ?_, ⟨_, h'⟩, range_update h.range hc _⟩
  rw [h.own]
  rfl

theorem submitOwn_simulates (h : Refines x s) (hc : s.counter < 2 ^ 64) {found : P} {l : List P}
    {el : Elem P UInt64 Nat} (hl : Represents hashTs x.table l fun ts => s.hashTs ts.toNat) (hf : found ∈ l)
    (he : x.table.heap found = some el) (hk : el.key = s.counter.toUInt64) :
    Simulates (submitOwn T rank E e found x) (Clarisse.submitOwn T rank E e s) := by
  -- the part after the first sampling
  have hlast : ∀ {x : State P} {s : OwnState}, Refines x s → s.counter < 2 ^ 64 → ∀ {l},
      (Represents hashTs x.table l fun ts => s.hashTs ts.toNat) → found ∈ l → x.table.heap found = some el →
      el.key = s.counter.toUInt64 →
      Simulates (do
        let table ← hashRemove x.table found
        let own := { x.own with submitted := x.own.submitted ++ [x.own.data], counter := x.own.counter + 1 }
        if e.quit ≠ 0 then some (.ok ⟨own, table⟩)
        else
          match own.sample T rank E .next e with
          | .error e => some (.error e)
          | .ok own => some (.ok ⟨own, table⟩))
        (if e.quit ≠ 0 then .ok s.submit else s.submit.sample T rank E .next e) := by
    intro x s h hc l hl hf he hk
    obtain ⟨table, ht, h'⟩ := h.submit hc hl hf he hk
    simp only [ht, Option.bind_eq_bind, Option.bind_some]
    by_cases hq : e.quit ≠ 0
    · rw [if_pos hq, if_pos hq]
      exact .ok h'
    · rw [if_neg hq, if_neg hq]
      rcases h'.sample T rank E e .next with ⟨err, hs, hx⟩ | ⟨s', own, hs, hx, -, -, h''⟩
      · rw [hs, hx]
        exact .error err
      · rw [hs, hx]
        exact .ok h''
  unfold submitOwn Clarisse.submitOwn
  have hfp : x.own.firstPulse = s.firstPulse := by rw [h.own]
  rw [hfp]
  by_cases hnow : s.firstPulse ∨ e.updateFile ≠ 0 ∨ e.quit ≠ 0
  · have h1 : Refines { x with own := { x.own with firstPulse := false } } { s with firstPulse := false } :=
      ⟨by rw [h.own], h.table, h.range⟩
    simp only [if_pos hnow]
    rcases h1.sample T rank E e .current with ⟨err, hs, hx⟩ | ⟨s', own, hs, hx, hcs, hts, h''⟩
    · simp only [hs, hx]
      exact .error err
    · simp only [hs, hx]
      exact hlast h'' (hcs ▸ hc) (by rw [hts]; exact hl) hf he (by rw [hcs]; exact hk)
  · simp only [if_neg hnow]
    exact hlast h hc hl hf he hk

theorem computeOwnMetrics_simulates (T : Topology) (rank : Nat) (E : Nat → When → Sampling) (h : Refines x s)
    {malloc : Heap P UInt64 Nat → P} (hm : Fresh malloc) (hc : s.counter < 2 ^ 64) (hts : e.timestamp < 2 ^ 64) :
    Simulates (computeOwnMetrics T rank E malloc x e) (Clarisse.computeOwnMetrics T rank E s e) := by
  obtain ⟨table, hup, h'⟩ := h.receive hm hts
  obtain ⟨l, hl⟩ := h'.table
  have hcounter : x.own.counter = s.counter := by rw [h.own]
  have hvalue :
      (s.receive e.timestamp).hashTs s.counter.toUInt64.toNat = (s.receive e.timestamp).hashTs s.counter := by
    rw [toNat_toUInt64 hc]
  simp only [computeOwnMetrics, Clarisse.computeOwnMetrics, hup, hcounter, Option.bind_eq_bind, Option.bind_some]
  rw [receive_counter]
  rcases hl.find s.counter.toUInt64 with ⟨hr, hf⟩ | ⟨found, el, hr, hmem, he, hk, hf⟩
  · rw [hvalue] at hf
    rw [hr, hf]
    exact .error .nullFound
  · rw [hvalue] at hf
    have hheap : table.heap found = some el := he
    simp only [hr, hf, hheap, Option.bind_some]
    split
    · exact submitOwn_simulates h' hc hl hmem he hk
    · exact .ok h'

theorem computeOwnMetrics_counter {s' : OwnState} (h : Clarisse.computeOwnMetrics T rank E s e = .ok s') :
    s'.counter ≤ s.counter + 1 := by
  cases computeOwnMetrics_ok h with
  | inl h => rw [h, receive_counter]; exact Nat.le_succ _
  | inr h =>
    obtain ⟨o, agg, hs⟩ := submitOwn_submits h
    rw [hs.counter, receive_counter]

theorem handleFrom_simulates (T : Topology) (rank : Nat) (E : Nat → When → Sampling)
    {malloc : Nat → Heap P UInt64 Nat → P} (hm : ∀ n, Fresh (malloc n)) {es : List Metrics}
    (hts : ∀ e ∈ es, e.timestamp < 2 ^ 64) (n : Nat) (h : Refines x s) (hc : s.counter + es.length < 2 ^ 64) :
    Simulates (handleFrom T rank E malloc n x es) (es.foldlM (Clarisse.computeOwnMetrics T rank E) s) := by
  induction es generalizing n x s with
  | nil => exact .ok h
  | cons e es ih =>
    rw [List.length_cons] at hc
    have hstep := computeOwnMetrics_simulates T rank E h (hm n) (by omega)
      (hts e (List.mem_cons_self ..))
    rw [List.foldlM_cons, handleFrom]
    generalize computeOwnMetrics T rank E (malloc n) x e = r at hstep ⊢
    generalize ho : Clarisse.computeOwnMetrics T rank E s e = o at hstep ⊢
    cases hstep with
    | error err => exact .error err
    | ok h' =>
      have := computeOwnMetrics_counter ho
      exact ih (fun e he => hts e (List.mem_cons_of_mem _ he)) (n + 1) h' (by omega)

/-- The handler over the table in memory does what the handler over the map does, and the
loop of `destroy_metrics_aggregator` then frees every element that is left. -/
theorem handleFrom_refines {malloc : Nat → Heap P UInt64 Nat → P} (hm : ∀ n, Fresh (malloc n)) {es : List Metrics}
    (hts : ∀ e ∈ es, e.timestamp < 2 ^ 64) (hlen : es.length < 2 ^ 31) :
    (∀ err, handleAll T rank E es = .error err → handleFrom T rank E malloc 0 {} es = some (.error err)) ∧
      ∀ s, handleAll T rank E es = .ok s → ∃ x : State P, handleFrom T rank E malloc 0 {} es = some (.ok x) ∧
        x.own = { s with hashTs := fun _ => none } ∧
        Contents x.table.heap.contents (fun ts => s.hashTs ts.toNat) ∧
        ∃ table, hashDeleteAll x.table = some table ∧ table.head = none ∧ table.tbl = none ∧
          ∀ p, table.heap p = none := by
  have hsim := handleFrom_simulates T rank E hm hts 0 refines_init (by simp; omega)
  change Simulates _ (handleAll T rank E es) at hsim
  generalize handleFrom T rank E malloc 0 {} es = r at hsim
  generalize handleAll T rank E es = o at hsim
  cases hsim with
  | error err =>
    refine ⟨fun _ h => ?_, fun _ h => (by cases h)⟩
    cases h
    rfl
  | @ok x s h =>
    refine ⟨fun _ h => (by cases h), fun _ hs => ?_⟩
    cases hs
    obtain ⟨l, hl⟩ := h.table
    obtain ⟨table, ht, h'⟩ := hl.clear
    refine ⟨x, rfl, h.own, hl.contents, table, ht, h'.holds.head, h'.holds.empty rfl, fun p => ?_⟩
    exact Option.not_isSome_iff_eq_none.mp fun hp => List.not_mem_nil (h'.memory p hp)

end

end

def aheadThenLevel : List Metrics :=
  [default, { (default : Metrics) with timestamp := 1, quit := 1 }, default]

theorem handleFrom_refines_ahead :
    let E : Nat → When → Sampling := fun _ _ => .constant ["test"] 1
    (∀ err, handleAll twoLeaves 0 E aheadThenLevel = .error err →
        handleFrom twoLeaves 0 E (fun _ => firstFree) 0 {} aheadThenLevel = some (.error err)) ∧
      ∀ s, handleAll twoLeaves 0 E aheadThenLevel = .ok s →
        ∃ x : State Nat, handleFrom twoLeaves 0 E (fun _ => firstFree) 0 {} aheadThenLevel = some (.ok x) ∧
          x.own = { s with hashTs := fun _ => none } ∧
          Contents x.table.heap.contents (fun ts => s.hashTs ts.toNat) ∧
          ∃ table, hashDeleteAll x.table = some table ∧ table.head = none ∧ table.tbl = none ∧
            ∀ p, table.heap p = none :=
  handleFrom_refines (fun _ => firstFree_fresh) (by decide) (by decide)

end Clarisse.TimestampTable
