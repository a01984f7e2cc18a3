import Clarisse.Sampling
import Clarisse.Scanf
import Clarisse.UtHashMap

/-!
# The metrics the system knows

storage.c: the table of callbacks, which is built when the monitoring starts and
freed when it ends, and the custom metrics themselves.
-/

namespace Clarisse

open UtHash

inductive Callback where
  | returnRank
  | getUptime
  | benchmarkMetric
  deriving DecidableEq, Repr

def callbacks : List (Callback × String) :=
  [(.returnRank, "rank"), (.getUptime, "uptime"), (.benchmarkMetric, "test")]

def availableMetricsNo : Nat := 3

/-- `callbacks_storage`, and the memory its elements are in. -/
abbrev Storage (P : Type) := Hash P String Callback

def hashStr (key : String) : Nat := hashJen key.toUTF8.data.toList

section
variable {P : Type}

def getValue (s : Storage P) (key : String) : Option (Option Callback) := hashGet hashStr s key

def getValues (s : Storage P) : List String → Option (List (Option Callback))
  | [] => some []
  | key :: keys => do
    let func ← getValue s key
    let rest ← getValues s keys
    some (func :: rest)

variable [DecidableEq P]

def addCallbacks (malloc : Nat → Heap P String Callback → P) : Nat → Storage P → List (Callback × String) →
    Option (Storage P)
  | _, s, [] => some s
  | i, s, (func, name) :: rest => do
    let s ← hashInsert hashStr (malloc i) s name func
    addCallbacks malloc (i + 1) s rest

def initKnownMetrics (malloc : Nat → Heap P String Callback → P) (s : Storage P) : Option (Storage P) := do
  let s ← hashClear s
  addCallbacks malloc 0 s (callbacks.take availableMetricsNo)

def freeStorage (s : Storage P) : Option (Storage P) := hashDeleteAll s

/-- One monitoring from `initialize_metrics_crawler` to `destroy_metrics_aggregator`,
with the names that are looked up in it. -/
def lifetime (malloc : Nat → Heap P String Callback → P) (s : Storage P) (keys : List String) :
    Option (Storage P × List (Option Callback)) := do
  let s ← initKnownMetrics malloc s
  let found ← getValues s keys
  let s ← freeStorage s
  some (s, found)

def lifetimes (malloc : Nat → Nat → Heap P String Callback → P) : Nat → Storage P → List (List String) →
    Option (Storage P × List (List (Option Callback)))
  | _, s, [] => some (s, [])
  | n, s, keys :: rest => do
    let (s, found) ← lifetime (malloc n) s keys
    let (s, others) ← lifetimes malloc (n + 1) s rest
    some (s, found :: others)

end

def known (key : String) : Option Callback := (callbacks.find? fun c => c.2 = key).map Prod.fst

section
variable {P : Type} {s : Storage P} {l : List P} {f : String → Option Callback}

theorem getValues_spec (h : Represents hashStr s l f) (keys : List String) :
    getValues s keys = some (keys.map f) := by
  induction keys with
  | nil => rfl
  | cons key keys ih =>
    simp only [getValues, getValue, h.get key, ih, Option.bind_eq_bind, Option.bind_some, List.map_cons]

variable [DecidableEq P]

theorem addCallbacks_spec {malloc : Nat → Heap P String Callback → P} (hm : ∀ i, Fresh (malloc i))
    (cs : List (Callback × String)) (hnd : (cs.map Prod.snd).Nodup) (i : Nat) (h : Represents hashStr s l f)
    (hf : ∀ c ∈ cs, f c.2 = none) :
    ∃ s' l', addCallbacks malloc i s cs = some s' ∧
      Represents hashStr s' l' fun key => ((cs.find? fun c => c.2 = key).map Prod.fst).or (f key) := by
  induction cs generalizing s l f i with
  | nil => exact ⟨s, l, rfl, h⟩
  | cons c cs ih =>
    obtain ⟨func, name⟩ := c
    obtain ⟨hnot, hnd⟩ := List.nodup_cons.mp hnd
    have hother : ∀ c ∈ cs, c.2 ≠ name := fun c hc he => hnot (List.mem_map.mpr ⟨c, hc, he⟩)
    obtain ⟨s1, l1, hs1, h1⟩ := h.insert (hf _ (List.mem_cons_self ..)) (hm i) func
    have hf1 : ∀ c ∈ cs, Function.update f name (some func) c.2 = none := by
      intro c hc
      rw [Function.update_of_ne (hother c hc)]
      exact hf c (List.mem_cons_of_mem _ hc)
    obtain ⟨s2, l2, hs2, h2⟩ := ih hnd (i + 1) h1 hf1
    refine ⟨s2, l2, ?_, ?_⟩
    · simp only [addCallbacks, hs1, Option.bind_eq_bind, Option.bind_some]
      exact hs2
    · have hkey : (fun key =>
            ((cs.find? fun c => c.2 = key).map Prod.fst).or (Function.update f name (some func) key)) =
          fun key => ((((func, name) :: cs).find? fun c => c.2 = key).map Prod.fst).or (f key) := by
        funext key
        by_cases hk : key = name
        · have hnone : cs.find? (fun c => c.2 = name) = none :=
            List.find?_eq_none.mpr fun c hc => by simpa using hother c hc
          simp [hnone, hk]
        · simp [hk, Ne.symm hk]
      rwa [hkey] at h2

theorem initKnownMetrics_spec {malloc : Nat → Heap P String Callback → P} (hm : ∀ i, Fresh (malloc i))
    (h : Represents hashStr s [] fun _ => none) :
    ∃ s' l', initKnownMetrics malloc s = some s' ∧ Represents hashStr s' l' known := by
  have hclear : hashClear s = some s := by
    rw [hashClear, h.holds.head]
    rfl
  obtain ⟨s', l', hs', h'⟩ := addCallbacks_spec hm (callbacks.take availableMetricsNo) (by decide) 0 h
    fun _ _ => rfl
  refine ⟨s', l', ?_, ?_⟩
  · simp only [initKnownMetrics, hclear, Option.bind_eq_bind, Option.bind_some]
    exact hs'
  · have hknown : (fun key => (((callbacks.take availableMetricsNo).find? fun c => c.2 = key).map Prod.fst).or none) =
        known := funext fun key => Option.or_none
    rwa [hknown] at h'

theorem lifetimes_spec {malloc : Nat → Nat → Heap P String Callback → P} (hm : ∀ n i, Fresh (malloc n i))
    (keys : List (List String)) (n : Nat) (h : Represents hashStr s [] fun _ => none) :
    ∃ s', lifetimes malloc n s keys = some (s', keys.map fun keys => keys.map known) ∧
      Represents hashStr s' [] fun _ => none := by
  induction keys generalizing n s with
  | nil => exact ⟨s, rfl, h⟩
  | cons ks keys ih =>
    obtain ⟨s1, l1, hs1, h1⟩ := initKnownMetrics_spec (hm n) h
    obtain ⟨s2, hs2, h2⟩ := h1.clear
    obtain ⟨s3, hs3, h3⟩ := ih (n + 1) h2
    refine ⟨s3, ?_, h3⟩
    simp only [lifetimes, lifetime, hs1, getValues_spec h1 ks, freeStorage, hs2, hs3, Option.bind_eq_bind,
      Option.bind_some, List.map_cons]

/-- However often the monitoring is started and ended, every lookup answers as `callbacks`
does, no freed or null element is used, and none is left in memory. -/
theorem lifetimes_known {malloc : Nat → Nat → Heap P String Callback → P} (hm : ∀ n i, Fresh (malloc n i))
    (keys : List (List String)) :
    ∃ s, lifetimes malloc 0 Hash.empty keys = some (s, keys.map fun keys => keys.map known) ∧ s.head = none ∧
      s.tbl = none ∧ ∀ p, s.heap p = none := by
  obtain ⟨s, hs, h⟩ := lifetimes_spec hm keys 0 (represents_empty hashStr)
  refine ⟨s, hs, h.holds.head, h.holds.empty rfl, fun p => ?_⟩
  exact Option.not_isSome_iff_eq_none.mp fun hp => List.not_mem_nil (h.memory p hp)

end

theorem lifetimes_known_twice :
    ∃ s : Storage Nat, lifetimes (fun _ _ => firstFree) 0 Hash.empty [["rank", "load"], ["test", "uptime"]] =
        some (s, [[some .returnRank, none], [some .benchmarkMetric, some .getUptime]]) ∧ s.head = none ∧
      s.tbl = none ∧ ∀ p, s.heap p = none :=
  lifetimes_known (fun _ _ => firstFree_fresh) [["rank", "load"], ["test", "uptime"]]

/-! ## The custom metrics -/

/-- `junk` is what the two variables have before `fscanf` assigns them. -/
def scanUptime (junk : Int × Int) (text : List Char) : Int × Int :=
  match Scanf.number (text.dropWhile Scanf.isSpace) with
  | (some sec, '.' :: rest) => (sec, (Scanf.number (rest.dropWhile Scanf.isSpace)).1.getD junk.2)
  | (some sec, _) => (sec, junk.2)
  | (none, _) => junk

def getUptime (tickspersec : Int) (junk : Int × Int) (text : List Char) : Int :=
  (scanUptime junk text).1 * tickspersec + (scanUptime junk text).2

/-- `func()` on the rank `rank`, for the contents of `/proc/uptime`. -/
def Callback.call (rank : Nat) (tickspersec : Int) (junk : Int × Int) (text : List Char) : Callback → Int
  | .returnRank => rank
  | .getUptime => Clarisse.getUptime tickspersec junk text
  | .benchmarkMetric => 1

def decimals (hundredths : Nat) : List Char :=
  (if hundredths < 10 then ['0'] else []) ++ Nat.toDigits 10 hundredths

def procUptime (sec hundredths : Nat) (rest : List Char) : List Char :=
  Nat.toDigits 10 sec ++ '.' :: (decimals hundredths ++ rest)

theorem number_digits {ds rest : List Char} (hne : ds ≠ []) (hd : ∀ c ∈ ds, c.isDigit = true)
    (hr : ∀ c ∈ rest.head?, c.isDigit = false) :
    Scanf.number (ds ++ rest) = (some (Nat.ofDigitChars 10 ds 0 : Int), rest) := by
  obtain ⟨h1, h2⟩ := Scanf.dropDigits_stops hr
  have hs : Scanf.sign (ds ++ rest) = (false, ds ++ rest) := by
    cases ds with
    | nil => exact absurd rfl hne
    | cons c ds => exact Scanf.sign_digit (hd c (List.mem_cons_self ..)) _
  unfold Scanf.number
  rw [hs]
  simp only [List.takeWhile_append_of_pos hd, List.dropWhile_append_of_pos hd, h1, h2, List.append_nil]
  simp [hne]

theorem number_decimals (hundredths : Nat) {rest : List Char} (hr : ∀ c ∈ rest.head?, c.isDigit = false) :
    Scanf.number ((decimals hundredths ++ rest).dropWhile Scanf.isSpace) = (some (hundredths : Int), rest) := by
  have hd : ∀ c ∈ decimals hundredths, c.isDigit = true := by
    intro c hc
    rcases List.mem_append.mp hc with hc | hc
    · split at hc
      · rw [List.mem_singleton.mp hc]
        rfl
      · cases hc
    · exact Scanf.isDigit_of_mem_toDigits hc
  have hne : decimals hundredths ≠ [] := by simp [decimals]
  have hvalue : Nat.ofDigitChars 10 (decimals hundredths) 0 = hundredths := by
    unfold decimals
    split
    · simp [Nat.ofDigitChars_cons]
    · simp
  rw [Scanf.dropSpace_head, number_digits hne hd hr, hvalue]
  intro c hc
  rw [List.head?_append_of_ne_nil _ hne] at hc
  exact Scanf.isSpace_of_isDigit (hd c (List.mem_of_mem_head? hc))

theorem getUptime_procUptime (sec hundredths : Nat) (junk : Int × Int) {rest : List Char}
    (hr : ∀ c ∈ rest.head?, c.isDigit = false) :
    getUptime 100 junk (procUptime sec hundredths rest) = 100 * sec + hundredths := by
  have hd : ∀ c ∈ Nat.toDigits 10 sec, c.isDigit = true := fun c hc => Scanf.isDigit_of_mem_toDigits hc
  have hne : Nat.toDigits 10 sec ≠ [] := Nat.toDigits_ne_nil
  have hsec : Scanf.number ((procUptime sec hundredths rest).dropWhile Scanf.isSpace) =
      (some (sec : Int), '.' :: (decimals hundredths ++ rest)) := by
    have hhead : ∀ c ∈ (procUptime sec hundredths rest).head?, Scanf.isSpace c = false := by
      intro c hc
      rw [procUptime, List.head?_append_of_ne_nil _ hne] at hc
      exact Scanf.isSpace_of_isDigit (hd c (List.mem_of_mem_head? hc))
    rw [Scanf.dropSpace_head hhead, procUptime, number_digits hne hd fun c hc => by cases hc; rfl,
      Nat.ofDigitChars_ten_toDigits]
  have hscan : scanUptime junk (procUptime sec hundredths rest) = ((sec : Int), (hundredths : Int)) := by
    simp only [scanUptime, hsec, number_decimals hundredths hr, Option.getD_some]
  rw [getUptime, hscan]
  omega

end Clarisse
