import Clarisse.Sampling
import Clarisse.Scanf
import Clarisse.Transition

/-!
# Two reads of the metrics file

A sampling opens the file twice: `initialize_metrics_crawler_number_from_file`
takes the count and allocates for it, `metrics_crawler_results_file` takes the
names and compares. Both scan the characters that they find at that moment.
-/

namespace Clarisse

/-! ## The characters of the file -/

/-- `%ld`, after white space, of a number that a `long` holds; `LongCount` has the others. -/
def scanNumber (text : List Char) : NumberScan × List Char :=
  match text.dropWhile Scanf.isSpace with
  | [] => (.eof, [])
  | c :: rest =>
    match Scanf.number (c :: rest) with
    | (none, after) => (.mismatch, after)
    | (some n, after) => (.value n, after)

def scanFile (text : List Char) : MetricsFile where
  number := (scanNumber text).1
  names := (Scanf.words (scanNumber text).2).map String.ofList

/-- A count and as many names, each after some white space. -/
structure Writes (text : List Char) (names : List String) : Prop where
  layout : ∃ (lead : List Char) (items : List (List Char × String)) (trail : List Char),
    Scanf.Blank lead ∧ Scanf.Blank trail ∧
    (∀ x ∈ items, Scanf.Blank x.1 ∧ x.1 ≠ [] ∧ Scanf.Word x.2.toList) ∧ items.map Prod.snd = names ∧
    text = lead ++ Nat.toDigits 10 names.length ++ items.flatMap (fun x => x.1 ++ x.2.toList) ++ trail

theorem stops_of_blank {s t : List Char} (hs : Scanf.Blank s) (ht : s = [] → Scanf.Stops t) :
    Scanf.Stops (s ++ t) := by
  cases s with
  | nil => exact ht rfl
  | cons c s => exact hs c (by simp)

theorem words_items {trail : List Char} (ht : Scanf.Blank trail) : ∀ (items : List (List Char × String)),
    (∀ x ∈ items, Scanf.Blank x.1 ∧ x.1 ≠ [] ∧ Scanf.Word x.2.toList) →
      Scanf.Stops (items.flatMap (fun x => x.1 ++ x.2.toList) ++ trail) ∧
        Scanf.words (items.flatMap (fun x => x.1 ++ x.2.toList) ++ trail) = items.map fun x => x.2.toList
  | [], _ => by
    have hs := stops_of_blank (t := []) ht fun _ => trivial
    have hw := Scanf.words_blank_append ht []
    rw [List.append_nil] at hs hw
    exact ⟨hs, hw⟩
  | x :: items, h => by
    obtain ⟨hs, hne, hw⟩ := h x (by simp)
    obtain ⟨h1, h2⟩ := words_items ht items fun y hy => h y (List.mem_cons_of_mem _ hy)
    rw [List.flatMap_cons, List.append_assoc, List.append_assoc]
    refine ⟨stops_of_blank hs fun h0 => absurd h0 hne, ?_⟩
    rw [Scanf.words_blank_append hs, Scanf.words_word_append hw h1, h2, List.map_cons]

theorem scanFile_writes {text : List Char} {names : List String} (h : Writes text names) :
    scanFile text = listing names := by
  obtain ⟨lead, items, trail, hl, ht, hi, hnames, rfl⟩ := h.layout
  obtain ⟨hstops, hwords⟩ := words_items ht items hi
  have hnum := Scanf.number_toDigits names.length hstops
  have hscan : scanNumber (lead ++ Nat.toDigits 10 names.length ++
      items.flatMap (fun x => x.1 ++ x.2.toList) ++ trail) =
      (.value names.length, items.flatMap (fun x => x.1 ++ x.2.toList) ++ trail) := by
    unfold scanNumber
    rw [List.append_assoc, List.append_assoc, List.dropWhile_append_of_pos hl]
    cases hd : Nat.toDigits 10 names.length with
    | nil => exact absurd hd Nat.toDigits_ne_nil
    | cons c l =>
      have hc : c.isDigit = true :=
        Nat.isDigit_of_mem_toDigits (b := 10) (n := names.length) (by decide) (by decide) (by simp [hd])
      rw [hd] at hnum
      simp only [List.cons_append, List.dropWhile_cons, Scanf.isSpace_of_isDigit hc, Bool.false_eq_true, if_false]
      rw [← List.cons_append, hnum]
  rw [scanFile, hscan, hwords, listing, ← hnames]
  simp

/-! ## Whether the list has changed -/

structure Sampling.Reads (S : Sampling) (text : List Char) : Prop where
  file : S.file = some (scanFile text)
  file' : S.file' = some (scanFile text)

def sampleAll (nr : Int) (Ss : List Sampling) : Except Halt (Aggregator × Int × List Aggregators × Bool) :=
  Ss.foldlM (fun r S => sampleFile S r.1 r.2.1) (initializeMetricsAggregator, nr, [], false)

def lastNames (reads : List (Sampling × List String)) : List String := (reads.getLast?.map Prod.snd).getD []

section
variable {S : Sampling} {text : List Char} {names : List String} {nr : Int}

theorem Sampling.Reads.lists (h : S.Reads text) (hw : Writes text names) : S.Lists names where
  file := ⟨names, by rw [h.file, scanFile_writes hw], rfl⟩
  file' := by rw [h.file', scanFile_writes hw]

theorem sampleAll_snoc (Ss : List Sampling) (S : Sampling) :
    sampleAll nr (Ss ++ [S]) = (sampleAll nr Ss).bind fun r => sampleFile S r.1 r.2.1 :=
  Transition.foldlM_snoc _ _ Ss S

theorem sampleAll_lists (nr : Int) {reads : List (Sampling × List String)} (h : ∀ x ∈ reads, x.1.Lists x.2)
    (hS : S.Lists names) :
    ∃ values, sampleAll nr (reads.map Prod.fst ++ [S]) =
      .ok (⟨some (names.map some), names.length, (lastNames reads).length⟩, names.length, values,
        decide (names.length ≠ (lastNames reads).length) && !names.isEmpty) := by
  induction reads using List.reverseRecOn generalizing S names with
  | nil =>
    obtain ⟨values, -, hs⟩ := sampleFile_total hS initializeMetricsAggregator nr
    refine ⟨values, ?_⟩
    rw [sampleAll_snoc]
    show sampleFile S initializeMetricsAggregator nr = _
    rw [hs]
    simp [initializeMetricsAggregator, lastNames]
  | append_singleton reads x ih =>
    obtain ⟨values', hbefore⟩ := ih (fun y hy => h y (List.mem_append_left _ hy)) (h x (by simp))
    have hlast : lastNames (reads ++ [x]) = x.2 := by simp [lastNames]
    obtain ⟨values, -, hs⟩ :=
      sampleFile_total hS ⟨some (x.2.map some), x.2.length, (lastNames reads).length⟩ x.2.length
    refine ⟨values, ?_⟩
    rw [List.map_append, List.map_singleton, sampleAll_snoc, hbefore]
    show sampleFile S _ _ = _
    rw [hs, hlast]
    simp only [ne_eq, Int.natCast_inj]

/-- The names are those of the last content; that they have changed is told exactly
iff they have not, or are now as many as before no longer and at least one. -/
theorem change_detected_iff {reads : List (Sampling × List String)}
    (h : ∀ x ∈ reads, ∃ text, Writes text x.2 ∧ x.1.Reads text) (hw : Writes text names) (hS : S.Reads text) :
    ∃ agg values changed, sampleAll nr (reads.map Prod.fst ++ [S]) = .ok (agg, names.length, values, changed) ∧
      agg.desiredMetrics = some (names.map some) ∧
      ((changed = true ↔ names ≠ lastNames reads) ↔
        names = lastNames reads ∨ names.length ≠ (lastNames reads).length ∧ names ≠ []) := by
  have hl : ∀ x ∈ reads, x.1.Lists x.2 := by
    intro x hx
    obtain ⟨t, ht, hr⟩ := h x hx
    exact hr.lists ht
  obtain ⟨values, hs⟩ := sampleAll_lists nr hl (hS.lists hw)
  refine ⟨_, values, _, hs, rfl, ?_⟩
  by_cases he : names = lastNames reads
  · simp [he]
  · simp [he]

end

def textOf (names : List String) : List Char :=
  Nat.toDigits 10 names.length ++ names.flatMap fun name => ' ' :: name.toList

def readOf (names : List String) : Sampling where
  file := some (scanFile (textOf names))
  file' := some (scanFile (textOf names))
  heap _ := default
  probe := ⟨fun _ _ => some 0, fun _ _ => none, fun _ _ => false, fun _ _ => none⟩

theorem textOf_writes {names : List String} (h : ∀ name ∈ names, Scanf.Word name.toList) :
    Writes (textOf names) names where
  layout := by
    refine ⟨[], names.map fun name => ([' '], name), [], nofun, nofun, ?_, ?_, ?_⟩
    · intro x hx
      obtain ⟨name, hm, rfl⟩ := List.mem_map.mp hx
      exact ⟨show Scanf.Blank [' '] by decide, List.cons_ne_nil _ _, h name hm⟩
    · rw [List.map_map]
      exact List.map_id names
    · simp [textOf, List.flatMap_map]

theorem change_detected_added :
    ∃ agg values changed,
      sampleAll 0 ([(readOf ["load"], ["load"])].map Prod.fst ++ [readOf ["load", "free"]]) =
        .ok (agg, (["load", "free"].length : Nat), values, changed) ∧
      agg.desiredMetrics = some (["load", "free"].map some) ∧
      ((changed = true ↔ ["load", "free"] ≠ lastNames [(readOf ["load"], ["load"])]) ↔
        ["load", "free"] = lastNames [(readOf ["load"], ["load"])] ∨
          ["load", "free"].length ≠ (lastNames [(readOf ["load"], ["load"])]).length ∧ ["load", "free"] ≠ []) := by
  refine change_detected_iff ?_ (textOf_writes (by decide)) ⟨rfl, rfl⟩
  intro x hx
  rw [List.mem_singleton.mp hx]
  exact ⟨textOf ["load"], textOf_writes (by decide), rfl, rfl⟩

theorem change_missed :
    ¬ ∀ (nr : Int) (reads : List (Sampling × List String)) (S : Sampling) (text : List Char) (names : List String),
      (∀ x ∈ reads, ∃ text, Writes text x.2 ∧ x.1.Reads text) → Writes text names → S.Reads text →
        ∃ agg nr' values changed, sampleAll nr (reads.map Prod.fst ++ [S]) = .ok (agg, nr', values, changed) ∧
          agg.desiredMetrics = some (names.map some) ∧ (changed = true ↔ names ≠ lastNames reads) := by
  intro h
  have hload : Writes (textOf ["load"]) ["load"] := textOf_writes (by decide)
  obtain ⟨agg, nr', values, changed, hs, -, hc⟩ := h 0 [(readOf ["load"], ["load"])] (readOf ["free"])
    (textOf ["free"]) ["free"]
    (fun x hx => by rw [List.mem_singleton.mp hx]; exact ⟨_, hload, rfl, rfl⟩)
    (textOf_writes (by decide)) ⟨rfl, rfl⟩
  have hrun : sampleAll 0 ([(readOf ["load"], ["load"])].map Prod.fst ++ [readOf ["free"]]) =
      .ok (⟨some [some "free"], 1, 1⟩, 1, [single 0], false) := by decide
  rw [hrun] at hs
  cases hs
  exact absurd (hc.mpr (by decide)) (by decide)

/-! ## The two reads -/

theorem readNames_getD (number : Int) (agg : Aggregator) (i : Nat) :
    ∀ (names : List String) (m : Nat) (desired : List Alias) (b : Bool),
      agg.totalMetrics = (desired.length : Nat) →
      (readNames number agg names m desired b).1.getD i none =
        if m ≤ i ∧ i < m + names.length ∧ i < desired.length then names[i - m]? else desired.getD i none
  | [], m, desired, b, _ => by
    rw [readNames, if_neg (by simp only [List.length_nil]; omega)]
  | line :: rest, m, desired, b, ht => by
    rw [readNames, ht]
    by_cases hm : m < desired.length
    · rw [if_pos (by omega)]
      have hset : (desired.set m (some line)).length = desired.length := List.length_set
      rw [readNames_getD number agg i rest (m + 1) _ _ (by rw [hset]; exact ht), hset]
      rcases Nat.lt_trichotomy i m with hi | hi | hi
      · rw [if_neg (by omega), if_neg (by omega)]
        simp [List.getD_eq_getElem?_getD, Nat.ne_of_gt hi]
      · subst hi
        rw [if_neg (by omega), if_pos (by simp only [List.length_cons]; omega)]
        simp [List.getD_eq_getElem?_getD, hm]
      · obtain ⟨k, rfl⟩ : ∃ k, i = m + 1 + k := ⟨i - (m + 1), by omega⟩
        have h1 : m + 1 + k - (m + 1) = k := by omega
        have h2 : m + 1 + k - m = k + 1 := by omega
        rw [h1, h2, List.getElem?_cons_succ, List.length_cons]
        by_cases hk : k < rest.length ∧ m + 1 + k < desired.length
        · rw [if_pos (by omega), if_pos (by omega)]
        · rw [if_neg (by omega), if_neg (by omega)]
          simp [List.getD_eq_getElem?_getD, show m ≠ m + 1 + k by omega]
    · rw [if_neg (by omega), if_neg (by omega)]

theorem readNames_length (number : Int) (agg : Aggregator) :
    ∀ (names : List String) (m : Nat) (desired : List Alias) (b : Bool),
      (readNames number agg names m desired b).1.length = desired.length
  | [], _, _, _ => rfl
  | line :: rest, m, desired, b => by
    rw [readNames]
    split
    · rw [readNames_length number agg rest]
      exact List.length_set
    · rfl

theorem resultsFile_eq (p : Probe) (agg : Aggregator) (result : List Aggregators) {f : MetricsFile}
    (h : f.number ≠ .eof) :
    ∃ number, metricsCrawlerResultsFile p agg result (some f) =
      let read := readNames number agg f.names 0 (agg.desiredMetrics.getD []) false
      match computeMetric p read.1 result agg.totalMetrics with
      | .error e => .error e
      | .ok values =>
        .ok ({ agg with desiredMetrics := agg.desiredMetrics.map fun _ => read.1 }, values, read.2) := by
  obtain ⟨number, names⟩ := f
  cases number with
  | eof => exact absurd rfl h
  | mismatch => exact ⟨0, rfl⟩
  | value n => exact ⟨n, rfl⟩

section
variable {S : Sampling} {f f' : MetricsFile} {n : Int}

theorem resultsFile_eof (p : Probe) (agg : Aggregator) (result : List Aggregators) (h : f.number = .eof) :
    metricsCrawlerResultsFile p agg result (some f) = .error .exit := by
  unfold metricsCrawlerResultsFile
  simp only [h]

theorem sampleFile_resize {agg : Aggregator} {nr m : Int}
    (hi : initializeMetricsCrawlerNumberFromFile agg nr S.file = .ok (agg.resize m, m)) :
    sampleFile S agg nr =
      match metricsCrawlerResultsFile S.probe (agg.resize m) (S.malloc m) S.file' with
      | .error e => .error e
      | .ok (agg, values, needsSync) => .ok (agg, m, values, needsSync) := by
  unfold sampleFile
  generalize initializeMetricsCrawlerNumberFromFile agg nr S.file = x at hi
  subst hi
  rfl

theorem numberFromFile_ok {agg : Aggregator} {nr : Int} {file : Option MetricsFile} {x : Aggregator × Int}
    (h : initializeMetricsCrawlerNumberFromFile agg nr file = .ok x) :
    x.1 = agg.resize x.2 ∧ ∃ f, file = some f ∧ (f.number = .value x.2 ∨ (f.number = .eof ∧ x.2 = nr)) := by
  unfold initializeMetricsCrawlerNumberFromFile at h
  cases file with
  | none => cases h
  | some f =>
    cases hn : f.number with
    | mismatch => simp only [hn] at h; cases h
    | eof => simp only [hn] at h; cases h; exact ⟨rfl, f, rfl, Or.inr ⟨hn, rfl⟩⟩
    | value n => simp only [hn] at h; cases h; exact ⟨rfl, f, rfl, Or.inl hn⟩

theorem resultsFile_ok {p : Probe} {agg agg' : Aggregator} {result values : List Aggregators}
    {file : Option MetricsFile} {b : Bool}
    (h : metricsCrawlerResultsFile p agg result file = .ok (agg', values, b)) :
    ∃ desired, agg' = { agg with desiredMetrics := agg.desiredMetrics.map fun _ => desired } ∧
      computeMetric p desired result agg.totalMetrics = .ok values ∧
      desired.length = (agg.desiredMetrics.getD []).length := by
  cases file with
  | none => cases h
  | some f =>
    by_cases he : f.number = .eof
    · rw [resultsFile_eof _ _ _ he] at h
      cases h
    · obtain ⟨number, hr⟩ := resultsFile_eq p agg result he
      rw [hr] at h
      simp only at h
      cases hm : computeMetric p (readNames number agg f.names 0 (agg.desiredMetrics.getD []) false).1 result
          agg.totalMetrics with
      | error e => rw [hm] at h; cases h
      | ok values' =>
        rw [hm] at h
        cases h
        exact ⟨_, rfl, hm, readNames_length ..⟩

/-- What a sampling returns: the entries allocated for the count are filled, and the
values are those that `compute_metric` leaves in fresh memory. -/
theorem sampleFile_ok {agg agg' : Aggregator} {nr nr' : Int} {values : List Aggregators} {b : Bool}
    (h : sampleFile S agg nr = .ok (agg', nr', values, b)) :
    ∃ desired,
      agg' = { agg.resize nr' with desiredMetrics := (agg.resize nr').desiredMetrics.map fun _ => desired } ∧
      computeMetric S.probe desired (S.malloc nr') nr' = .ok values ∧
      desired.length = ((agg.resize nr').desiredMetrics.getD []).length := by
  cases hi : initializeMetricsCrawlerNumberFromFile agg nr S.file with
  | error e =>
    unfold sampleFile at h
    rw [hi] at h
    cases h
  | ok x =>
    obtain ⟨hx, -⟩ := numberFromFile_ok hi
    rw [show x = (agg.resize x.2, x.2) from Prod.ext hx rfl] at hi
    rw [sampleFile_resize hi] at h
    cases hr : metricsCrawlerResultsFile S.probe (agg.resize x.2) (S.malloc x.2) S.file' with
    | error e => rw [hr] at h; cases h
    | ok y =>
      rw [hr] at h
      cases h
      exact resultsFile_ok hr

theorem sampleFile_count {agg agg' : Aggregator} {nr nr' : Int} {values : List Aggregators} {b : Bool}
    (h : sampleFile S agg nr = .ok (agg', nr', values, b)) (hf : S.file = some f) (hn : f.number = .value n) :
    nr' = n := by
  have hi : initializeMetricsCrawlerNumberFromFile agg nr S.file = .ok (agg.resize n, n) := by
    simp only [initializeMetricsCrawlerNumberFromFile, hf, hn]
  rw [sampleFile_resize hi] at h
  cases hr : metricsCrawlerResultsFile S.probe (agg.resize n) (S.malloc n) S.file' with
  | error e => rw [hr] at h; cases h
  | ok y => rw [hr] at h; cases h; rfl

theorem sampleMemory_ok {agg : Aggregator} {nr : Int} {values values' : List Aggregators}
    (h : sampleMemory S agg values = .ok (nr, values')) :
    nr = agg.totalMetrics ∧
      computeMetric S.probe (agg.desiredMetrics.getD []) values agg.totalMetrics = .ok values' := by
  unfold sampleMemory metricsCrawlerResultsMemory at h
  cases hm : computeMetric S.probe (agg.desiredMetrics.getD []) values agg.totalMetrics with
  | error _ => rw [hm] at h; cases h
  | ok x =>
    rw [hm] at h
    cases h
    exact ⟨rfl, rfl⟩

end

end Clarisse
