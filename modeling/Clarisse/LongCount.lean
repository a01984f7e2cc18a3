import Clarisse.Crawler
import Clarisse.MachineInt

/-!
# A count that is a long

`%ld` stores the nearest `long`, `calloc` gives no array of a negative or too large
size, and `compute_metric` takes the count as an `int`. Here the file is any text at each
of its two opens. Where the count is in the range of an `int`, the sampling is `sampleFile`.
-/

namespace Clarisse.LongCount

/-! ## The characters of the file -/

def longMin : Int := -2 ^ 63

def longMax : Int := 2 ^ 63 - 1

def clamp : NumberScan → NumberScan
  | .value n => .value (max longMin (min n longMax))
  | scan => scan

def scanFile (text : List Char) : MetricsFile :=
  { Clarisse.scanFile text with number := clamp (Clarisse.scanFile text).number }

/-! ## The crawler -/

/-- Eight bytes an entry, and no more than `PTRDIFF_MAX` of them. -/
def callocNames (nr : Int) : Option (List Alias) :=
  if 0 ≤ nr ∧ 8 * nr ≤ longMax then some (List.replicate nr.toNat none) else none

def resize (agg : Aggregator) (nr : Int) : Aggregator := ⟨callocNames nr, nr, agg.totalMetrics⟩

def initializeMetricsCrawlerNumberFromFile (agg : Aggregator) (nr : Int) (file : Option MetricsFile) :
    Except Halt (Aggregator × Int) :=
  match file with
  | none => .error .exit
  | some f =>
    match f.number with
    | .mismatch => .error .exit
    | .eof => .ok (resize agg nr, nr)
    | .value n => .ok (resize agg n, n)

/-- The argument `size` is an `int`. -/
def computeMetric (p : Probe) (names : List Alias) (values : List Aggregators) (size : Int) :
    Except Halt (List Aggregators) :=
  Clarisse.computeMetric p names values (MachineInt.wrap size)

/-- The loop writes its first name through `desired_metrics`, which may be null. -/
def metricsCrawlerResultsFile (p : Probe) (agg : Aggregator) (result : List Aggregators)
    (file : Option MetricsFile) : Except Halt (Aggregator × List Aggregators × Bool) :=
  match file with
  | none => .error .exit
  | some f =>
    match f.number with
    | .eof => .error .exit
    | scan =>
      let number := match scan with | .value n => n | _ => 0
      if agg.desiredMetrics = none ∧ f.names ≠ [] ∧ 0 < agg.totalMetrics then .error .nullName
      else
        let (desired, needsSync) := readNames number agg f.names 0 (agg.desiredMetrics.getD []) false
        let agg' := { agg with desiredMetrics := agg.desiredMetrics.map fun _ => desired }
        match computeMetric p desired result agg.totalMetrics with
        | .error e => .error e
        | .ok values => .ok (agg', values, needsSync)

def sampleFile (S : Sampling) (agg : Aggregator) (nr : Int) :
    Except Halt (Aggregator × Int × List Aggregators × Bool) :=
  match initializeMetricsCrawlerNumberFromFile agg nr S.file with
  | .error e => .error e
  | .ok (agg₁, nr₁) =>
    match metricsCrawlerResultsFile S.probe agg₁ (S.malloc nr₁) S.file' with
    | .error e => .error e
    | .ok (agg₂, values, needsSync) => .ok (agg₂, nr₁, values, needsSync)

/-! ## A file that changes between the two reads -/

/-- The process exits with a message, or the count is the number that the first read
found and every entry below it is a name. -/
def SafelySampled (file : MetricsFile) : Except Halt (Aggregator × Int × List Aggregators × Bool) → Prop
  | .error h => h = .exit
  | .ok (agg, nr, _, _) => file.number = .value nr ∧
      ∀ i : Nat, (i : Int) < agg.totalMetrics → (agg.desiredMetrics.getD []).getD i none ≠ none

/-- `compute_metric` reads no name for a negative count that is not positive as an `int`. -/
def Fits (n : Int) (names : List String) : Prop :=
  if n < 0 then MachineInt.wrap n ≤ 0 else n ≤ names.length ∧ 8 * n ≤ longMax

/-- The first read finds no number at the start of a file that has some text, or the
second finds no text, or the first a count that fits the names of the second. -/
def Agree (file file' : MetricsFile) : Prop :=
  file.number = .mismatch ∨ file'.number = .eof ∨ ∃ n : Int, file.number = .value n ∧ Fits n file'.names

section
variable {p : Probe} {agg agg' : Aggregator} {result values : List Aggregators} {f f' : MetricsFile} {n : Int}
  {b : Bool}

theorem callocNames_eq_some (h0 : 0 ≤ n) (hn : 8 * n ≤ longMax) :
    callocNames n = some (List.replicate n.toNat none) := if_pos ⟨h0, hn⟩

theorem callocNames_eq_none (h : ¬ (0 ≤ n ∧ 8 * n ≤ longMax)) : callocNames n = none := if_neg h

theorem wrap_le (h : 0 ≤ n) : (MachineInt.wrap n).toNat ≤ n.toNat := by
  unfold MachineInt.wrap
  rw [Int.bmod_def]
  omega

theorem resultsFile_eof (h : f.number = .eof) :
    metricsCrawlerResultsFile p agg result (some f) = .error .exit := by
  unfold metricsCrawlerResultsFile
  simp only [h]

theorem resultsFile_eq (p : Probe) (agg : Aggregator) (result : List Aggregators) (h : f.number ≠ .eof) :
    ∃ number, metricsCrawlerResultsFile p agg result (some f) =
      let read := readNames number agg f.names 0 (agg.desiredMetrics.getD []) false
      if agg.desiredMetrics = none ∧ f.names ≠ [] ∧ 0 < agg.totalMetrics then .error .nullName
      else
        match computeMetric p read.1 result agg.totalMetrics with
        | .error e => .error e
        | .ok values =>
          .ok ({ agg with desiredMetrics := agg.desiredMetrics.map fun _ => read.1 }, values, read.2) := by
  obtain ⟨number, names⟩ := f
  cases number with
  | eof => exact absurd rfl h
  | mismatch => exact ⟨0, rfl⟩
  | value n => exact ⟨n, rfl⟩

theorem resultsFile_null {h : Halt} (hf : f.number ≠ .eof)
    (he : metricsCrawlerResultsFile p agg result (some f) = .error h) : h = .nullName := by
  obtain ⟨number, hr⟩ := resultsFile_eq p agg result hf
  rw [hr] at he
  simp only at he
  split at he
  · cases he
    rfl
  · split at he
    · rename_i hm
      cases he
      exact computeMetricFrom_halt hm
    · cases he

theorem resultsFile_ok (hf : f.number ≠ .eof)
    (h : metricsCrawlerResultsFile p agg result (some f) = .ok (agg', values, b)) :
    ∃ number,
      agg' = { agg with
        desiredMetrics := agg.desiredMetrics.map fun _ =>
          (readNames number agg f.names 0 (agg.desiredMetrics.getD []) false).1 } := by
  obtain ⟨number, hr⟩ := resultsFile_eq p agg result hf
  rw [hr] at h
  simp only at h
  split at h
  · cases h
  · split at h
    · cases h
    · cases h
      exact ⟨number, rfl⟩

theorem readNames_calloc (number : Int) (agg : Aggregator) (names : List String) {i : Nat} (hi : (i : Int) < n) :
    (readNames number (resize agg n) names 0 (List.replicate n.toNat none) false).1.getD i none ≠ none ↔
      i < names.length := by
  rw [readNames_getD number _ i names 0 _ _ (by simp [resize]; omega), List.length_replicate, Nat.zero_add,
    Nat.sub_zero]
  by_cases hn : i < names.length
  · rw [if_pos ⟨Nat.zero_le i, hn, by omega⟩]
    simp [hn]
  · rw [if_neg (by omega)]
    simp [List.getD_eq_getElem?_getD, hi]
    omega

theorem resultsFile_negative (hf : f.number ≠ .eof) (hn : n < 0) :
    if MachineInt.wrap n ≤ 0 then
      ∃ values b, metricsCrawlerResultsFile p (resize agg n) result (some f) = .ok (resize agg n, values, b)
    else metricsCrawlerResultsFile p (resize agg n) result (some f) = .error .nullName := by
  obtain ⟨number, hr⟩ := resultsFile_eq p (resize agg n) result hf
  have hnone : (resize agg n).desiredMetrics = none := callocNames_eq_none (by omega)
  have htotal : ¬ 0 < (resize agg n).totalMetrics := by show ¬ 0 < n; omega
  have hread : readNames number (resize agg n) f.names 0 [] false = ([], false) := by
    cases f.names with
    | nil => rfl
    | cons line rest => rw [readNames, if_neg (by show ¬ (0 : Int) < n; omega)]
  rw [hr]
  simp only [hnone, htotal, Option.getD_none, hread, and_false, if_false, computeMetric, Clarisse.computeMetric]
  have htotal : (resize agg n).totalMetrics = n := rfl
  rw [htotal]
  split
  · rename_i hle
    have hagg : resize agg n = ⟨none, n, agg.totalMetrics⟩ := by rw [← hnone]; rfl
    rw [Int.toNat_eq_zero.mpr hle]
    exact ⟨result, false, by rw [hagg]; rfl⟩
  · rename_i hlt
    obtain ⟨k, hk⟩ : ∃ k, (MachineInt.wrap n).toNat = k + 1 := ⟨(MachineInt.wrap n).toNat - 1, by omega⟩
    rw [hk]
    rfl

theorem resultsFile_safe (hf : f.number ≠ .eof) (hfits : Fits n f.names) :
    ∃ agg' values b, metricsCrawlerResultsFile p (resize agg n) result (some f) = .ok (agg', values, b) ∧
      ∀ i : Nat, (i : Int) < agg'.totalMetrics → (agg'.desiredMetrics.getD []).getD i none ≠ none := by
  by_cases hneg : n < 0
  · have hw : MachineInt.wrap n ≤ 0 := by simpa [Fits, hneg] using hfits
    have hnegative := @resultsFile_negative p agg result f n hf hneg
    rw [if_pos hw] at hnegative
    obtain ⟨values, b, hr⟩ := hnegative
    exact ⟨_, values, b, hr, fun i hi => absurd (show (i : Int) < n from hi) (by omega)⟩
  · obtain ⟨hle, hmax⟩ : n ≤ f.names.length ∧ 8 * n ≤ longMax := by simpa [Fits, hneg] using hfits
    obtain ⟨number, hr⟩ := resultsFile_eq p (resize agg n) result hf
    have hsome : (resize agg n).desiredMetrics = some (List.replicate n.toNat none) :=
      callocNames_eq_some (by omega) hmax
    have hget := fun i hi => readNames_calloc number agg f.names (n := n) (i := i) hi
    have hwrap := wrap_le (n := n) (by omega)
    simp only [hsome, reduceCtorEq, false_and, if_false, Option.getD_some, Option.map_some] at hr
    generalize readNames number (resize agg n) f.names 0 (List.replicate n.toNat none) false = read at hr hget
    obtain ⟨values, hv, -⟩ := computeMetricFrom_total p read.1 (MachineInt.wrap n).toNat 0 result fun j _ hj =>
      (hget j (by omega)).mpr (by omega)
    have hv : computeMetric p read.1 result (resize agg n).totalMetrics = .ok values := hv
    rw [hv] at hr
    refine ⟨_, values, read.2, hr, fun i hi => ?_⟩
    have hi : (i : Int) < n := hi
    exact (hget i hi).mpr (by omega)

theorem resultsFile_unsafe (hf : f.number ≠ .eof) (hfits : ¬ Fits n f.names)
    (h : metricsCrawlerResultsFile p (resize agg n) result (some f) = .ok (agg', values, b)) :
    ¬ ∀ i : Nat, (i : Int) < agg'.totalMetrics → (agg'.desiredMetrics.getD []).getD i none ≠ none := by
  by_cases hneg : n < 0
  · have hw : ¬ MachineInt.wrap n ≤ 0 := by simpa [Fits, hneg] using hfits
    have hnegative := @resultsFile_negative p agg result f n hf hneg
    rw [if_neg hw, h] at hnegative
    cases hnegative
  · intro hall
    have hfits : n ≤ f.names.length → longMax < 8 * n := by simpa [Fits, hneg] using hfits
    obtain ⟨number, hagg⟩ := resultsFile_ok hf h
    by_cases hmax : 8 * n ≤ longMax
    · have hsome : (resize agg n).desiredMetrics = some (List.replicate n.toNat none) :=
        callocNames_eq_some (by omega) hmax
      have hlt : (f.names.length : Int) < n := by omega
      have hentry := hall f.names.length (by rw [hagg]; exact hlt)
      rw [hagg] at hentry
      simp only [hsome, Option.getD_some, Option.map_some] at hentry
      exact absurd ((readNames_calloc number agg f.names hlt).mp hentry) (Nat.lt_irrefl _)
    · -- there is no array at all
      have hnone : (resize agg n).desiredMetrics = none := callocNames_eq_none (by omega)
      have h0 : 0 < n := by unfold longMax at hmax; omega
      have hentry := hall 0 (by rw [hagg]; exact h0)
      rw [hagg] at hentry
      simp [hnone] at hentry

end

section
variable {S : Sampling} {f f' : MetricsFile} {n : Int}

theorem sampleFile_resize {agg : Aggregator} {nr : Int}
    (hi : initializeMetricsCrawlerNumberFromFile agg nr S.file = .ok (resize agg n, n)) :
    sampleFile S agg nr =
      match metricsCrawlerResultsFile S.probe (resize agg n) (S.malloc n) S.file' with
      | .error e => .error e
      | .ok (agg, values, needsSync) => .ok (agg, n, values, needsSync) := by
  unfold sampleFile
  rw [hi]

theorem safelySampled_iff (hf : S.file = some f) (hf' : S.file' = some f') (agg : Aggregator) (nr : Int) :
    SafelySampled f (sampleFile S agg nr) ↔ Agree f f' := by
  obtain ⟨number, names⟩ := f
  cases number with
  | mismatch =>
    have hi : initializeMetricsCrawlerNumberFromFile agg nr S.file = .error .exit := by
      rw [hf]
      rfl
    have hs : sampleFile S agg nr = .error .exit := by
      unfold sampleFile
      rw [hi]
    rw [hs]
    exact iff_of_true rfl (Or.inl rfl)
  | eof =>
    have hi : initializeMetricsCrawlerNumberFromFile agg nr S.file = .ok (resize agg nr, nr) := by
      rw [hf]
      rfl
    rw [sampleFile_resize hi, hf']
    by_cases he : f'.number = .eof
    · rw [resultsFile_eof he]
      exact iff_of_true rfl (Or.inr (Or.inl he))
    · -- the count is still the one before, whatever the second read does
      refine iff_of_false ?_ (by simp [Agree, he])
      cases hr : metricsCrawlerResultsFile S.probe (resize agg nr) (S.malloc nr) (some f') with
      | error h =>
        rw [resultsFile_null he hr]
        intro h
        cases h
      | ok x =>
        rintro ⟨hv, -⟩
        cases hv
  | value n =>
    have hi : initializeMetricsCrawlerNumberFromFile agg nr S.file = .ok (resize agg n, n) := by
      rw [hf]
      rfl
    rw [sampleFile_resize hi, hf']
    by_cases he : f'.number = .eof
    · rw [resultsFile_eof he]
      exact iff_of_true rfl (Or.inr (Or.inl he))
    · have hiff : Agree ⟨.value n, names⟩ f' ↔ Fits n f'.names := by simp [Agree, he]
      rw [hiff]
      by_cases hfits : Fits n f'.names
      · obtain ⟨agg', values, b, hr, hall⟩ := @resultsFile_safe S.probe agg (S.malloc n) f' n he hfits
        rw [hr]
        exact iff_of_true ⟨rfl, hall⟩ hfits
      · refine iff_of_false ?_ hfits
        cases hr : metricsCrawlerResultsFile S.probe (resize agg n) (S.malloc n) (some f') with
        | error h =>
          rw [resultsFile_null he hr]
          intro h
          cases h
        | ok x => exact fun h => resultsFile_unsafe he hfits hr h.2

/-! ## Well-formed files -/

theorem clamp_natCast {k : Nat} (h : (k : Int) ≤ longMax) : clamp (.value k) = .value k := by
  have hmin : longMin ≤ (k : Int) := by unfold longMin; omega
  rw [clamp, Int.min_eq_left h, Int.max_eq_right hmin]

theorem scanFile_writes {text : List Char} {names : List String} (h : Writes text names)
    (hlen : (names.length : Int) ≤ longMax) : scanFile text = listing names := by
  rw [scanFile, Clarisse.scanFile_writes h, listing, clamp_natCast hlen]

theorem resultsFile_array {p : Probe} {agg : Aggregator} {result : List Aggregators} {file : Option MetricsFile}
    (hsome : agg.desiredMetrics ≠ none) (hwrap : MachineInt.wrap agg.totalMetrics = agg.totalMetrics) :
    metricsCrawlerResultsFile p agg result file = Clarisse.metricsCrawlerResultsFile p agg result file := by
  cases file with
  | none => rfl
  | some f =>
    obtain ⟨number, names⟩ := f
    unfold metricsCrawlerResultsFile Clarisse.metricsCrawlerResultsFile
    simp only [computeMetric, hwrap]
    cases number with
    | eof => rfl
    | mismatch => exact if_neg fun h => hsome h.1
    | value _ => exact if_neg fun h => hsome h.1

/-- For as many names as an `int` counts, a sampling of a well-formed file is `sampleFile`. -/
theorem sampleFile_lists {names : List String} (hS : S.Lists names)
    (hlen : (names.length : Int) ≤ MachineInt.intMax) (agg : Aggregator) (nr : Int) :
    sampleFile S agg nr = Clarisse.sampleFile S agg nr := by
  obtain ⟨old, hfile, hold⟩ := hS.file
  have hcalloc : callocNames (names.length : Int) = some (List.replicate names.length none) :=
    callocNames_eq_some (by omega) (by unfold MachineInt.intMax at hlen; unfold longMax; omega)
  have hresize : resize agg names.length = agg.resize names.length := by
    rw [resize, hcalloc, Aggregator.resize, Clarisse.callocNames, if_neg (by omega), Int.toNat_natCast]
  have hi : initializeMetricsCrawlerNumberFromFile agg nr S.file =
      .ok (agg.resize names.length, (names.length : Int)) := by
    rw [hfile, ← hresize, ← hold]
    rfl
  have hi' : Clarisse.initializeMetricsCrawlerNumberFromFile agg nr S.file =
      .ok (agg.resize names.length, (names.length : Int)) := by
    rw [hfile, ← hold]
    rfl
  have hsome : (agg.resize names.length).desiredMetrics ≠ none := by
    rw [← hresize, resize, hcalloc]
    exact Option.some_ne_none _
  have hwrap : MachineInt.wrap (agg.resize names.length).totalMetrics = (agg.resize names.length).totalMetrics :=
    MachineInt.wrap_eq ⟨Int.le_trans (by decide) (Int.natCast_nonneg _), hlen⟩
  have hresults := fun result => @resultsFile_array S.probe _ result S.file' hsome hwrap
  cases hr : Clarisse.metricsCrawlerResultsFile S.probe (agg.resize names.length) (S.malloc names.length) S.file' <;>
    simp [sampleFile, Clarisse.sampleFile, hi, hi', hresults, hr]

end

/-- With any two contents, a sampling is safe iff what the two reads find agrees. -/
theorem sampling_safe_iff (text text' : List Char) (heap : Nat → Aggregators) (probe : Probe) (agg : Aggregator)
    (nr : Int) :
    SafelySampled (scanFile text) (sampleFile ⟨some (scanFile text), some (scanFile text'), heap, probe⟩ agg nr) ↔
      Agree (scanFile text) (scanFile text') :=
  safelySampled_iff rfl rfl agg nr

theorem name_removed_unsafe :
    ¬ ∀ (text text' : List Char) (heap : Nat → Aggregators) (probe : Probe) (agg : Aggregator) (nr : Int),
      SafelySampled (scanFile text)
        (sampleFile ⟨some (scanFile text), some (scanFile text'), heap, probe⟩ agg nr) := by
  intro h
  have hs := h (textOf ["load", "free"]) (textOf ["load"]) (fun _ => default) (readOf []).probe
    initializeMetricsAggregator 0
  have hnull : sampleFile ⟨some (scanFile (textOf ["load", "free"])), some (scanFile (textOf ["load"])),
      fun _ => default, (readOf []).probe⟩ initializeMetricsAggregator 0 = .error .nullName := by decide
  rw [hnull] at hs
  cases hs

end Clarisse.LongCount
