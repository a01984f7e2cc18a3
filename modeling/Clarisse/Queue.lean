import Clarisse.Aggregation

/-!
# The queue of the multi stone

What the script calls: `EVdiscard_metrics_t` with an index, which shifts the
events behind it, and `EVsubmit`. Nothing is lost or taken twice, and the index
kept from run to run never skips an event of the open pulse.
-/

namespace Clarisse

open Interleave

/-! ## The calls of one pass -/

/-- The index given to `EVdiscard_metrics_t`, which the first branch calls even when
its loop has found nothing. -/
def discardIndex (s : MultiState) : Option Int :=
  if s.firstFoundIndex = -1 then some (openPulse s).firstFoundIndex
  else if s.count < s.currentNodeDegree + 1 then
    (findFrom s.pulseTimestamp s.firstFoundIndex.toNat s.queue).map Int.ofNat
  else none

/-- The first branch has found nothing, whatever the script does then. -/
def NoneFound (s : MultiState) : Prop :=
  s.firstFoundIndex = -1 ∧ findFrom s.pulseTimestamp 0 s.queue = none

def taken (s : MultiState) : List Metrics :=
  match discardIndex s with
  | none => []
  | some i => if i < 0 then [] else s.queue[i.toNat]?.toList

def passStarts (b : Bool) : Nat → MultiState → List MultiState
  | 0, _ => []
  | k + 1, s =>
    let r := pass b s
    s :: if r.2 then passStarts b k r.1 else []

def runStarts (b : Bool) (s : MultiState) : List MultiState := passStarts b (s.queue.length + 1) s

def discarded (b : Bool) (es : List Metrics) : List Metrics :=
  (es.foldl (fun (x : MultiState × List Metrics) e =>
    (enqueue b x.1 e, x.2 ++ (runStarts b (x.1.push e)).flatMap taken)) ({}, [])).2

/-! ## No event is lost or taken twice -/

section
variable {b : Bool} {s : MultiState}

theorem discard_perm (q : List Metrics) (i : Int) :
    q.Perm (discard q i ++ if i < 0 then [] else q[i.toNat]?.toList) := by
  unfold discard
  split
  · rw [List.append_nil]
  · rcases Nat.lt_or_ge i.toNat q.length with hi | hi
    · rw [List.getElem?_eq_getElem hi, Option.toList_some]
      exact ((List.getElem_cons_eraseIdx_perm hi).symm).trans (List.perm_append_singleton _ _).symm
    · rw [List.eraseIdx_of_length_le hi, List.getElem?_eq_none hi, Option.toList_none, List.append_nil]

theorem findFrom_lt {p i k : Nat} {q : List Metrics} (h : findFrom p i q = some k) :
    ∃ x, q[k]? = some x ∧ x.timestamp = p := by
  obtain ⟨u, x, v, rfl, rfl, hx, -⟩ := findFrom_some h
  exact ⟨x, by simp, hx⟩

theorem openPulse_index : (openPulse s).firstFoundIndex =
    match findFrom s.pulseTimestamp 0 s.queue with
    | some i => (i : Int)
    | none => s.firstFoundIndex := by
  unfold openPulse
  cases findFrom s.pulseTimestamp 0 s.queue <;> rfl

theorem takeEvent_queue (b : Bool) (s : MultiState) :
    (takeEvent b s).queue = match discardIndex s with
      | none => s.queue
      | some i => discard s.queue i := by
  unfold takeEvent discardIndex
  split
  · rw [openPulse_index]
    unfold openPulse
    cases findFrom s.pulseTimestamp 0 s.queue <;> rfl
  · split
    · unfold mergeNext
      cases findFrom s.pulseTimestamp s.firstFoundIndex.toNat s.queue <;> rfl
    · rfl

theorem takeEvent_perm (b : Bool) (s : MultiState) : s.queue.Perm ((takeEvent b s).queue ++ taken s) := by
  rw [takeEvent_queue]
  unfold taken
  cases discardIndex s with
  | none => simp
  | some i => exact discard_perm s.queue i

theorem passes_perm (k : Nat) (s : MultiState) :
    s.queue.Perm (((passes b k s).getLastD s).queue ++ (passStarts b k s).flatMap taken) := by
  induction k generalizing s with
  | zero => simp [passes, passStarts]
  | succ k ih =>
    unfold passes passStarts
    cases hp : pass b s with
    | mk s₁ g =>
      have hq := takeEvent_perm b s
      rw [← pass_queue hp] at hq
      cases g with
      | false => simpa using hq
      | true =>
        simp only [ite_true, List.flatMap_cons]
        rw [List.getLastD_cons]
        refine hq.trans (((ih s₁).append_right _).trans ?_)
        rw [List.append_assoc]
        exact List.Perm.append_left _ List.perm_append_comm

theorem foldl_feed (es : List Metrics) :
    (es.foldl (fun (x : MultiState × List Metrics) e =>
      (enqueue b x.1 e, x.2 ++ (runStarts b (x.1.push e)).flatMap taken)) ({}, [])) =
        (feed b es, discarded b es) := by
  induction es using List.reverseRecOn with
  | nil => rfl
  | append_singleton es e ih =>
    rw [discarded, List.foldl_append, ih, feed_snoc]
    rfl

theorem discarded_snoc (es : List Metrics) (e : Metrics) :
    discarded b (es ++ [e]) = discarded b es ++ (runStarts b ((feed b es).push e)).flatMap taken := by
  rw [discarded, List.foldl_append, foldl_feed]
  rfl

theorem feed_perm (es : List Metrics) : es.Perm ((feed b es).queue ++ discarded b es) := by
  induction es using List.reverseRecOn with
  | nil => exact List.Perm.refl _
  | append_singleton es e ih =>
    have hrun : ((feed b es).push e).queue.Perm
        ((enqueue b (feed b es) e).queue ++ (runStarts b ((feed b es).push e)).flatMap taken) :=
      passes_perm _ _
    rw [feed_snoc, discarded_snoc]
    calc
      (es ++ [e]).Perm (((feed b es).queue ++ discarded b es) ++ [e]) := ih.append_right _
      _ |>.Perm (((feed b es).push e).queue ++ discarded b es) := by
        rw [push_queue, List.append_assoc, List.append_assoc]
        exact List.Perm.append_left _ List.perm_append_comm
      _ |>.Perm _ := (hrun.append_right _).trans (by
        rw [List.append_assoc]
        exact List.Perm.append_left _ List.perm_append_comm)

end

/-! ## The passes of a run -/

section
variable {b : Bool} {K : Nat} {es : List Metrics} {s t : MultiState}

theorem mem_passStarts {k : Nat} (ht : t ∈ passStarts b k s) : t = s ∨ GoesOn t := by
  induction k generalizing s with
  | zero => cases ht
  | succ k ih =>
    unfold passStarts at ht
    cases hp : pass b s with
    | mk s₁ g =>
      cases g with
      | false => exact Or.inl (by simpa [hp] using ht)
      | true =>
        simp only [hp, ite_true, List.mem_cons] at ht
        refine ht.imp id fun ht => ?_
        cases ih ht with
        | inl h => rw [h]; exact pass_goto hp
        | inr h => exact h

theorem GoesOn.found (h : GoesOn s) : ¬ NoneFound s := by
  rintro ⟨-, hnone⟩
  refine h.2 (eventsAt_nil_of fun y hy => ?_)
  exact findFrom_none hnone y (by rwa [List.drop_zero])

theorem Settled.found {e : Metrics} (h : Settled b K es s) (hst : Stair Metrics.timestamp K (es ++ [e])) :
    ¬ NoneFound (s.push e) := by
  rintro ⟨hf, hnone⟩
  have he := h.idle_timestamp hst hf
  exact findFrom_none hnone e (by simp) he

theorem discardIndex_spec (hn : ¬ NoneFound s) {i : Int} (hi : discardIndex s = some i) :
    ∃ (k : Nat) (e : Metrics), i = k ∧ s.queue[k]? = some e ∧ e.timestamp = s.pulseTimestamp := by
  unfold discardIndex at hi
  by_cases hf : s.firstFoundIndex = -1
  · rw [if_pos hf, openPulse_index] at hi
    cases hfind : findFrom s.pulseTimestamp 0 s.queue with
    | none => exact absurd ⟨hf, hfind⟩ hn
    | some k =>
      obtain ⟨e, he, ht⟩ := findFrom_lt hfind
      rw [hfind] at hi
      cases hi
      exact ⟨k, e, rfl, he, ht⟩
  · rw [if_neg hf] at hi
    split at hi
    · obtain ⟨k, hfind, rfl⟩ := Option.map_eq_some_iff.mp hi
      obtain ⟨e, he, ht⟩ := findFrom_lt hfind
      exact ⟨k, e, rfl, he, ht⟩
    · cases hi

/-! ## The open pulse -/

/-- The events of the open pulse that are no longer queued are those that arrived first. -/
theorem Mid.discarded_perm (h : Mid b K es (feed b es)) :
    (eventsAt (feed b es).pulseTimestamp (discarded b es)).Perm
      ((eventsAt (feed b es).pulseTimestamp es).take (feed b es).count) := by
  have hp := (feed_perm (b := b) es).filter fun a => a.timestamp = (feed b es).pulseTimestamp
  have hq : ((feed b es).queue.filter fun a => a.timestamp = (feed b es).pulseTimestamp) =
      (eventsAt (feed b es).pulseTimestamp es).drop (feed b es).count := h.present
  rw [List.filter_append, hq] at hp
  have hsplit := List.take_append_drop (feed b es).count (eventsAt (feed b es).pulseTimestamp es)
  refine List.perm_append_left_iff _ |>.mp (hp.symm.trans ?_)
  change (eventsAt (feed b es).pulseTimestamp es).Perm _
  nth_rewrite 1 [← hsplit]
  exact List.perm_append_comm

theorem Open.digests {n : Int} (h : Open b es s) (hn : ∀ x ∈ es, x.metricsNr = n) {l : List Metrics}
    (hl : ((eventsAt s.pulseTimestamp es).take s.count).Perm l) :
    s.aggregatedEvent.header.metricsNr = n ∧
      ∀ j : Nat, (j : Int) < n →
        Digest.OfList (l.map fun x => (x.column j).digest) (s.aggregatedEvent.gatherInfo j).digest := by
  obtain ⟨acc, hacc⟩ := h.merged
  obtain ⟨a, ha, -⟩ := h.degree
  have hpos := h.some_merged
  cases hev : (eventsAt s.pulseTimestamp es).take s.count with
  | nil =>
    rw [List.take_eq_nil_iff] at hev
    rcases hev with h0 | h0
    · omega
    · rw [h0] at ha
      cases ha
  | cons x rest =>
    rw [hev] at hacc hl
    have hmem : ∀ y ∈ x :: rest, y.metricsNr = n := by
      intro y hy
      rw [← hev] at hy
      exact hn y ((mem_items _).mp (List.mem_of_mem_take hy)).1
    rw [hacc]
    refine ⟨?_, fun j hj => ?_⟩
    · rw [accumulate_header]
      exact hmem x (List.mem_cons_self ..)
    · rw [accumulate_column b _ x rest acc j fun y hy => by rw [hmem y hy]; exact hj, digest_fold]
      have hfold := Digest.OfList.foldl (x.column j).digest (rest.map fun y => (y.column j).digest)
      rw [List.foldl_map] at hfold
      exact hfold.perm (hl.map fun y => (y.column j).digest)

end

section
variable {T : Topology} {r : Nat} {w : List (Option Nat × Metrics)}

/-- After every run: the queue, `first_found_index`, `count` and `aggregated_event`
fit the events discarded so far, and no pass has looked for a first event in vain or
discarded anything but an event of the open pulse. -/
theorem feed_queue (h : Arrivals T r w) (hD : 0 < T.getDegreeNode r) (b : Bool) :
    let s := feed b (w.map Prod.snd)
    let gone := eventsAt s.pulseTimestamp (discarded b (w.map Prod.snd))
    (∀ x ∈ s.queue, s.pulseTimestamp ≤ x.timestamp) ∧
      (∀ (i : Nat) x, s.queue[i]? = some x → (i : Int) < s.firstFoundIndex → x.timestamp ≠ s.pulseTimestamp) ∧
      s.count = gone.length ∧
      (∀ n, (∀ x ∈ w, x.2.metricsNr = n) → gone ≠ [] → s.aggregatedEvent.header.metricsNr = n ∧
        ∀ j : Nat, (j : Int) < n →
          Digest.OfList (gone.map fun x => (x.column j).digest) (s.aggregatedEvent.gatherInfo j).digest) ∧
      (w.map Prod.snd).Perm (s.queue ++ discarded b (w.map Prod.snd)) ∧
      ∀ u x, u ++ [x] <+: w → ∀ t ∈ runStarts b ((feed b (u.map Prod.snd)).push x.2), ¬ NoneFound t ∧
        ∀ i, discardIndex t = some i →
          ∃ (k : Nat) (e : Metrics), i = k ∧ t.queue[k]? = some e ∧ e.timestamp = t.pulseTimestamp := by
  have hs := h.settled hD b
  have hgone := hs.toMid.discarded_perm
  intro s gone
  have hcount : s.count = gone.length := by
    rw [hgone.length_eq, List.length_take, Nat.min_eq_left hs.count_le]
  refine ⟨?_, ?_, hcount, ?_, feed_perm _, ?_⟩
  · intro x hx
    refine Nat.le_of_not_lt fun hlt => ?_
    have hmem : x ∈ eventsAt x.timestamp s.queue := (mem_items _).mpr ⟨hx, rfl⟩
    rw [hs.past _ hlt] at hmem
    cases hmem
  · intro i x hx hi
    have hf : s.firstFoundIndex ≠ -1 := by omega
    refine (hs.busy hf).before x (List.mem_of_getElem? (i := i) ?_)
    rw [List.getElem?_take_of_lt (show i < s.firstFoundIndex.toNat by omega), hx]
  · intro n hn hne
    have hf : s.firstFoundIndex ≠ -1 := by
      intro hf
      rw [hs.closed hf] at hcount
      exact hne (List.length_eq_zero_iff.mp hcount.symm)
    refine (hs.busy hf).digests (fun x hx => ?_) hgone.symm
    obtain ⟨y, hy, rfl⟩ := List.mem_map.mp hx
    exact hn y hy
  · intro u x hu t ht
    obtain ⟨v, rfl⟩ := hu
    have hfound : ¬ NoneFound t := by
      cases mem_passStarts ht with
      | inl ht =>
        have hst := Interleaved.stair_sources h.left.inOrder
        rw [List.map_append, List.map_singleton] at hst
        rw [ht]
        exact (h.left.left.settled hD b).found hst
      | inr ht => exact ht.found
    exact ⟨hfound, fun i hi => discardIndex_spec hfound hi⟩

end

def aheadLeaf : List (Option Nat × Metrics) :=
  [(some 1, 0), (some 1, 1), (some 2, 0)].map fun (x : Option Nat × Nat) =>
    (x.1, oneMetric twoLeaves (twoLeaves.announced 0 x.1) x.2)

theorem feed_queue_aheadLeaf :
    let s := feed false (aheadLeaf.map Prod.snd)
    let gone := eventsAt s.pulseTimestamp (discarded false (aheadLeaf.map Prod.snd))
    (∀ x ∈ s.queue, s.pulseTimestamp ≤ x.timestamp) ∧
      (∀ (i : Nat) x, s.queue[i]? = some x → (i : Int) < s.firstFoundIndex → x.timestamp ≠ s.pulseTimestamp) ∧
      s.count = gone.length ∧
      (∀ n, (∀ x ∈ aheadLeaf, x.2.metricsNr = n) → gone ≠ [] → s.aggregatedEvent.header.metricsNr = n ∧
        ∀ j : Nat, (j : Int) < n →
          Digest.OfList (gone.map fun x => (x.column j).digest) (s.aggregatedEvent.gatherInfo j).digest) ∧
      (aheadLeaf.map Prod.snd).Perm (s.queue ++ discarded false (aheadLeaf.map Prod.snd)) ∧
      ∀ u x, u ++ [x] <+: aheadLeaf → ∀ t ∈ runStarts false ((feed false (u.map Prod.snd)).push x.2),
        ¬ NoneFound t ∧ ∀ i, discardIndex t = some i →
          ∃ (k : Nat) (e : Metrics), i = k ∧ t.queue[k]? = some e ∧ e.timestamp = t.pulseTimestamp :=
  feed_queue (T := twoLeaves) (r := 0) ⟨⟨by decide, by decide⟩, by decide⟩ (by decide) false

end Clarisse
