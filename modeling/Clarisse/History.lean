import Clarisse.Network

/-!
# What every reachable state of the network has in its logs

`History` says that each link has delivered a prefix of what its sender
submitted and that the states are those the logs lead to. From it, by induction
from the leaves up, every rank sends a stream in order that ends with its
first event with `quit` set.
-/

namespace Clarisse

open Interleave

/-! ## The leaves -/

structure LeafInv (T : Topology) (r : Nat) (s : LeafState) : Prop where
  stamped : InOrder Metrics.timestamp s.submitted
  length : s.submitted.length = s.counter
  data : Announces T r s.data
  announced : ∀ e ∈ s.submitted, Announces T r e
  quits : ∀ k x, s.submitted[k]? = some x → x.quit ≠ 0 → k + 1 = s.counter ∧ s.data.quit ≠ 0
  last : 0 < s.counter → s.submitted.getLast? = some s.data
  first : s.counter = 0 → s.data.quit = 0

section
variable {T : Topology} {r : Nat} {E : Nat → When → Sampling} {fin : Bool} {s s' : LeafState}

theorem leafInv_init : LeafInv T r (startCommunication T r) where
  stamped := rfl
  length := rfl
  data := ⟨rfl, rfl, rfl⟩
  announced e h := by cases h
  quits k x h := by simp [startCommunication] at h
  last h := absurd h (Nat.lt_irrefl 0)
  first _ := rfl

theorem leafPulse_ok (h : leafPulse E fin s = .ok s') :
    ∃ agg nr values b, sampleFile (E s.counter .current) s.aggregator s.data.metricsNr = .ok (agg, nr, values, b) ∧
      s'.counter = s.counter + 1 ∧ s'.aggregator = agg ∧ s'.submitted = s.submitted ++ [s'.data] ∧
      s'.data = { s.data with
        quit := if fin then 1 else 0, timestamp := s.counter, metricsNr := nr, gatherInfo := values,
        updateFile := if b then 1 else 0, contributions := [agg.desiredMetrics.getD []] } := by
  unfold leafPulse at h
  simp only at h
  cases hs : sampleFile (E s.counter .current) s.aggregator s.data.metricsNr with
  | error e => rw [hs] at h; cases h
  | ok x =>
    obtain ⟨agg, nr, values, b⟩ := x
    rw [hs] at h
    cases h
    exact ⟨agg, nr, values, b, rfl, rfl, rfl, rfl, rfl⟩

theorem LeafInv.step (h : LeafInv T r s) (hq : s.data.quit = 0) (hp : leafPulse E fin s = .ok s') :
    LeafInv T r s' := by
  obtain ⟨agg, nr, values, b, -, hc, -, hs, hd⟩ := leafPulse_ok hp
  have hann : Announces T r s'.data := by
    rw [hd]
    exact ⟨h.data.parentRank, h.data.maxDegree, h.data.nprocs⟩
  refine ⟨?_, ?_, hann, ?_, ?_, ?_, ?_⟩
  · rw [hs, inOrder_snoc, h.length]
    exact ⟨h.stamped, by rw [hd]⟩
  · rw [hs, List.length_append, h.length, hc]; rfl
  · intro e he
    rw [hs, List.mem_append, List.mem_singleton] at he
    cases he with
    | inl he => exact h.announced e he
    | inr he => rw [he]; exact hann
  · intro k x hk hx
    rw [hs] at hk
    cases getElem?_snoc hk with
    | inl hold => exact absurd hq (h.quits k x hold hx).2
    | inr hlast =>
      obtain ⟨rfl, rfl⟩ := hlast
      rw [hc, h.length]
      exact ⟨rfl, hx⟩
  · intro _
    rw [hs, List.getLast?_concat]
  · intro h0
    omega

end

/-! ## The network -/

section
variable (T : Topology) (E : Nat → Nat → When → Sampling)

structure History (σ : Net) : Prop where
  leaf : ∀ r, LeafInv T r (σ.leaf r)
  handledTag : ∀ r, ∀ x ∈ (σ.node r).handled, x.1 ∈ T.children r
  handledLe : ∀ r, ∀ c ∈ T.children r, stream c (σ.node r).handled <+: σ.out T c
  own : ∀ r, handleAll T r (E r) ((σ.node r).handled.map Prod.snd) = .ok (σ.node r).own
  arrivedTag : ∀ r, T.isLeaf r = false → ∀ x ∈ (σ.node r).arrived, x.1 ∈ sources T r
  arrivedLe : ∀ r, ∀ c ∈ T.children r, stream (some c) (σ.node r).arrived <+: σ.out T c
  arrivedOwn : ∀ r, stream none (σ.node r).arrived <+: (σ.node r).own.submitted
  multi : ∀ r, (σ.node r).multi = feed false ((σ.node r).arrived.map Prod.snd)
  rootLe : σ.root.pulse ≤ (σ.out T 0).length
  root : σ.root = ((σ.out T 0).take σ.root.pulse).foldl (finalResult T.nprocs) {}

end

section
variable {T : Topology} {E : Nat → Nat → When → Sampling} {σ σ' : Net} {a : Act} {r : Nat}

theorem history_init : History T E (netInit T) where
  leaf _ := leafInv_init
  handledTag _ x h := by cases h
  handledLe _ _ _ := List.nil_prefix
  own _ := rfl
  arrivedTag _ _ x h := by cases h
  arrivedLe _ _ _ := List.nil_prefix
  arrivedOwn _ := List.nil_prefix
  multi _ := rfl
  rootLe := Nat.zero_le _
  root := rfl

theorem take_foldl_of_le {l m : List Metrics} {k : Nat} (hp : l <+: m) (hk : k ≤ l.length) :
    m.take k = l.take k := by
  obtain ⟨t, rfl⟩ := hp
  exact List.take_append_of_le_length hk

theorem History.grow (h : History T E σ) (hnode : σ'.node = σ.node) (hroot : σ'.root = σ.root)
    (hleaf : ∀ q, LeafInv T q (σ'.leaf q)) (hout : ∀ q, σ.out T q <+: σ'.out T q) : History T E σ' where
  leaf := hleaf
  handledTag := by rw [hnode]; exact h.handledTag
  handledLe q c hc := by rw [hnode]; exact (h.handledLe q c hc).trans (hout c)
  own := by rw [hnode]; exact h.own
  arrivedTag := by rw [hnode]; exact h.arrivedTag
  arrivedLe q c hc := by rw [hnode]; exact (h.arrivedLe q c hc).trans (hout c)
  arrivedOwn := by rw [hnode]; exact h.arrivedOwn
  multi := by rw [hnode]; exact h.multi
  rootLe := by rw [hroot]; exact Nat.le_trans h.rootLe (hout 0).length_le
  root := by rw [hroot, take_foldl_of_le (hout 0) h.rootLe]; exact h.root

theorem History.deliver (h : History T E σ) {c : Nat} {e : Metrics} (hc : c ∈ T.children r)
    (he : (σ.out T c)[(stream c (σ.node r).handled).length]? = some e) :
    (∀ x ∈ (σ.node r).handled ++ [(c, e)], x.1 ∈ T.children r) ∧
      ∀ d ∈ T.children r, stream d ((σ.node r).handled ++ [(c, e)]) <+: σ.out T d := by
  refine ⟨fun x hx => ?_, fun d hd => ?_⟩
  · rw [List.mem_append, List.mem_singleton] at hx
    cases hx with
    | inl hx => exact h.handledTag r x hx
    | inr hx => rw [hx]; exact hc
  · by_cases hcd : c = d
    · subst hcd
      exact stream_deliver (h.handledLe r c hc) he
    · rw [stream_snoc, if_neg hcd, List.append_nil]
      exact h.handledLe r d hd

theorem History.handle (h : History T E σ) {c : Nat} {e : Metrics} {own : OwnState} (hc : c ∈ T.children r)
    (he : (σ.out T c)[(stream c (σ.node r).handled).length]? = some e)
    (ho : computeOwnMetrics T r (E r) (σ.node r).own e = .ok own) :
    History T E (σ.setNode r ((σ.node r).handle c e own)) := by
  have hout : ∀ q, (σ.setNode r ((σ.node r).handle c e own)).out T q = σ.out T q := by
    intro q
    unfold NetOf.out
    by_cases hq : q = r
    · subst hq; rw [setNode_node]; rfl
    · rw [setNode_node_of_ne _ hq]; rfl
  obtain ⟨htag, hle⟩ := h.deliver hc he
  refine ⟨h.leaf, ?_, ?_, ?_, ?_, ?_, ?_, ?_, ?_, ?_⟩
  · exact setNode_forall (P := fun q n => ∀ x ∈ n.handled, x.1 ∈ T.children q) h.handledTag htag
  · intro q d hd
    rw [hout]
    revert d
    apply setNode_forall (P := fun q n => ∀ d ∈ T.children q, stream d n.handled <+: σ.out T d) h.handledLe
    exact hle
  · apply setNode_forall (P := fun q n => handleAll T q (E q) (n.handled.map Prod.snd) = .ok n.own) h.own
    rw [NodeOf.handle, List.map_append, List.map_singleton, handleAll_snoc, h.own r]
    exact ho
  · exact setNode_forall (P := fun q n => T.isLeaf q = false → ∀ x ∈ n.arrived, x.1 ∈ sources T q) h.arrivedTag
      (h.arrivedTag r)
  · intro q d hd
    rw [hout]
    revert d
    apply setNode_forall (P := fun q n => ∀ d ∈ T.children q, stream (some d) n.arrived <+: σ.out T d) h.arrivedLe
    exact h.arrivedLe r
  · exact setNode_forall (P := fun _ (n : Node) => stream none n.arrived <+: n.own.submitted) h.arrivedOwn
      ((h.arrivedOwn r).trans (computeOwnMetrics_submitted ho))
  · exact setNode_forall (P := fun _ n => n.multi = feed false (n.arrived.map Prod.snd)) h.multi (h.multi r)
  · rw [hout]; exact h.rootLe
  · rw [hout]; exact h.root

theorem History.arrive (h : History T E σ) {i : Option Nat} {e : Metrics} (hi : i ∈ sources T r)
    (hchild : ∀ c, i = some c → (σ.out T c)[(stream i (σ.node r).arrived).length]? = some e)
    (hown : i = none → (σ.node r).own.submitted[(stream i (σ.node r).arrived).length]? = some e) :
    History T E (σ.setNode r ((σ.node r).enqueue false i e)) := by
  have hout : ∀ q, σ.out T q <+: (σ.setNode r ((σ.node r).enqueue false i e)).out T q :=
    out_setNode (enqueue_submitted false _ e)
  refine ⟨h.leaf, ?_, ?_, ?_, ?_, ?_, ?_, ?_, ?_, ?_⟩
  · exact setNode_forall (P := fun q n => ∀ x ∈ n.handled, x.1 ∈ T.children q) h.handledTag (h.handledTag r)
  · intro q d hd
    refine List.IsPrefix.trans ?_ (hout d)
    revert d
    apply setNode_forall (P := fun q n => ∀ d ∈ T.children q, stream d n.handled <+: σ.out T d) h.handledLe
    exact h.handledLe r
  · exact setNode_forall (P := fun q n => handleAll T q (E q) (n.handled.map Prod.snd) = .ok n.own) h.own (h.own r)
  · apply setNode_forall (P := fun q n => T.isLeaf q = false → ∀ x ∈ n.arrived, x.1 ∈ sources T q) h.arrivedTag
    intro hl x hx
    rw [NodeOf.enqueue, List.mem_append, List.mem_singleton] at hx
    cases hx with
    | inl hx => exact h.arrivedTag r hl x hx
    | inr hx => rw [hx]; exact hi
  · intro q d hd
    refine List.IsPrefix.trans ?_ (hout d)
    revert d
    apply setNode_forall (P := fun q n => ∀ d ∈ T.children q, stream (some d) n.arrived <+: σ.out T d) h.arrivedLe
    intro d hd
    by_cases hid : i = some d
    · subst hid
      exact stream_deliver (h.arrivedLe r d hd) (hchild d rfl)
    · rw [NodeOf.enqueue, stream_snoc, if_neg hid, List.append_nil]
      exact h.arrivedLe r d hd
  · apply setNode_forall (P := fun _ (n : Node) => stream none n.arrived <+: n.own.submitted) h.arrivedOwn
    by_cases hid : i = none
    · subst hid
      exact stream_deliver (h.arrivedOwn r) (hown rfl)
    · rw [NodeOf.enqueue, stream_snoc, if_neg hid, List.append_nil]
      exact h.arrivedOwn r
  · apply setNode_forall (P := fun _ n => n.multi = feed false (n.arrived.map Prod.snd)) h.multi
    rw [NodeOf.enqueue, List.map_append, List.map_singleton, feed_snoc, h.multi r]
  · exact Nat.le_trans h.rootLe (hout 0).length_le
  · change σ.root = _
    rw [show (σ.setNode r ((σ.node r).enqueue false i e)).root = σ.root from rfl, take_foldl_of_le (hout 0) h.rootLe]
    exact h.root

theorem History.step (h : History T E σ) (hs : netStep T E σ a = some σ') : History T E σ' := by
  obtain ⟨-, hs⟩ := netStep_steps hs
  cases hs with
  | leafHalt r fin d hp => exact h.grow rfl rfl h.leaf fun q => List.prefix_refl _
  | ownHalt c r e d hc he ho => exact h.grow rfl rfl h.leaf fun q => List.prefix_refl _
  | leaf r fin l hr hl hq hp =>
    obtain ⟨-, -, -, -, -, -, -, hsub, -⟩ := leafPulse_ok hp
    exact h.grow rfl rfl (setLeaf_forall h.leaf ((h.leaf r).step hq hp))
      (out_setLeaf (by rw [hsub]; exact List.prefix_append _ _))
  | terminal c r e own hc he ho => exact h.handle hc he ho
  | multi c r e hc he =>
    refine h.arrive (mem_sources.mpr hc) (fun d hd => ?_) (fun hn => by cases hn)
    cases hd
    exact he
  | own r e hr hl he =>
    exact h.arrive Finset.none_mem_insertNone (fun d hd => by cases hd) fun _ => he
  | final _ e he =>
    have hlt := (List.getElem?_eq_some_iff.mp he).1
    refine ⟨h.leaf, h.handledTag, h.handledLe, h.own, h.arrivedTag, h.arrivedLe, h.arrivedOwn, h.multi, hlt, ?_⟩
    change finalResult T.nprocs σ.root e = ((σ.out T 0).take (σ.root.pulse + 1)).foldl _ _
    rw [List.take_add_one, he, Option.toList_some, List.foldl_append, ← h.root]
    rfl

theorem Reachable.history (h : Reachable T E σ) : History T E σ := by
  obtain ⟨as, hs⟩ := h
  exact Transition.exec_invariant _ (fun _ _ _ h hs => h.step hs) history_init hs

end

/-! ## What a rank sends -/

structure Sent (T : Topology) (r : Nat) (l : List Metrics) : Prop where
  inOrder : InOrder Metrics.timestamp l
  quitLast : QuitLast l
  header : ∀ e ∈ l, e.parentRank ≤ T.getParent r ∧ e.maxDegree = T.maxDegree ∧ e.nprocs = T.nprocs

structure Inner (T : Topology) (r : Nat) (n : Node) : Prop where
  handled : Interleaved Metrics.timestamp (T.children r) n.handled
  own : OwnInv T r n.handled n.own
  arrived : Interleaved Metrics.timestamp (sources T r) n.arrived
  quitLast : ∀ i ∈ sources T r, QuitLast (stream i n.arrived)
  header : ∀ e ∈ n.arrived.map Prod.snd, e.parentRank ≤ r ∧ e.maxDegree = T.maxDegree ∧ e.nprocs = T.nprocs
  settled : Settled false (T.getDegreeNode r + 1) (n.arrived.map Prod.snd) n.multi

section
variable {T : Topology} {E : Nat → Nat → When → Sampling} {σ : Net} {r : Nat} {n : Node}

theorem LeafInv.sent {l : LeafState} (h : LeafInv T r l) : Sent T r l.submitted where
  inOrder := h.stamped
  quitLast k x hk hx := by
    have := (h.quits k x hk hx).1
    rw [h.length]
    omega
  header e he := ⟨Int.le_of_eq (h.announced e he).parentRank, (h.announced e he).maxDegree,
    (h.announced e he).nprocs⟩

theorem OwnInv.sent {w : List (Nat × Metrics)} {s : OwnState} (h : OwnInv T r w s) : Sent T r s.submitted where
  inOrder := h.stamped
  quitLast k x hk hx := by
    have := (h.quits k x hk hx).1
    rw [h.length]
    omega
  header e he := ⟨Int.le_of_eq (h.announced e he).parentRank, (h.announced e he).maxDegree,
    (h.announced e he).nprocs⟩

theorem Inner.sent (h : Inner T r n) : Sent T r n.multi.submitted where
  inOrder := by
    refine inOrder_of_get _ fun k x hk => ?_
    obtain ⟨a, rest, -, -, -, -, -, -, ht, -⟩ := h.settled.submitted_first (Nat.succ_pos _) hk
    exact ht
  quitLast k x hk hx := by
    obtain ⟨a, rest, ha, -, -, -, -, -, -, hq, -⟩ := h.settled.submitted_first (Nat.succ_pos _) hk
    have hm : a ∈ (level Metrics.timestamp k n.arrived).map Prod.snd := by
      rw [level_items, ← eventsAt, ha]
      exact List.mem_cons_self ..
    obtain ⟨⟨i, a⟩, hmem, rfl⟩ := List.mem_map.mp hm
    obtain ⟨hi, hget⟩ := h.arrived.mem_level hmem
    -- the stream of that event ends here, so the next pulse never becomes complete
    have hend := h.quitLast i hi k _ hget (hq ▸ hx)
    rw [h.settled.submitted_length]
    rcases Nat.lt_or_ge (k + 1) n.multi.pulseTimestamp with hlt | hge
    · have hf := h.settled.full (k + 1) hlt
      rw [eventsAt_length, ← card_sources] at hf
      have := (h.arrived.full_iff _).mp hf i hi
      omega
    · exact hge
  header e he := by
    obtain ⟨k, hk⟩ := List.mem_iff_getElem?.mp he
    obtain ⟨a, rest, ha, -, hd, -, hp, hn, -⟩ := h.settled.submitted_first (Nat.succ_pos _) hk
    have hm : a ∈ n.arrived.map Prod.snd := by
      have : a ∈ eventsAt k (n.arrived.map Prod.snd) := by rw [ha]; exact List.mem_cons_self ..
      exact ((mem_items _).mp this).1
    obtain ⟨h1, h2, h3⟩ := h.header a hm
    rw [hp, hd, hn, h2, h3]
    have := T.maxDegree_pos
    exact ⟨Int.tdiv_le_tdiv (by omega) (by omega), rfl, rfl⟩

theorem History.inner_of_children (h : History T E σ) (h2 : 2 ≤ T.nprocs) (hl : T.isLeaf r = false)
    (hc : ∀ c ∈ T.children r, Sent T c (σ.out T c)) : Inner T r (σ.node r) := by
  have hD : 0 < T.getDegreeNode r := (T.degree_pos_iff h2 r).mpr hl
  have hi : Interleaved Metrics.timestamp (T.children r) (σ.node r).handled :=
    interleaved_of_le (fun c => σ.out T c) (h.handledTag r) (h.handledLe r) fun c hm => (hc c hm).inOrder
  have hown : OwnInv T r (σ.node r).handled (σ.node r).own :=
    (handleAll_ownInv hi (fun c hm => quitLast_of_le (h.handledLe r c hm) (hc c hm).quitLast) hD).2 _ (h.own r)
  have hsrc : ∀ i ∈ sources T r, ∃ l,
      stream i (σ.node r).arrived <+: l ∧ InOrder Metrics.timestamp l ∧ QuitLast l ∧
      ∀ e ∈ l, e.parentRank ≤ r ∧ e.maxDegree = T.maxDegree ∧ e.nprocs = T.nprocs := by
    intro i hm
    cases i with
    | none =>
      refine ⟨_, h.arrivedOwn r, hown.sent.inOrder, hown.sent.quitLast, fun e he => ?_⟩
      obtain ⟨h1, h3⟩ := hown.sent.header e he
      exact ⟨Int.le_trans h1 (getParent_le T r), h3⟩
    | some c =>
      have hm := mem_sources.mp hm
      refine ⟨_, h.arrivedLe r c hm, (hc c hm).inOrder, (hc c hm).quitLast, fun e he => ?_⟩
      obtain ⟨h1, h3⟩ := (hc c hm).header e he
      obtain ⟨h0, -, hp⟩ := T.mem_children.mp hm
      rw [T.getParent_pos h0, hp] at h1
      exact ⟨h1, h3⟩
  have ha : Interleaved Metrics.timestamp (sources T r) (σ.node r).arrived := by
    refine ⟨h.arrivedTag r hl, fun i hm => ?_⟩
    obtain ⟨l, hle, ho, -, -⟩ := hsrc i hm
    exact inOrder_of_le _ hle ho
  have hhead : ∀ e ∈ (σ.node r).arrived.map Prod.snd,
      e.parentRank ≤ r ∧ e.maxDegree = T.maxDegree ∧ e.nprocs = T.nprocs := by
    intro e he
    obtain ⟨⟨i, e⟩, hx, rfl⟩ := List.mem_map.mp he
    obtain ⟨l, hle, -, -, hh⟩ := hsrc i (h.arrivedTag r hl _ hx)
    exact hh e (hle.subset (mem_stream.mpr hx))
  refine ⟨hi, hown, ha, fun i hm => ?_, hhead, ?_⟩
  · obtain ⟨l, hle, -, hq, -⟩ := hsrc i hm
    exact quitLast_of_le hle hq
  · rw [h.multi r]
    refine feed_settled (by omega) (Interleaved.stair_sources ha) fun e he => ?_
    obtain ⟨h1, h3, h4⟩ := hhead e he
    exact Nat.succ_le_succ (degree_ge h1 h3 h4)

theorem History.sent (h : History T E σ) (h2 : 2 ≤ T.nprocs) : ∀ r < T.nprocs, Sent T r (σ.out T r) := by
  refine T.child_induction fun r hr ih => ?_
  unfold NetOf.out
  cases hl : T.isLeaf r with
  | true => exact (h.leaf r).sent
  | false => exact (h.inner_of_children h2 hl ih).sent

theorem History.inner (h : History T E σ) (h2 : 2 ≤ T.nprocs) (hl : T.isLeaf r = false) : Inner T r (σ.node r) :=
  h.inner_of_children h2 hl fun c hc => h.sent h2 c (T.lt_of_mem_children hc).2

theorem History.interleaved (h : History T E σ) (h2 : 2 ≤ T.nprocs) {w : List (Nat × Metrics)}
    (ht : ∀ x ∈ w, x.1 ∈ T.children r) (hle : ∀ c ∈ T.children r, stream c w <+: σ.out T c) :
    Interleaved Metrics.timestamp (T.children r) w ∧ ∀ c ∈ T.children r, QuitLast (stream c w) := by
  have hs : ∀ c ∈ T.children r, Sent T c (σ.out T c) := fun c hc => h.sent h2 c (T.lt_of_mem_children hc).2
  exact ⟨interleaved_of_le (fun c => σ.out T c) ht hle fun c hc => (hs c hc).inOrder,
    fun c hc => quitLast_of_le (hle c hc) (hs c hc).quitLast⟩

def FromLeaf (T : Topology) (σ : Net) (e : Metrics) : Prop :=
  ∃ l x, T.isLeaf l = true ∧ x ∈ (σ.leaf l).submitted ∧ x.timestamp = e.timestamp ∧ x.quit = e.quit

theorem FromLeaf.congr {e e' : Metrics} (h : FromLeaf T σ e) (ht : e.timestamp = e'.timestamp)
    (hq : e.quit = e'.quit) :
    FromLeaf T σ e' := by
  obtain ⟨l, x, hl, hx, h1, h2⟩ := h
  exact ⟨l, x, hl, hx, h1.trans ht, h2.trans hq⟩

theorem History.own_fromLeaf (h : History T E σ) (h2 : 2 ≤ T.nprocs) (hl : T.isLeaf r = false)
    (hc : ∀ c ∈ T.children r, ∀ e ∈ σ.out T c, FromLeaf T σ e) :
    ∀ o ∈ (σ.node r).own.submitted, FromLeaf T σ o := by
  intro o ho
  obtain ⟨hi, hq⟩ := h.interleaved h2 (h.handledTag r) (h.handledLe r)
  obtain ⟨⟨c, x⟩, hx, ht, hoq⟩ := handleAll_origin hi hq ((T.degree_pos_iff h2 r).mpr hl) (h.own r) o ho
  have hm := h.handledTag r _ hx
  exact (hc c hm x ((h.handledLe r c hm).subset (mem_stream.mpr hx))).congr ht hoq

/-- Every event has the timestamp and the flag that some leaf has sent together. -/
theorem History.fromLeaf (h : History T E σ) (h2 : 2 ≤ T.nprocs) :
    ∀ r < T.nprocs, ∀ e ∈ σ.out T r, FromLeaf T σ e := by
  refine T.child_induction fun r hr ih => ?_
  intro e he
  cases hl : T.isLeaf r with
  | true =>
    rw [NetOf.out, hl] at he
    exact ⟨r, e, hl, he, rfl, rfl⟩
  | false =>
    rw [NetOf.out, hl] at he
    have hn := h.inner h2 hl
    obtain ⟨k, hk⟩ := List.mem_iff_getElem?.mp he
    obtain ⟨a, rest, ha, -, -, -, -, -, ht, hq, -⟩ := hn.settled.submitted_first (Nat.succ_pos _) hk
    have hmem : a ∈ eventsAt k ((σ.node r).arrived.map Prod.snd) := by
      rw [ha]
      exact List.mem_cons_self ..
    obtain ⟨hmap, hat⟩ := (mem_items _).mp hmem
    obtain ⟨⟨i, a⟩, hw, rfl⟩ := List.mem_map.mp hmap
    refine FromLeaf.congr ?_ (hat.trans ht.symm) hq.symm
    cases i with
    | some c =>
      have hc := mem_sources.mp (h.arrivedTag r hl _ hw)
      exact ih c hc a ((h.arrivedLe r c hc).subset (mem_stream.mpr hw))
    | none => exact h.own_fromLeaf h2 hl ih a ((h.arrivedOwn r).subset (mem_stream.mpr hw))

end

end Clarisse
