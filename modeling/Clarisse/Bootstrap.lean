import Clarisse.Topology
import Clarisse.Transition
import Mathlib.Logic.Function.Basic

/-!
# Passing the addresses down the tree

`monitoring_initialize` up to the first barrier, with `recv_addr_from_parent`
and `send_addr_to_children`. A send may hand its message over only when the
matching receive is posted, or leave it in a buffer; a run may do either at
every send.
-/

namespace Clarisse

/-- Where a rank is; `send i` is about to send to its `i`-th child. -/
inductive BootPc where
  | recv
  | compute
  | send (i : Nat)
  | barrier
  deriving DecidableEq, Repr

/-- `channel src dst` holds the buffered messages; `sent` and `received` list the
calls of `MPI_Send` and `MPI_Recv` that have returned, as pairs of source and target. -/
structure Boot where
  pc : Nat → BootPc
  parentAddr : Nat → Option String
  ownAddr : Nat → Option String
  channel : Nat → Nat → List String
  sent : List (Nat × Nat)
  received : List (Nat × Nat)

inductive BootStep where
  | compute (rank : Nat)
  | sendBuffered (rank : Nat)
  | recvBuffered (rank : Nat)
  | rendezvous (rank : Nat)
  deriving DecidableEq, Repr

section
variable (T : Topology) (stone : Nat → Int) (contact : Nat → String)

def computeEvpathAddr (rank : Nat) : String := toString (stone rank) ++ ":" ++ contact rank

def afterRecv (rank : Nat) : BootPc := if T.isLeaf rank then .barrier else .compute

def sendPc (rank i : Nat) : BootPc := if i ≤ T.getDegreeNode rank then .send i else .barrier

def bootInit : Boot where
  pc rank := if rank = 0 then afterRecv T rank else .recv
  parentAddr _ := none
  ownAddr _ := none
  channel _ _ := []
  sent := []
  received := []

def Boot.send (s : Boot) (src i : Nat) (addr : String) : Boot :=
  let dst := src * T.maxDegree + i
  { s with
    pc := Function.update s.pc src (sendPc T src (i + 1))
    channel := fun a b => if a = src ∧ b = dst then s.channel a b ++ [addr] else s.channel a b
    sent := s.sent ++ [(src, dst)] }

def Boot.receive (s : Boot) (src dst : Nat) (addr : String) : Boot :=
  { s with
    pc := Function.update s.pc dst (afterRecv T dst)
    parentAddr := Function.update s.parentAddr dst (some addr)
    channel := fun a b => if a = src ∧ b = dst then (s.channel a b).tail else s.channel a b
    received := s.received ++ [(src, dst)] }

def bootStep (s : Boot) : BootStep → Option Boot
  | .compute rank =>
    if rank < T.nprocs ∧ s.pc rank = .compute then
      some { s with
        pc := Function.update s.pc rank (sendPc T rank 1)
        ownAddr := Function.update s.ownAddr rank (some (computeEvpathAddr stone contact rank)) }
    else none
  | .sendBuffered rank =>
    match s.pc rank, s.ownAddr rank with
    | .send i, some addr => if rank < T.nprocs then some (s.send T rank i addr) else none
    | _, _ => none
  | .recvBuffered rank =>
    let src := (T.getParent rank).toNat
    match s.pc rank, s.channel src rank with
    | .recv, addr :: _ => if rank < T.nprocs then some (s.receive T src rank addr) else none
    | _, _ => none
  | .rendezvous rank =>
    match s.pc rank, s.ownAddr rank with
    | .send i, some addr =>
      let dst := rank * T.maxDegree + i
      if rank < T.nprocs ∧ dst < T.nprocs ∧ s.pc dst = .recv ∧ T.getParent dst = rank ∧ s.channel rank dst = [] then
        some ((s.send T rank i addr).receive T rank dst addr)
      else none
    | _, _ => none

/-! ## The invariant -/

def BootPc.next (rank : Nat) : BootPc → Nat
  | .recv => 1
  | .compute => 1
  | .send i => i
  | .barrier => T.getDegreeNode rank + 1

structure BootInv (s : Boot) : Prop where
  root : s.pc 0 ≠ .recv
  sending : ∀ r i, s.pc r = .send i → 1 ≤ i ∧ i ≤ T.getDegreeNode r
  own : ∀ r, (s.pc r ≠ .recv ∧ s.pc r ≠ .compute ∧ T.isLeaf r = false) →
    s.ownAddr r = some (computeEvpathAddr stone contact r)
  branch : ∀ r, (s.pc r = .compute ∨ ∃ i, s.pc r = .send i) → T.isLeaf r = false
  sent : ∀ r c, (r, c) ∈ s.sent ↔ r < T.nprocs ∧ c ∈ T.children r ∧ c < r * T.maxDegree + (s.pc r).next T r
  received : ∀ r c, (r, c) ∈ s.received ↔ 0 < c ∧ c < T.nprocs ∧ r = T.parent c ∧ s.pc c ≠ .recv
  matched : ∀ x ∈ s.received, x ∈ s.sent
  channel : ∀ r c, s.channel r c =
    if (r, c) ∈ s.sent ∧ (r, c) ∉ s.received then [computeEvpathAddr stone contact r] else []
  sent_nodup : s.sent.Nodup
  received_nodup : s.received.Nodup
  addr : ∀ c, 0 < c → c < T.nprocs → s.pc c ≠ .recv →
    s.parentAddr c = some (computeEvpathAddr stone contact (T.parent c))

end

section
variable {T : Topology} {stone : Nat → Int} {contact : Nat → String} {s s' : Boot}

theorem next_sendPc {r i : Nat} (hi : i ≤ T.getDegreeNode r) : (sendPc T r (i + 1)).next T r = i + 1 := by
  unfold sendPc
  by_cases h : i + 1 ≤ T.getDegreeNode r
  · rw [if_pos h]; rfl
  · rw [if_neg h]
    change T.getDegreeNode r + 1 = i + 1
    omega

theorem sendPc_ne (r i : Nat) : sendPc T r i ≠ .recv ∧ sendPc T r i ≠ .compute := by
  unfold sendPc
  by_cases h : i ≤ T.getDegreeNode r
  · rw [if_pos h]; exact ⟨(fun h => by cases h), (fun h => by cases h)⟩
  · rw [if_neg h]; exact ⟨(fun h => by cases h), (fun h => by cases h)⟩

theorem afterRecv_ne (r : Nat) : afterRecv T r ≠ .recv ∧ ∀ i, afterRecv T r ≠ .send i := by
  unfold afterRecv
  by_cases h : T.isLeaf r = true
  · rw [if_pos h]; exact ⟨(fun h => by cases h), (fun i h => by cases h)⟩
  · rw [if_neg h]; exact ⟨(fun h => by cases h), (fun i h => by cases h)⟩

theorem next_afterRecv {r : Nat} (hr : 0 < r) (hn : r < T.nprocs) : (afterRecv T r).next T r = 1 := by
  unfold afterRecv
  by_cases h : T.isLeaf r = true
  · rw [if_pos h]
    change T.getDegreeNode r + 1 = 1
    rw [(T.isLeaf_iff (by omega) r).mp h]
  · rw [if_neg h]; rfl

theorem bootInv_init : BootInv T stone contact (bootInit T) where
  root := (afterRecv_ne 0).1
  sending r i h := by
    by_cases hr : r = 0
    · simp only [bootInit, if_pos hr] at h
      exact absurd h ((afterRecv_ne r).2 i)
    · simp only [bootInit, if_neg hr] at h
      cases h
  own r h := by
    obtain ⟨h1, h2, h3⟩ := h
    by_cases hr : r = 0
    · simp only [bootInit, if_pos hr, afterRecv, h3] at h2
      exact absurd rfl h2
    · simp only [bootInit, if_neg hr] at h1
      exact absurd rfl h1
  branch r h := by
    by_cases hr : r = 0
    · rw [hr]; exact T.root_not_leaf
    · simp only [bootInit, if_neg hr] at h
      cases h with
      | inl h => cases h
      | inr h => obtain ⟨i, h⟩ := h; cases h
  sent r c := by
    refine ⟨(fun h => by cases h), fun h => ?_⟩
    obtain ⟨-, hc, hlt⟩ := h
    rw [Topology.children, Finset.mem_Ico] at hc
    have : ((bootInit T).pc r).next T r = 1 := by
      by_cases hr : r = 0
      · simp only [bootInit, hr, afterRecv, T.root_not_leaf]
        rfl
      · simp only [bootInit, if_neg hr]
        rfl
    omega
  received r c := by
    refine ⟨(fun h => by cases h), fun h => ?_⟩
    obtain ⟨h0, -, -, h⟩ := h
    simp only [bootInit, if_neg (Nat.pos_iff_ne_zero.mp h0)] at h
    exact absurd rfl h
  matched x h := by cases h
  channel r c := by rw [if_neg fun h => by cases h.1]; rfl
  sent_nodup := List.nodup_nil
  received_nodup := List.nodup_nil
  addr c h0 _ h := by
    simp only [bootInit, if_neg (Nat.pos_iff_ne_zero.mp h0)] at h
    exact absurd rfl h

theorem update_next (pc : Nat → BootPc) {r : Nat} {p : BootPc} (h : p.next T r = (pc r).next T r) (q : Nat) :
    (Function.update pc r p q).next T q = (pc q).next T q := by
  by_cases hq : q = r
  · subst hq
    rw [Function.update_self, h]
  · rw [Function.update_of_ne hq]

theorem update_ne_recv (pc : Nat → BootPc) {r : Nat} {p : BootPc} (hp : p ≠ .recv) (hr : pc r ≠ .recv) (q : Nat) :
    Function.update pc r p q ≠ .recv ↔ pc q ≠ .recv := by
  by_cases hq : q = r
  · subst hq
    rw [Function.update_self]
    exact iff_of_true hp hr
  · rw [Function.update_of_ne hq]

theorem mem_snoc_pair {l : List (Nat × Nat)} {r c q d : Nat} :
    (q, d) ∈ l ++ [(r, c)] ↔ (q, d) ∈ l ∨ (q = r ∧ d = c) := by
  rw [List.mem_append, List.mem_singleton, Prod.mk.injEq]

theorem BootInv.pos_of_recv (h : BootInv T stone contact s) {c : Nat} (hc : s.pc c = .recv) : 0 < c := by
  rcases Nat.eq_zero_or_pos c with h0 | h0
  · subst h0; exact absurd hc h.root
  · exact h0

theorem BootInv.compute (h : BootInv T stone contact s) {r : Nat} (hr : s.pc r = .compute) :
    BootInv T stone contact { s with
      pc := Function.update s.pc r (sendPc T r 1)
      ownAddr := Function.update s.ownAddr r (some (computeEvpathAddr stone contact r)) } := by
  have hnext := update_next (T := T) s.pc (p := sendPc T r 1) (r := r) (by
    rw [hr]
    exact next_sendPc (Nat.zero_le _))
  have hrecv := update_ne_recv s.pc (r := r) (sendPc_ne (T := T) r 1).1 (by
    rw [hr]
    intro h
    cases h)
  constructor
  · exact (hrecv 0).mpr h.root
  · intro q i hi
    by_cases hq : q = r
    · subst hq
      simp only [Function.update_self, sendPc] at hi
      split at hi
      · cases hi
        exact ⟨Nat.le_refl _, by assumption⟩
      · cases hi
    · simp only [Function.update_of_ne hq] at hi
      exact h.sending q i hi
  · intro q hq
    by_cases hqr : q = r
    · subst hqr
      exact Function.update_self ..
    · simp only [Function.update_of_ne hqr] at hq ⊢
      exact h.own q hq
  · intro q hq
    by_cases hqr : q = r
    · rw [hqr]; exact h.branch r (Or.inl hr)
    · simp only [Function.update_of_ne hqr] at hq
      exact h.branch q hq
  · intro q c
    simp only [hnext]
    exact h.sent q c
  · intro q c
    rw [hrecv]
    exact h.received q c
  · exact h.matched
  · exact h.channel
  · exact h.sent_nodup
  · exact h.received_nodup
  · intro c h0 hn hc
    exact h.addr c h0 hn ((hrecv c).mp hc)

theorem mem_children_add {r i : Nat} (h1 : 1 ≤ i) (h2 : i ≤ T.getDegreeNode r) :
    r * T.maxDegree + i ∈ T.children r := by
  rw [Topology.children, Finset.mem_Ico]
  omega

theorem BootInv.send (h : BootInv T stone contact s) {r i : Nat} (hn : r < T.nprocs) (hr : s.pc r = .send i) :
    BootInv T stone contact (s.send T r i (computeEvpathAddr stone contact r)) := by
  obtain ⟨h1, h2⟩ := h.sending r i hr
  have hdst := mem_children_add h1 h2
  have hnew : (r, r * T.maxDegree + i) ∉ s.sent := by
    rw [h.sent, hr]
    intro hm
    exact absurd hm.2.2 (Nat.lt_irrefl _)
  have hrecv := update_ne_recv s.pc (r := r) (sendPc_ne (T := T) r (i + 1)).1 (by
    rw [hr]
    intro h
    cases h)
  unfold Boot.send
  constructor
  · exact (hrecv 0).mpr h.root
  · intro q j hj
    by_cases hq : q = r
    · subst hq
      simp only [Function.update_self, sendPc] at hj
      split at hj
      · cases hj
        exact ⟨by omega, by assumption⟩
      · cases hj
    · simp only [Function.update_of_ne hq] at hj
      exact h.sending q j hj
  · intro q hq
    by_cases hqr : q = r
    · subst hqr
      exact h.own q ⟨(by rw [hr]; intro h; cases h), (by rw [hr]; intro h; cases h), hq.2.2⟩
    · simp only [Function.update_of_ne hqr] at hq
      exact h.own q hq
  · intro q hq
    by_cases hqr : q = r
    · rw [hqr]; exact h.branch r (Or.inr ⟨i, hr⟩)
    · simp only [Function.update_of_ne hqr] at hq
      exact h.branch q hq
  · intro q c
    rw [mem_snoc_pair, h.sent]
    by_cases hq : q = r
    · subst hq
      simp only [Function.update_self]
      rw [next_sendPc h2, hr]
      refine ⟨?_, ?_⟩
      · intro hc
        cases hc with
        | inl hc => exact ⟨hn, hc.2.1, by have := hc.2.2; simp only [BootPc.next] at this; omega⟩
        | inr hc => rw [hc.2]; exact ⟨hn, hdst, by omega⟩
      · intro hc
        by_cases hci : c = q * T.maxDegree + i
        · exact Or.inr ⟨trivial, hci⟩
        · exact Or.inl ⟨hn, hc.2.1, by have := hc.2.2; simp only [BootPc.next]; omega⟩
    · simp only [Function.update_of_ne hq]
      exact ⟨fun hc => hc.resolve_right fun hc => hq hc.1, Or.inl⟩
  · intro q c
    rw [hrecv]
    exact h.received q c
  · intro x hx
    exact List.mem_append_left _ (h.matched x hx)
  · intro q c
    by_cases hqc : q = r ∧ c = r * T.maxDegree + i
    · obtain ⟨rfl, rfl⟩ := hqc
      have hin : (q, q * T.maxDegree + i) ∈ s.sent ++ [(q, q * T.maxDegree + i)] :=
        mem_snoc_pair.mpr (Or.inr ⟨rfl, rfl⟩)
      have hout : (q, q * T.maxDegree + i) ∉ s.received := fun hc => hnew (h.matched _ hc)
      simp only [and_self, if_true, h.channel, hnew, false_and, if_false, hin, hout, not_false_iff, List.nil_append]
    · simp only [if_neg hqc, h.channel]
      have : (q, c) ∈ s.sent ++ [(r, r * T.maxDegree + i)] ↔ (q, c) ∈ s.sent := by
        rw [mem_snoc_pair]
        exact or_iff_left hqc
      simp only [this]
  · show (s.sent ++ [(r, r * T.maxDegree + i)]).Nodup
    rw [← List.concat_eq_append]
    exact h.sent_nodup.concat hnew
  · exact h.received_nodup
  · intro c h0 hcn hc
    exact h.addr c h0 hcn ((hrecv c).mp hc)

theorem BootInv.receive (h : BootInv T stone contact s) {c : Nat} {addr : String} {rest : List String}
    (hn : c < T.nprocs) (hc : s.pc c = .recv) (hch : s.channel (T.parent c) c = addr :: rest) :
    BootInv T stone contact (s.receive T (T.parent c) c addr) := by
  have h0 := h.pos_of_recv hc
  rw [h.channel] at hch
  have hmem : (T.parent c, c) ∈ s.sent ∧ (T.parent c, c) ∉ s.received := by
    by_cases hm : (T.parent c, c) ∈ s.sent ∧ (T.parent c, c) ∉ s.received
    · exact hm
    · rw [if_neg hm] at hch; cases hch
  rw [if_pos hmem] at hch
  obtain ⟨rfl, -⟩ := List.cons.inj hch
  have hnext := update_next (T := T) s.pc (p := afterRecv T c) (r := c) (by
    rw [hc]
    exact next_afterRecv h0 hn)
  have hrecv : ∀ q, Function.update s.pc c (afterRecv T c) q ≠ .recv ↔ s.pc q ≠ .recv ∨ q = c := by
    intro q
    by_cases hq : q = c
    · subst hq
      rw [Function.update_self]
      exact ⟨fun _ => Or.inr rfl, fun _ => (afterRecv_ne q).1⟩
    · rw [Function.update_of_ne hq]
      exact ⟨Or.inl, fun hx => hx.resolve_right hq⟩
  unfold Boot.receive
  constructor
  · exact (hrecv 0).mpr (Or.inl h.root)
  · intro q i hi
    by_cases hq : q = c
    · subst hq
      simp only [Function.update_self] at hi
      exact absurd hi ((afterRecv_ne q).2 i)
    · simp only [Function.update_of_ne hq] at hi
      exact h.sending q i hi
  · intro q hq
    by_cases hqc : q = c
    · subst hqc
      simp only [Function.update_self, afterRecv, hq.2.2] at hq
      exact absurd rfl hq.2.1
    · simp only [Function.update_of_ne hqc] at hq
      exact h.own q hq
  · intro q hq
    by_cases hqc : q = c
    · subst hqc
      simp only [Function.update_self] at hq
      cases hl : T.isLeaf q with
      | false => rfl
      | true =>
        simp only [afterRecv, hl] at hq
        cases hq with
        | inl hq => cases hq
        | inr hq => obtain ⟨i, hq⟩ := hq; cases hq
    · simp only [Function.update_of_ne hqc] at hq
      exact h.branch q hq
  · intro q d
    simp only [hnext]
    exact h.sent q d
  · intro q d
    rw [mem_snoc_pair, h.received, hrecv]
    refine ⟨?_, ?_⟩
    · intro hd
      cases hd with
      | inl hd => exact ⟨hd.1, hd.2.1, hd.2.2.1, Or.inl hd.2.2.2⟩
      | inr hd => obtain ⟨rfl, rfl⟩ := hd; exact ⟨h0, hn, rfl, Or.inr rfl⟩
    · intro hd
      obtain ⟨h1, h2, h3, h4⟩ := hd
      cases h4 with
      | inl h4 => exact Or.inl ⟨h1, h2, h3, h4⟩
      | inr h4 => subst h4; exact Or.inr ⟨h3, rfl⟩
  · intro x hx
    obtain ⟨q, d⟩ := x
    cases mem_snoc_pair.mp hx with
    | inl hx => exact h.matched _ hx
    | inr hx => obtain ⟨rfl, rfl⟩ := hx; exact hmem.1
  · intro q d
    by_cases hqd : q = T.parent c ∧ d = c
    · obtain ⟨rfl, rfl⟩ := hqd
      have hin : (T.parent d, d) ∈ s.received ++ [(T.parent d, d)] := mem_snoc_pair.mpr (Or.inr ⟨rfl, rfl⟩)
      simp only [and_self, if_true, h.channel, hmem, not_false_iff, hin, not_true_eq_false, and_false, if_false,
        List.tail_cons]
    · simp only [if_neg hqd, h.channel]
      have : (q, d) ∈ s.received ++ [(T.parent c, c)] ↔ (q, d) ∈ s.received := by
        rw [mem_snoc_pair]
        exact or_iff_left hqd
      simp only [this]
  · exact h.sent_nodup
  · show (s.received ++ [(T.parent c, c)]).Nodup
    rw [← List.concat_eq_append]
    exact h.received_nodup.concat hmem.2
  · intro d hd0 hdn hd
    by_cases hdc : d = c
    · subst hdc
      exact Function.update_self ..
    · simp only [Function.update_of_ne hdc] at hd ⊢
      exact h.addr d hd0 hdn hd

/-! ## Every run -/

theorem getParent_toNat {c : Nat} (hc : 0 < c) : (T.getParent c).toNat = T.parent c := by
  rw [T.getParent_pos hc, Int.toNat_natCast]

theorem BootInv.own_of_send (h : BootInv T stone contact s) {r i : Nat} (hr : s.pc r = .send i) :
    s.ownAddr r = some (computeEvpathAddr stone contact r) :=
  h.own r ⟨(by rw [hr]; intro h; cases h), (by rw [hr]; intro h; cases h), h.branch r (Or.inr ⟨i, hr⟩)⟩

theorem BootInv.step (h : BootInv T stone contact s) {a : BootStep} (hs : bootStep T stone contact s a = some s') :
    BootInv T stone contact s' := by
  cases a with
  | compute r =>
    simp only [bootStep] at hs
    split at hs
    · rename_i hr
      cases hs
      exact h.compute hr.2
    · cases hs
  | sendBuffered r =>
    simp only [bootStep] at hs
    split at hs
    · rename_i i addr hr ho
      rw [h.own_of_send hr] at ho
      cases ho
      split at hs
      · rename_i hn
        cases hs
        exact h.send hn hr
      · cases hs
    · cases hs
  | recvBuffered c =>
    simp only [bootStep] at hs
    split at hs
    · rename_i addr rest hc hch
      rw [getParent_toNat (h.pos_of_recv hc)] at hch hs
      split at hs
      · rename_i hn
        cases hs
        exact h.receive hn hc hch
      · cases hs
    · cases hs
  | rendezvous r =>
    simp only [bootStep] at hs
    split at hs
    · rename_i i addr hr ho
      rw [h.own_of_send hr] at ho
      cases ho
      split at hs
      · rename_i hg
        obtain ⟨hn, hd, hc, hp, hch⟩ := hg
        cases hs
        -- a send into the buffer, and the receive from it
        have h0 := h.pos_of_recv hc
        have hpar : T.parent (r * T.maxDegree + i) = r := by
          have := T.getParent_pos h0
          rw [hp] at this
          exact (Int.ofNat_inj.mp this).symm
        have hne : r * T.maxDegree + i ≠ r := by
          intro he
          have := T.parent_lt h0
          omega
        have hm := h.send hn hr
        have := @BootInv.receive T stone contact _ hm (r * T.maxDegree + i) (computeEvpathAddr stone contact r) [] hd
          (by simp only [Boot.send, Function.update_of_ne hne, hc]) (by simp [Boot.send, hpar, hch])
        rw [hpar] at this
        exact this
      · cases hs
    · cases hs

theorem bootInv_exec {as : List BootStep}
    (hs : Transition.exec (bootStep T stone contact) (bootInit T) as = some s) :
    BootInv T stone contact s :=
  Transition.exec_invariant _ (fun _ _ _ h hs => h.step hs) bootInv_init hs

theorem BootInv.progress (h : BootInv T stone contact s) (hn : ∃ r, r < T.nprocs ∧ s.pc r ≠ .barrier) :
    ∃ a s', (∀ r, a ≠ .sendBuffered r) ∧ bootStep T stone contact s a = some s' := by
  obtain ⟨r, ⟨hr, hb⟩, hmin⟩ : ∃ r, (r < T.nprocs ∧ s.pc r ≠ .barrier) ∧
      ∀ m < r, ¬ (m < T.nprocs ∧ s.pc m ≠ .barrier) :=
    ⟨Nat.find hn, Nat.find_spec hn, fun m hm => Nat.find_min hn hm⟩
  cases hpc : s.pc r with
  | barrier => exact absurd hpc hb
  | compute => exact ⟨.compute r, _, (fun q h => by cases h), if_pos ⟨hr, hpc⟩⟩
  | recv =>
    -- the parent is at the barrier, so its message has been sent
    have h0 := h.pos_of_recv hpc
    have hlt := T.parent_lt h0
    have hpar : s.pc (T.parent r) = .barrier := by
      by_cases hp : s.pc (T.parent r) = .barrier
      · exact hp
      · exact absurd ⟨by omega, hp⟩ (hmin _ hlt)
    have hchild : r ∈ T.children (T.parent r) := T.mem_children.mpr ⟨h0, hr, rfl⟩
    have hsent : (T.parent r, r) ∈ s.sent := by
      rw [h.sent, hpar]
      refine ⟨by omega, hchild, ?_⟩
      rw [Topology.children, Finset.mem_Ico] at hchild
      simp only [BootPc.next]
      omega
    have hch := h.channel (T.parent r) r
    rw [if_pos ⟨hsent, fun hx => ((h.received _ _).mp hx).2.2.2 hpc⟩] at hch
    refine ⟨.recvBuffered r, s.receive T (T.parent r) r (computeEvpathAddr stone contact (T.parent r)),
      (fun q h => by cases h), ?_⟩
    simp only [bootStep, hpc, getParent_toNat h0, hch, if_pos hr]
  | send i =>
    -- the child has not received, so it waits for this very message
    obtain ⟨h1, h2⟩ := h.sending r i hpc
    have hchild := mem_children_add h1 h2
    obtain ⟨h0, hd, hp⟩ := T.mem_children.mp hchild
    have hnot : (r, r * T.maxDegree + i) ∉ s.sent := by
      rw [h.sent, hpc]
      intro hm
      exact absurd hm.2.2 (Nat.lt_irrefl _)
    have hc : s.pc (r * T.maxDegree + i) = .recv := by
      by_cases hc : s.pc (r * T.maxDegree + i) = .recv
      · exact hc
      · exact absurd (h.matched _ ((h.received _ _).mpr ⟨h0, hd, hp.symm, hc⟩)) hnot
    have hch : s.channel r (r * T.maxDegree + i) = [] := by
      rw [h.channel, if_neg fun hx => hnot hx.1]
    have hgp : T.getParent (r * T.maxDegree + i) = (r : Int) := by rw [T.getParent_pos h0, hp]
    let addr := computeEvpathAddr stone contact r
    refine ⟨.rendezvous r, (s.send T r i addr).receive T r (r * T.maxDegree + i) addr, (fun q h => by cases h), ?_⟩
    simp only [bootStep, hpc, h.own_of_send hpc]
    exact if_pos ⟨hr, hd, hc, hgp, hch⟩

theorem BootInv.complete (h : BootInv T stone contact s) (hb : ∀ r, r < T.nprocs → s.pc r = .barrier) (r c : Nat) :
    ((r, c) ∈ s.sent ↔ 0 < c ∧ c < T.nprocs ∧ r = T.parent c) ∧
      ((r, c) ∈ s.received ↔ 0 < c ∧ c < T.nprocs ∧ r = T.parent c) := by
  refine ⟨?_, ?_⟩
  · rw [h.sent]
    refine ⟨?_, ?_⟩
    · intro hm
      obtain ⟨h1, h2, h3⟩ := T.mem_children.mp hm.2.1
      exact ⟨h1, h2, h3.symm⟩
    · intro hm
      obtain ⟨h1, h2, h3⟩ := hm
      have hc : c ∈ T.children r := T.mem_children.mpr ⟨h1, h2, h3.symm⟩
      have hlt := T.lt_of_mem_children hc
      refine ⟨by omega, hc, ?_⟩
      rw [hb r (by omega)]
      rw [Topology.children, Finset.mem_Ico] at hc
      simp only [BootPc.next]
      omega
  · rw [h.received]
    refine ⟨?_, ?_⟩
    · intro hm
      exact ⟨hm.1, hm.2.1, hm.2.2.1⟩
    · intro hm
      refine ⟨hm.1, hm.2.1, hm.2.2, ?_⟩
      rw [hb c hm.2.1]
      exact fun h => by cases h

/-- No state before the barrier is stuck, also when no send is buffered; sends and
receives match one to one; and a rank at the barrier has its parent's address. -/
theorem bootstrap_delivers {as : List BootStep}
    (hs : Transition.exec (bootStep T stone contact) (bootInit T) as = some s) :
    ((∃ r, r < T.nprocs ∧ s.pc r ≠ .barrier) →
      ∃ a s', (∀ r, a ≠ .sendBuffered r) ∧ bootStep T stone contact s a = some s') ∧
    (s.sent.Nodup ∧ s.received.Nodup ∧ (∀ x ∈ s.received, x ∈ s.sent) ∧
      ((∀ r, r < T.nprocs → s.pc r = .barrier) → s.sent.Perm s.received ∧
        ∀ r c : Nat, (r, c) ∈ s.received ↔ 0 < c ∧ c < T.nprocs ∧ (r : Int) = T.getParent c)) ∧
    ∀ r p : Nat, 0 < r → r < T.nprocs → s.pc r = .barrier → (p : Int) = T.getParent r →
      s.ownAddr p = some (computeEvpathAddr stone contact p) ∧ s.parentAddr r = s.ownAddr p := by
  have h := bootInv_exec hs
  refine ⟨h.progress, ⟨h.sent_nodup, h.received_nodup, h.matched, fun hb => ⟨?_, fun r c => ?_⟩⟩, ?_⟩
  · rw [List.perm_ext_iff_of_nodup h.sent_nodup h.received_nodup]
    intro x
    obtain ⟨r, c⟩ := x
    rw [(h.complete hb r c).1, (h.complete hb r c).2]
  · rw [(h.complete hb r c).2]
    refine and_congr_right fun h0 => and_congr_right fun _ => ?_
    rw [T.getParent_pos h0, Int.ofNat_inj]
  · intro r p h0 hr hb hp
    rw [T.getParent_pos h0, Int.ofNat_inj] at hp
    subst hp
    have hne : s.pc r ≠ .recv := by rw [hb]; intro h; cases h
    -- the parent has sent, so it has left `recv` and `compute`
    have hsent := h.matched _ ((h.received (T.parent r) r).mpr ⟨h0, hr, rfl, hne⟩)
    rw [h.sent] at hsent
    have hchild := hsent.2.1
    rw [Topology.children, Finset.mem_Ico] at hchild
    have hown := h.own (T.parent r) ⟨?_, ?_, T.parent_not_leaf h0 hr⟩
    · exact ⟨hown, by rw [hown, h.addr r h0 hr hne]⟩
    · intro hpc
      rw [hpc] at hsent
      simp only [BootPc.next] at hsent
      omega
    · intro hpc
      rw [hpc] at hsent
      simp only [BootPc.next] at hsent
      omega

end

def bootTwoLeaves : List BootStep := [.compute 0, .sendBuffered 0, .rendezvous 0, .recvBuffered 1]

theorem bootstrap_delivers_twoLeaves :
    ∃ s, Transition.exec (bootStep twoLeaves (fun _ => 4) fun _ => "contact") (bootInit twoLeaves) bootTwoLeaves =
      some s ∧ (∀ r, r < 3 → s.pc r = .barrier) ∧ ∀ r p : Nat, 0 < r → r < 3 → s.pc r = .barrier →
        (p : Int) = twoLeaves.getParent r →
          s.ownAddr p = some (computeEvpathAddr (fun _ => 4) (fun _ => "contact") p) ∧
            s.parentAddr r = s.ownAddr p := by
  refine ⟨_, rfl, by decide, ?_⟩
  exact (@bootstrap_delivers twoLeaves _ _ _ bootTwoLeaves rfl).2.2

end Clarisse
