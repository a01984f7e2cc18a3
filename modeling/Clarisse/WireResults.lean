import Clarisse.Aggregation
import Clarisse.WireFormat

/-!
# The tree on the wire

The longs travel as doubles from the leaves to the root. As long as the values of a
metric are not negative and add up to at most `2 ^ 53` over all ranks, the bits that
every script computes are those of the longs.
-/

namespace Clarisse

open Interleave

def Aggregators.wire (g : Aggregators) : WireAggregators :=
  ⟨BitVec.ofInt 64 g.min, BitVec.ofInt 64 g.max, BitVec.ofInt 64 g.sum⟩

structure Aggregators.Small (g : Aggregators) : Prop where
  min : 0 ≤ g.min ∧ g.min ≤ 2 ^ 53
  max : 0 ≤ g.max ∧ g.max ≤ 2 ^ 53
  sum : 0 ≤ g.sum ∧ g.sum ≤ 2 ^ 53

theorem toInt_ofInt_small {z : Int} (h : 0 ≤ z ∧ z ≤ 2 ^ 53) : (BitVec.ofInt 64 z).toInt = z :=
  BitVec.toInt_ofInt_eq_self (by decide) (by omega) (by omega)

theorem WireAggregators.wire_read (g : WireAggregators) : g.read.wire = g := by
  simp [WireAggregators.read, Aggregators.wire]

theorem Aggregators.Small.read {g : Aggregators} (h : g.Small) : g.wire.read = g := by
  simp only [WireAggregators.read, Aggregators.wire, toInt_ofInt_small h.min, toInt_ofInt_small h.max,
    toInt_ofInt_small h.sum]

theorem Aggregators.Small.plain {g : Aggregators} (h : g.Small) : g.wire.Plain := by
  have hinf : (2 : Int) ^ 53 ≤ infinity64 := by decide
  constructor
  · rw [Aggregators.wire, toInt_ofInt_small h.min]
    exact ⟨h.min.1, h.min.2.trans hinf⟩
  · rw [Aggregators.wire, toInt_ofInt_small h.max]
    exact ⟨h.max.1, h.max.2.trans hinf⟩
  · rw [Aggregators.wire, toInt_ofInt_small h.sum]
    exact h.sum.1

theorem foldl_merge_sum (l : List Aggregators) (g : Aggregators) :
    (l.foldl Aggregators.merge g).sum = g.sum + (l.map Aggregators.sum).sum := by
  induction l generalizing g with
  | nil => simp
  | cons a l ih => simp [ih, Aggregators.merge, add_assoc]

theorem wireFold_iff {g : Aggregators} {l : List Aggregators} (hg : g.Small) (hl : ∀ a ∈ l, a.Small)
    (hsum : (l.foldl Aggregators.merge g).sum ≤ 2 ^ 53) {s : WireAggregators} :
    WireFold g.wire (l.map Aggregators.wire) s ↔ s = (l.foldl Aggregators.merge g).wire := by
  have hread : (l.map Aggregators.wire).map WireAggregators.read = l := by
    rw [List.map_map]
    conv_rhs => rw [← List.map_id l]
    exact List.map_congr_left fun a ha => (hl a ha).read
  have hsums : ((l.map Aggregators.wire).map fun a => a.sum.toInt) = l.map Aggregators.sum := by
    rw [List.map_map]
    exact List.map_congr_left fun a ha => toInt_ofInt_small (hl a ha).sum
  have hplain : ∀ a ∈ l.map Aggregators.wire, a.Plain := by
    intro a ha
    obtain ⟨x, hx, rfl⟩ := List.mem_map.mp ha
    exact (hl x hx).plain
  have hle : g.wire.sum.toInt + ((l.map Aggregators.wire).map fun a => a.sum.toInt).sum ≤ 2 ^ 53 := by
    rw [hsums, Aggregators.wire, toInt_ofInt_small hg.sum, ← foldl_merge_sum]
    exact hsum
  obtain ⟨⟨t, ht⟩, hall⟩ := WireFold.read_eq hg.plain hplain hle
  have hresult : ∀ s, WireFold g.wire (l.map Aggregators.wire) s → s = (l.foldl Aggregators.merge g).wire := by
    intro s hs
    have := hall s hs
    rw [hread, hg.read] at this
    rw [← this, WireAggregators.wire_read]
  refine ⟨hresult s, ?_⟩
  rintro rfl
  rwa [← hresult t ht]

/-! ## Up the tree -/

section
variable {T : Topology} {E : Nat → Nat → When → Sampling} {n k j r : Nat} {v : Nat → Nat → Nat → Int} {σ : Net}

theorem Healthy.arrived_digests (h : Healthy T E (0 < ·) (fun r k => Measured n (v r k)) σ) (h2 : 2 ≤ T.nprocs)
    (hE : ∀ r, Samples (E r) (0 < ·) (fun k => Measured n (v r k)) (fun k => Measured n (v r k)))
    (hl : T.isLeaf r = false) : ∀ x ∈ (σ.node r).arrived, Digests n v (T.part r x.1) x.2 := by
  rintro ⟨i, e⟩ hx
  have hmem := h.arrivedTag r hl _ hx
  cases i with
  | some c =>
    have hc := mem_sources.mp hmem
    exact h.digests h2 hE c (T.lt_of_mem_children hc).2 e ((h.arrivedLe r c hc).subset (mem_stream.mpr hx))
  | none =>
    have hown := (h.arrivedOwn r).subset (mem_stream.mpr hx)
    have hs := (h.ownContent h2 hE hl).submitted _ e (getElem?_of_mem (h.inner h2 hl).own.stamped hown)
    exact hs.1.digests

theorem small_of_digest {f : Nat → Int} {X : Finset Nat} {g : Aggregators} (hX : X ⊆ Finset.range T.nprocs)
    (hf : ∀ r, 0 ≤ f r) (hsum : ∑ r ∈ Finset.range T.nprocs, f r ≤ 2 ^ 53) (hg : Digest.Of f X g.digest) :
    g.Small := by
  have hle : ∀ r ∈ X, f r ≤ 2 ^ 53 := fun r hr =>
    (Finset.single_le_sum (fun i _ => hf i) (hX hr)).trans hsum
  obtain ⟨⟨a, ha, hmin⟩, -⟩ := hg.min
  obtain ⟨⟨b, hb, hmax⟩, -⟩ := hg.max
  constructor
  · change f a = g.min at hmin
    rw [← hmin]
    exact ⟨hf a, hle a ha⟩
  · change f b = g.max at hmax
    rw [← hmax]
    exact ⟨hf b, hle b hb⟩
  · have hs : g.sum = ∑ r ∈ X, f r := hg.sum
    rw [hs]
    exact ⟨Finset.sum_nonneg fun i _ => hf i,
      (Finset.sum_le_sum_of_subset_of_nonneg hX fun i _ _ => hf i).trans hsum⟩

theorem part_subset {i : Option Nat} (hr : r < T.nprocs) : T.part r i ⊆ Finset.range T.nprocs := by
  intro x hx
  cases i with
  | none =>
    rw [Finset.mem_singleton.mp hx]
    exact Finset.mem_range.mpr hr
  | some c => exact Finset.mem_range.mpr (Topology.mem_subtree.mp hx).1

/-- On the bits that the children and the rank itself have sent for a pulse, the script of an
inner rank computes those of its event, and every reader finds the longs again. -/
theorem wire_columns (h2 : 2 ≤ T.nprocs) (hn : 1 ≤ n) (hE : ∀ r, Measures (E r) n (v r))
    (hv : ∀ r k j, 0 ≤ v r k j) (hsum : ∀ k, ∀ j < n, ∑ r ∈ Finset.range T.nprocs, v r k j ≤ 2 ^ 53)
    (hσ : Reachable T E σ) :
    ∀ r, r < T.nprocs → T.isLeaf r = false → ∀ k e, (σ.out T r)[k]? = some e → ∀ j < n,
      ∃ first rest, eventsAt k ((σ.node r).arrived.map Prod.snd) = first :: rest ∧
        (∀ x ∈ first :: rest, (x.column j).wire.read = x.column j) ∧
          (∀ s, WireFold (first.column j).wire (rest.map fun x => (x.column j).wire) s ↔ s = (e.column j).wire) ∧
            (e.column j).wire.read = e.column j := by
  intro r hr hl k e he j hj
  have hS := fun r => (hE r).samples hn
  have h := hσ.healthy h2 hS
  have hin := h.inner h2 hl
  have hsmall : ∀ x ∈ eventsAt k ((σ.node r).arrived.map Prod.snd), (x.column j).Small ∧ x.metricsNr = n := by
    intro x hx
    rw [eventsAt, ← level_items, List.mem_map] at hx
    obtain ⟨y, hy, rfl⟩ := hx
    have hd := h.arrived_digests h2 hS hl y (List.mem_filter.mp hy).1
    exact ⟨small_of_digest (part_subset hr) (fun r => hv r _ j) (hsum _ j hj) (hd.column j hj), hd.metricsNr⟩
  have hsmallE : (e.column j).Small := by
    have hd := h.digests h2 hS r hr e (List.mem_of_getElem? he)
    exact small_of_digest (fun x hx => Finset.mem_range.mpr (Topology.mem_subtree.mp hx).1) (fun r => hv r _ j)
      (hsum _ j hj) (hd.column j hj)
  rw [NetOf.out, hl] at he
  obtain ⟨hagg, hlen⟩ := hin.settled.submitted_at he
  cases hev : eventsAt k ((σ.node r).arrived.map Prod.snd) with
  | nil =>
    rw [hev] at hlen
    cases hlen
  | cons first rest =>
    rw [hev] at hsmall hagg
    have hcol := aggregate_column false k first rest j fun x hx => by
      rw [(hsmall x hx).2]
      exact Int.ofNat_lt.mpr hj
    rw [← hagg] at hcol
    have hfold : e.column j = (rest.map fun x => x.column j).foldl Aggregators.merge (first.column j) := by
      rw [hcol, List.foldl_map]
    refine ⟨first, rest, rfl, fun x hx => (hsmall x hx).1.read, fun s => ?_, hsmallE.read⟩
    have hrest : ∀ a ∈ rest.map fun x => x.column j, a.Small := by
      intro a ha
      obtain ⟨x, hx, rfl⟩ := List.mem_map.mp ha
      exact (hsmall x (List.mem_cons_of_mem _ hx)).1
    have hiff := wireFold_iff (s := s) (hsmall first (List.mem_cons_self ..)).1 hrest (hfold ▸ hsmallE.sum.2)
    rw [← hfold, List.map_map] at hiff
    exact hiff

end

theorem wire_columns_chain : ∃ e, (afterChainPulse.out chain 0)[0]? = some e ∧ ∃ first rest,
    eventsAt 0 ((afterChainPulse.node 0).arrived.map Prod.snd) = first :: rest ∧
      (∀ x ∈ first :: rest, (x.column 0).wire.read = x.column 0) ∧
        (∀ s, WireFold (first.column 0).wire (rest.map fun x => (x.column 0).wire) s ↔ s = (e.column 0).wire) ∧
          (e.column 0).wire.read = e.column 0 :=
  ⟨_, rfl, @wire_columns chain loads 1 (fun r _ _ => r) afterChainPulse (by decide) (Nat.le_refl 1) measures_loads
    (fun r _ _ => Int.natCast_nonneg r) (fun _ _ _ => by decide) ⟨chainPulse, rfl⟩ 0 (by decide) (by decide) 0 _ rfl 0
    (by decide)⟩

end Clarisse
