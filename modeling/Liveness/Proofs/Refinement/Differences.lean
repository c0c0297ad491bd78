import Liveness.Proofs.Closure.Spans
import Liveness.Proofs.Refinement.Costs

/-! # Detaching Allocs keeps differences of cost

An Alloc that is left out costs the same in every valid order, an Op that is left out of an
Alloc is inside its span in every valid order, and Allocs of the same Ops cost together what
they cost apart. So the passes over Allocs do not change which of two valid orders is cheaper,
nor by how much.
-/

namespace Liveness

open Success

variable {W : Type} [Weight W] {g h : Graph W} {order s t : List Nat} {a r : Nat} {c : Closure}
  {result : Refined W}

namespace Graph

omit [Weight W] in
theorem SameOrder.validOrder_iff (hs : g.SameOrder h) : h.ValidOrder order ↔ g.ValidOrder order := by
  rw [Graph.validOrder_iff, Graph.validOrder_iff]
  simp only [hs.opCount, hs.outs, hs.fwdLink]

omit [Weight W] in
/-- An order that is valid for a graph keeps the closure of any of its constraints. -/
theorem ValidOrder.keptBy {edges : Edges} (ho : g.ValidOrder order)
    (hc : Closure.ofEdges edges = .ok c) (hn : edges.size = g.opCount)
    (he : ∀ {a b}, b ∈ edges.outs a → b ∈ (g.op a).outs) : c.KeptBy order :=
  (Closure.ofEdges_eq_ok.mp hc).2.2.keptBy (hn ▸ ho.perm) fun hp =>
    hp.rank_lt fun hb => ho.before (he hb)

theorem mem_innerPairs (hg : g.Supplied) (hr : r < g.allocCount) :
    (a, r) ∈ (g.allocs.toList.flatMap fun alloc =>
      (innerOps c alloc).map fun a => (a, alloc.address)) ↔ a ∈ innerOps c (g.alloc r) := by
  simp only [List.mem_flatMap, List.mem_map, Prod.mk.injEq]
  constructor
  · rintro ⟨alloc, hm, x, hx, rfl, rfl⟩
    rwa [(hg.address_lt hm).2]
  · intro ha
    have hlt : r < g.allocs.size := hr
    have hm : g.alloc r ∈ g.allocs.toList := by
      simp [alloc, Array.getD, hlt]
    exact ⟨g.alloc r, hm, a, ha, rfl, hg.alloc_address r hr⟩

variable [ExactWeight W]

def SameDifference (g h : Graph W) (s t : List Nat) : Prop :=
  g.totalLiveness s.idxOf - g.totalLiveness t.idxOf =
    h.totalLiveness s.idxOf - h.totalLiveness t.idxOf

theorem dropWhere_differences {p : Alloc W → Bool} (hg : g.Supplied)
    (hp : ∀ alloc, p alloc = true → (∀ a ∈ alloc.ops, a < g.opCount) →
      (spanOf (alloc.ops.map s.idxOf) : Int) • alloc.weight =
        (spanOf (alloc.ops.map t.idxOf) : Int) • alloc.weight)
    (h' : g.dropWhere p = .ok result) : g.SameDifference result.graph s t := by
  obtain ⟨k, hk, h'⟩ := bind_eq_ok.mp h'
  obtain rfl := pure_eq_ok.mp h'
  obtain ⟨-, -, htotal⟩ := foldlM_releaseAll (hg.nodup_addresses List.filter_sublist) hk
  have hsame : (g.allocsWhere p).map (g.allocLiveness s.idxOf) =
      (g.allocsWhere p).map (g.allocLiveness t.idxOf) := by
    apply List.map_congr_left
    intro r hr
    obtain ⟨alloc, hm, rfl⟩ := List.mem_map.mp hr
    obtain ⟨hm, hpa⟩ := List.mem_filter.mp hm
    have halloc := (hg.address_lt hm).2
    rw [allocLiveness, allocLiveness, halloc]
    exact hp alloc hpa fun a ha => hg.ops_lt (halloc.symm ▸ ha)
  unfold SameDifference
  rw [← htotal s.idxOf, ← htotal t.idxOf, ← allocsWhere, hsame, add_sub_add_right_eq_sub]

theorem dropWeightless_differences (hg : g.Supplied) (h' : g.dropWeightless = .ok result) :
    g.SameDifference result.graph s t := by
  apply dropWhere_differences hg (fun alloc hp _ => ?_) h'
  have hzero : Weight.same alloc.weight 0 = true := (Bool.and_eq_true_iff.mp hp).2
  rw [ExactWeight.toExactLaws.eq_of_order (beq_iff_eq.mp hzero), smul_zero, smul_zero]

theorem dropSolitary_differences (hg : g.Supplied) (h' : g.dropSolitary = .ok result) :
    g.SameDifference result.graph s t := by
  apply dropWhere_differences hg (fun alloc hp _ => ?_) h'
  obtain ⟨a, ha⟩ := List.length_eq_one_iff.mp (beq_iff_eq.mp hp)
  have hone : ∀ order : List Nat, spanOf (alloc.ops.map order.idxOf) = 1 := fun order => by
    rw [ha]
    exact (Ends.spanOf_eq ⟨List.mem_singleton_self _, List.mem_singleton_self _, by simp⟩).trans
      (by rw [Nat.sub_self])
  rw [hone, hone]

theorem dropFixed_differences (hg : g.Supplied) (hs : c.KeptBy s) (ht : c.KeptBy t)
    (hn : c.size = g.opCount) (h' : g.dropFixed c = .ok result) :
    g.SameDifference result.graph s t := by
  apply dropWhere_differences hg (fun alloc hp hops => ?_) h'
  have hfixed : (c.spanBound alloc.ops).high = (c.spanBound alloc.ops).low + 1 :=
    beq_iff_eq.mp (Bool.and_eq_true_iff.mp hp).2
  have hspan : ∀ {order}, c.KeptBy order →
      spanOf (alloc.ops.map order.idxOf) = (c.spanBound alloc.ops).low := fun hk => by
    have hlt : ∀ a ∈ alloc.ops, a < c.size := hn ▸ hops
    have := hk.spanOf_bounds hlt
    omega
  rw [hspan hs, hspan ht]

/-- Releasing Ops that are inside the spans of their Allocs keeps the total liveness. -/
theorem dropInner_totalLiveness (hg : g.WellFormed) (hk : c.KeptBy order)
    (h' : g.dropInner c = .ok result) :
    result.graph.totalLiveness order.idxOf = g.totalLiveness order.idxOf := by
  obtain ⟨k, hk', h'⟩ := bind_eq_ok.mp h'
  obtain rfl := pure_eq_ok.mp h'
  obtain ⟨hcount, halloc⟩ := foldlM_release hg hk'
  rw [totalLiveness_eq, totalLiveness_eq, hcount]
  apply Finset.sum_congr rfl
  intro r hr
  obtain ⟨hweight, hops⟩ := halloc r
  let keep (a : Nat) : Bool := !(innerOps c (g.alloc r)).contains a
  have hmem : ∀ a, a ∈ (k.alloc r).ops ↔ a ∈ (g.alloc r).ops.filter keep := by
    intro a
    rw [hops, mem_innerPairs hg.toSupplied (Finset.mem_range.mp hr), List.mem_filter]
    simp [keep]
  have hspan : spanOf ((k.alloc r).ops.map order.idxOf) =
      spanOf (((g.alloc r).ops.filter keep).map order.idxOf) :=
    spanOf_congr fun p => by simp only [List.mem_map, hmem]
  rw [allocLiveness, allocLiveness, hweight, hspan, hk.spanOf_filter]
  intro a _ hno
  have hinner : a ∈ innerOps c (g.alloc r) := by simpa [keep] using hno
  exact Closure.extremes_never (beq_iff_eq.mp (List.mem_filter.mp hinner).2)

end Graph

/-- With exact weights, leaving out Allocs without weight, of a single Op or of a fixed span,
releasing Ops that are always inside, and taking together Allocs with the same Ops all add the
same to the total liveness of every valid order, whichever constraints the closure knows. So
any two valid orders differ in cost as they did before. -/
theorem Draft.run_differences [ExactWeight W] [FiniteWeight W] {d : Draft W} {edges : Edges}
    (hg : d.graph.Built) (hc : Closure.ofEdges edges = .ok d.closure)
    (hn : edges.size = d.graph.opCount)
    (he : ∀ {a b}, b ∈ edges.outs a → b ∈ (d.graph.op a).outs) {pass : Pass}
    (hp : pass ∈ [.dropWeightless, .dropSolitary, .dropInner, .dropFixed, .combine]) :
    ∃ result, d.run pass = .ok result ∧
      (∀ order, result.graph.ValidOrder order ↔ d.graph.ValidOrder order) ∧
      ∀ s t, d.graph.ValidOrder s → d.graph.ValidOrder t →
        d.graph.totalLiveness s.idxOf - d.graph.totalLiveness t.idxOf =
          result.graph.totalLiveness s.idxOf - result.graph.totalLiveness t.idxOf := by
  have hwf := hg.wellFormed
  have hsize : d.closure.size = d.graph.opCount :=
    (Closure.ofEdges_eq_ok.mp hc).2.2.size.trans hn
  have hkept : ∀ {order}, d.graph.ValidOrder order → d.closure.KeptBy order :=
    fun ho => ho.keptBy hc hn he
  suffices hrun : ∃ result, d.run pass = .ok result ∧ d.graph.SameOrder result.graph ∧
      ∀ s t, d.graph.ValidOrder s → d.graph.ValidOrder t →
        d.graph.SameDifference result.graph s t by
    obtain ⟨result, hr, hsame, hd⟩ := hrun
    exact ⟨result, hr, fun _ => hsame.validOrder_iff, hd⟩
  simp only [List.mem_cons, List.not_mem_nil, or_false] at hp
  rcases hp with rfl | rfl | rfl | rfl | rfl
  · obtain ⟨result, hr⟩ := Graph.dropWhere_succeeds hwf.toSupplied _
    exact ⟨result, hr, (Graph.dropWhere_reallocates hwf hr).toSameOrder,
      fun _ _ _ _ => Graph.dropWeightless_differences hwf.toSupplied hr⟩
  · obtain ⟨result, hr⟩ := Graph.dropWhere_succeeds hwf.toSupplied _
    exact ⟨result, hr, (Graph.dropWhere_reallocates hwf hr).toSameOrder,
      fun _ _ _ _ => Graph.dropSolitary_differences hwf.toSupplied hr⟩
  · obtain ⟨result, hr⟩ := Graph.dropInner_succeeds hwf.toSupplied d.closure
    refine ⟨result, hr, (Graph.dropInner_reallocates hwf hr).toSameOrder, fun s t hs ht => ?_⟩
    unfold Graph.SameDifference
    rw [Graph.dropInner_totalLiveness hwf (hkept hs) hr,
      Graph.dropInner_totalLiveness hwf (hkept ht) hr]
  · obtain ⟨result, hr⟩ := Graph.dropWhere_succeeds hwf.toSupplied _
    exact ⟨result, hr, (Graph.dropWhere_reallocates hwf hr).toSameOrder,
      fun _ _ hs ht => Graph.dropFixed_differences hwf.toSupplied (hkept hs) (hkept ht) hsize hr⟩
  · obtain ⟨result, hr⟩ := Graph.combine_succeeds hwf.toSupplied
    refine ⟨result, hr, (Graph.combine_reallocates hwf hr).toSameOrder, fun _ _ _ _ => ?_⟩
    unfold Graph.SameDifference
    rw [Graph.combine_totalLiveness hwf.toSupplied hr, Graph.combine_totalLiveness hwf.toSupplied hr]

section Guest

open Numbers Liveness.Graph

/-- A chain of three Ops that need an Alloc, and a further Op that needs one together with the
Op in the middle. -/
def Graph.chainAndGuest : Graph (Tiered Int) :=
  let ordered := (empty.addOps ["a", "b", "c", "d"]).connectAll [(0, 1), (1, 2)]
  let weighed := (ordered.addAlloc (.onTier 5 0)).addAlloc (.onTier (-2) 1)
  (weighed.attachAll [0, 1, 2] 0).attachAll [1, 3] 1

theorem Graph.chainAndGuest_built : chainAndGuest.Built := by
  have hordered : ((empty.addOps ["a", "b", "c", "d"]).connectAll [(0, 1), (1, 2)] :
      Graph (Tiered Int)).Built := (Built.empty.addOps _).connectAll (by decide)
  have hweighed := (hordered.addAlloc (.onTier 5 0)).addAlloc (.onTier (-2) 1)
  exact (hweighed.attachAll (by decide) (by decide)).attachAll (by decide) (by decide)

/-- The Op in the middle of the chain can be released without an effect on costs. -/
theorem Draft.chainAndGuest_differences : ∃ d : Draft (Tiered Int), d.graph = chainAndGuest ∧
    ∃ result, d.run .dropInner = .ok result ∧ result.changed = true ∧
      chainAndGuest.totalLiveness [0, 1, 2, 3].idxOf -
          chainAndGuest.totalLiveness [0, 3, 1, 2].idxOf =
        result.graph.totalLiveness [0, 1, 2, 3].idxOf -
          result.graph.totalLiveness [0, 3, 1, 2].idxOf := by
  let closure : Closure :=
    ⟨4, #v[#v[0], #v[1], #v[3], #v[0]], #v[#v[6], #v[4], #v[0], #v[0]]⟩
  let d : Draft (Tiered Int) := ⟨chainAndGuest, closure, #[]⟩
  have hc : Closure.ofEdges chainAndGuest.edges = .ok d.closure := by decide +kernel
  have hchanged : (d.run .dropInner).map Refined.changed = .ok true := by decide +kernel
  have hp : Pass.dropInner ∈
      [Pass.dropWeightless, .dropSolitary, .dropInner, .dropFixed, .combine] := by decide
  obtain ⟨result, hr, -, hd⟩ := run_differences (d := d) chainAndGuest_built hc
    (size_edges _) (fun hb => outs_edges chainAndGuest _ ▸ hb) hp
  rw [hr] at hchanged
  exact ⟨d, rfl, result, hr, Except.ok.inj hchanged, hd _ _ (by decide) (by decide)⟩

end Guest

end Liveness
