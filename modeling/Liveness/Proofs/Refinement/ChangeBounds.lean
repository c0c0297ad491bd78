import Liveness.Proofs.Schedule.Cheapest
import Liveness.Proofs.Closure.Spans
import Liveness.Proofs.Refinement.RoundSuccess

/-! # The bounds hold

An Op is always, sometimes or never the first of an Alloc, as the closure knows, and so for the
last. Where the Ops scheduled so far include what has to come before them, each of these verdicts
gives a range for what the Alloc adds to the change of liveness. The bounds of an Op are the sums
of these ranges, and so hold for its change in every valid order.
-/

namespace Liveness

open Success

variable {W : Type} [Weight W] {g h : Graph W} {c : Closure} {done : Finset Nat} {a b : Nat} {w : W}

namespace Bounds

section Lookup

variable {bounds : Array (Bounds W)}

theorem size_foldl_widen (pairs : List (Nat × Verdict × Verdict)) :
    (pairs.foldl (fun bounds p => bounds.modify p.1 fun b => b.widen w p.2) bounds).size =
      bounds.size :=
  List.foldlRecOn (motive := fun bs : Array (Bounds W) => bs.size = bounds.size) pairs _ rfl
    fun _ hs _ _ => (Array.size_modify ..).trans hs

theorem lookup_modify (ha : a < bounds.size) (i : Nat) (f : Bounds W → Bounds W) :
    lookup (bounds.modify i f) a = if i = a then f (lookup bounds a) else lookup bounds a := by
  simp only [lookup, Array.getD_eq_getD_getElem?, Array.getElem?_modify]
  split <;> simp [ha]

theorem lookup_foldl_widen {ids : List Nat} (hn : ids.Nodup) (f : Nat → Verdict × Verdict)
    (ha : a < bounds.size) :
    lookup (ids.foldl (fun bounds i => bounds.modify i fun b => b.widen w (f i)) bounds) a =
      if a ∈ ids then (lookup bounds a).widen w (f a) else lookup bounds a := by
  induction ids generalizing bounds with
  | nil => rfl
  | cons i ids ih =>
    obtain ⟨hi, hn⟩ := List.nodup_cons.mp hn
    rw [List.foldl_cons, ih hn (by simpa using ha), lookup_modify ha]
    by_cases he : i = a
    · subst he
      simp [hi]
    · simp [he, Ne.symm he]

theorem lookup_addAlloc (ha : a < bounds.size) {alloc : Alloc W} (hn : alloc.ops.Nodup) :
    lookup (addAlloc c bounds alloc) a = if a ∈ alloc.ops then
      (lookup bounds a).widen alloc.weight (c.extremes a alloc.ops) else lookup bounds a := by
  unfold addAlloc Closure.allExtremes
  rw [← List.map_prod_left_eq_zip, List.foldl_map]
  exact lookup_foldl_widen hn (fun i => c.extremes i alloc.ops) ha

end Lookup

def part (g : Graph W) (c : Closure) (a r : Nat) : Bounds W :=
  if a ∈ (g.alloc r).ops then
    zero.widen (g.alloc r).weight (c.extremes a (g.alloc r).ops) else zero

variable [ExactWeight W]

theorem lookup_foldl_addAlloc (hs : g.Supplied) {bounds : Array (Bounds W)} (ha : a < bounds.size)
    (rs : List Nat) :
    lookup (rs.foldl (fun bounds r => addAlloc c bounds (g.alloc r)) bounds) a =
      ⟨(lookup bounds a).lower + (rs.map fun r => (part g c a r).lower).sum,
        (lookup bounds a).upper + (rs.map fun r => (part g c a r).upper).sum⟩ := by
  induction rs generalizing bounds with
  | nil => simp
  | cons r rs ih =>
    have hsize : a < (addAlloc c bounds (g.alloc r)).size := by
      unfold addAlloc
      rwa [size_foldl_widen]
    have hn := Ascending.nodup_of_pairwise (hs.ops_sorted r)
    rw [List.foldl_cons, ih hsize, lookup_addAlloc ha hn, List.map_cons, List.map_cons,
      List.sum_cons, List.sum_cons, part]
    split <;> simp [widen, zero, add_assoc]

theorem lookup_ofGraph (hs : g.Supplied) (ha : a < g.opCount) : lookup (ofGraph g c) a =
    ⟨∑ r ∈ Finset.range g.allocCount, (part g c a r).lower,
      ∑ r ∈ Finset.range g.allocCount, (part g c a r).upper⟩ := by
  unfold ofGraph
  have hzero : lookup (Array.replicate g.opCount zero) a = (zero : Bounds W) := by
    simp [lookup, ha]
  rw [Graph.allocs_toList, List.foldl_map, lookup_foldl_addAlloc hs (by simpa using ha), hzero,
    zero, zero_add, zero_add]
  rfl

omit [ExactWeight W] in
theorem ofGraph_congr (hc : h.opCount = g.opCount) (ha : h.allocs = g.allocs) :
    ofGraph h c = ofGraph g c := by
  unfold ofGraph
  rw [hc, ha]

theorem range_holds {p : Prop} [Decidable p] {v : Verdict} (halways : v = .always → p)
    (hnever : v = .never → ¬ p) :
    (range w v).lower ≤ (if p then w else 0) ∧ (if p then w else 0) ≤ (range w v).upper := by
  cases v with
  | always => simp [range, halways rfl]
  | never => simp [range, hnever rfl]
  | sometimes =>
    dsimp only [range]
    rw [ExactWeight.min_eq, ExactWeight.max_eq]
    split
    · exact ⟨min_le_left w 0, le_max_left w 0⟩
    · exact ⟨min_le_right w 0, le_max_right w 0⟩

theorem range_le (w : W) (v : Verdict) : (range w v).lower ≤ (range w v).upper := by
  cases v with
  | always => exact le_rfl
  | never => exact le_rfl
  | sometimes =>
    dsimp only [range]
    rw [ExactWeight.min_eq, ExactWeight.max_eq]
    exact min_le_max

theorem part_le (g : Graph W) (c : Closure) (a r : Nat) :
    (part g c a r).lower ≤ (part g c a r).upper := by
  unfold part
  split
  · dsimp only [widen, zero]
    gcongr <;> exact range_le _ _
  · exact le_rfl

theorem part_eq_of_flat (hs : g.Supplied) (ha : a < g.opCount)
    (hflat : (lookup (ofGraph g c) a).lower = (lookup (ofGraph g c) a).upper) {r : Nat}
    (hr : r < g.allocCount) : (part g c a r).lower = (part g c a r).upper := by
  rw [lookup_ofGraph hs ha] at hflat
  exact (Finset.sum_eq_sum_iff_of_le fun r _ => part_le g c a r).mp hflat r
    (Finset.mem_range.mpr hr)

end Bounds

namespace Closure

theorem verdict_eq_always {beats : Nat → Nat → Bool} {ids : List Nat}
    (h : verdict beats a ids = .always) : ∀ b ∈ ids, beats a b = true := by
  unfold verdict at h
  split at h
  · cases h
  · split at h
    · next hall => exact List.all_eq_true.mp hall
    · cases h

end Closure

namespace Graph

section Verdicts

variable {r : Nat} (hc : c.Within g.Path) (ho : g.Opening done) (hi : g.Opening (insert a done))
  (hn : a ∉ done)

include hc ho hi hn

theorem startsAt_of_extremes : ((c.extremes a (g.alloc r).ops).1 = .always → g.StartsAt done a r) ∧
    ((c.extremes a (g.alloc r).ops).1 = .never → ¬ g.StartsAt done a r) := by
  constructor
  · intro h b hb hne hin
    have hab := Closure.verdict_eq_always h b (List.mem_filter.mpr ⟨hb, by simpa using hne⟩)
    exact hn (ho.path (hc hab) hin)
  · intro h hs
    obtain ⟨b, hb, hba⟩ := Closure.verdict_eq_never.mp h
    obtain ⟨hb, hne⟩ := List.mem_filter.mp hb
    have hin := hi.path (hc hba) (Finset.mem_insert_self a done)
    exact hs b hb (by simpa using hne) (Finset.mem_of_mem_insert_of_ne hin (by simpa using hne))

theorem endsAt_of_extremes : ((c.extremes a (g.alloc r).ops).2 = .always → g.EndsAt done a r) ∧
    ((c.extremes a (g.alloc r).ops).2 = .never → ¬ g.EndsAt done a r) := by
  constructor
  · intro h b hb hne
    have hba := Closure.verdict_eq_always h b (List.mem_filter.mpr ⟨hb, by simpa using hne⟩)
    have hin := hi.path (hc hba) (Finset.mem_insert_self a done)
    exact Finset.mem_of_mem_insert_of_ne hin hne
  · intro h he
    obtain ⟨b, hb, hab⟩ := Closure.verdict_eq_never.mp h
    obtain ⟨hb, hne⟩ := List.mem_filter.mp hb
    exact hn (ho.path (hc hab) (he b hb (by simpa using hne)))

variable [ExactWeight W]

theorem change_within_bounds (hs : g.Supplied) (ha : a < g.opCount) :
    (Bounds.lookup (Bounds.ofGraph g c) a).lower ≤ g.change done a ∧
      g.change done a ≤ (Bounds.lookup (Bounds.ofGraph g c) a).upper := by
  have hpart : ∀ r, (Bounds.part g c a r).lower ≤ g.changeOf done a r ∧
      g.changeOf done a r ≤ (Bounds.part g c a r).upper := by
    intro r
    unfold Bounds.part changeOf
    split
    · have hstart := startsAt_of_extremes (r := r) hc ho hi hn
      have hend := endsAt_of_extremes (r := r) hc ho hi hn
      have hstart := Bounds.range_holds (w := (g.alloc r).weight) hstart.1 hstart.2
      have hend := Bounds.range_holds (w := -(g.alloc r).weight) hend.1 hend.2
      simp only [Bounds.widen, Bounds.zero, zero_add]
      exact ⟨add_le_add hstart.1 hend.1, add_le_add hstart.2 hend.2⟩
    · exact ⟨le_rfl, le_rfl⟩
  rw [Bounds.lookup_ofGraph hs ha]
  dsimp only [change]
  exact ⟨Finset.sum_le_sum fun r _ => (hpart r).1, Finset.sum_le_sum fun r _ => (hpart r).2⟩

end Verdicts

section Orders

variable {order : List Nat} {r : Nat} (hs : g.Supplied) (ho : g.ValidOrder order)

include hs

theorem startsAt_firstOps :
    g.StartsAt (g.firstOps order.idxOf (order.idxOf a)) a r ↔
      ∀ b ∈ (g.alloc r).ops, order.idxOf a ≤ order.idxOf b := by
  refine forall₂_congr fun b hb => ?_
  rw [mem_firstOps, and_iff_right (hs.ops_lt hb), Nat.not_lt]
  by_cases he : b = a
  · simp [he]
  · simp [he]

include ho

theorem endsAt_firstOps : g.EndsAt (g.firstOps order.idxOf (order.idxOf a)) a r ↔
    ∀ b ∈ (g.alloc r).ops, order.idxOf b ≤ order.idxOf a := by
  refine forall₂_congr fun b hb => ?_
  rw [mem_firstOps, and_iff_right (hs.ops_lt hb)]
  by_cases he : b = a
  · simp [he]
  · have hne : order.idxOf b ≠ order.idxOf a :=
      mt (List.idxOf_inj (ho.mem_iff.mpr (hs.ops_lt hb))).mp he
    simp [he, hne.le_iff_lt]

variable [ExactWeight W]

/-- What an Op adds to the liveness where it stands in an order: the weight of each Alloc of which
it is the first Op, less that of each one of which it is the last. -/
def changeIn (g : Graph W) (order : List Nat) (a : Nat) : W :=
  ∑ r ∈ (Finset.range g.allocCount).filter fun r => a ∈ (g.alloc r).ops,
    ((if ∀ b ∈ (g.alloc r).ops, order.idxOf a ≤ order.idxOf b then 1 else 0) -
      (if ∀ b ∈ (g.alloc r).ops, order.idxOf b ≤ order.idxOf a then 1 else 0) : Int) •
        (g.alloc r).weight

theorem changeIn_eq : g.changeIn order a =
    g.change (g.firstOps order.idxOf (order.idxOf a)) a := by
  unfold changeIn change
  rw [Finset.sum_filter]
  refine Finset.sum_congr rfl fun r _ => ?_
  unfold changeOf
  simp only [startsAt_firstOps hs, endsAt_firstOps hs ho]
  split
  · rw [sub_smul, sub_eq_add_neg]
    congr 1 <;> split <;> simp
  · rfl

end Orders

omit [Weight W] in
theorem dropImplied_allocs {pairs : List (Nat × Nat)} (h' : g.dropImplied pairs = .ok h) :
    h.allocs = g.allocs := by
  refine foldlM_keeps (P := fun k : Graph W => k.allocs = g.allocs) rfl (fun p _ k l hk hl => ?_) h'
  split at hl
  · exact Except.ok.inj hl ▸ hk
  · obtain ⟨-, -, rfl⟩ := unconstrain_eq_ok.mp hl
    exact hk

end Graph

namespace Draft

theorem of_pass_eq_ok {X : Type} {pass : Draft W → Except Error (Refined W)}
    {f : Refined W → X} {x : X}
    (h : ((Draft.ofGraph g).bind fun r => pass r.1).map f = .ok x) :
    ∃ d log result, Draft.ofGraph g = .ok (d, log) ∧ pass d = .ok result ∧ f result = x := by
  cases hd : Draft.ofGraph g with
  | error e =>
    rw [hd] at h
    cases h
  | ok r =>
    rw [hd] at h
    rw [Except.bind] at h
    cases hr : pass r.1 with
    | error e =>
      rw [hr] at h
      cases h
    | ok result =>
      rw [hr] at h
      exact ⟨r.1, r.2, result, rfl, hr, Except.ok.inj h⟩

variable {d : Draft W}

/-- A draft of a graph that has settled with a closure: some constraints are gone, the rest is as
it was, and the bounds are those of the closure. -/
structure Settled (g : Graph W) (c : Closure) (d : Draft W) : Prop where
  wellFormed : d.graph.WellFormed
  opCount : d.graph.opCount = g.opCount
  allocs : d.graph.allocs = g.allocs
  fwdLink : ∀ a, (d.graph.op a).fwdLink = (g.op a).fwdLink
  outs : ∀ {a b}, b ∈ (d.graph.op a).outs → b ∈ (g.op a).outs
  closure : d.closure = c
  bounds : d.bounds = Bounds.ofGraph d.graph c

theorem settle_settled {log : Log W} (hg : g.WellFormed) (h' : settle g c = .ok (d, log)) :
    d.Settled g c := by
  obtain ⟨k, hk, hpure⟩ := bind_eq_ok.mp h'
  obtain ⟨rfl, -⟩ := Prod.mk.inj (pure_eq_ok.mp hpure)
  obtain ⟨hwf, hcount, hlink, hmem⟩ := Graph.dropImplied_spec hg hk
  exact ⟨hwf, hcount, Graph.dropImplied_allocs hk, hlink, fun hb => (hmem.mp hb).1, rfl, rfl⟩

theorem Settled.refines (hs : d.Settled g c) : d.graph.Refines g :=
  ⟨hs.opCount.symm, fun hb => .of_mem (hs.outs hb), fun hb => by rwa [← hs.fwdLink]⟩

variable [ExactWeight W]

/-- The bounds hold in a graph with the same Ops and Allocs, where what the closure puts in order
is constrained. -/
theorem Settled.boundedBy (hs : d.Settled g c) (hc : c.Within h.Path) (hh : h.Supplied)
    (hcount : h.opCount = g.opCount) (ha : h.allocs = g.allocs) :
    h.BoundedBy d.lower d.upper := by
  have hbounds : d.bounds = Bounds.ofGraph h c :=
    hs.bounds.trans (Bounds.ofGraph_congr (hs.opCount.trans hcount.symm) (hs.allocs.trans ha.symm))
  intro done a ho hi hn ha
  unfold lower upper
  rw [hbounds]
  exact Graph.change_within_bounds hc ho hi hn hh ha

/-- A draft of an unlinked graph with the same costs, whose bounds hold. -/
structure Measured (g : Graph W) (d : Draft W) : Prop extends d.Viable g where
  unlinked : d.graph.Unlinked
  allocs : d.graph.allocs = g.allocs
  bounds : d.bounds = Bounds.ofGraph d.graph d.closure
  costs : d.graph.costs = g.costs
  bounded : d.graph.BoundedBy d.lower d.upper

theorem ofGraph_measured (hg : g.WellFormed) (hn : g.Unlinked) (hs : g.Schedulable) :
    ∃ d log, Draft.ofGraph g = .ok (d, log) ∧ d.Measured g := by
  obtain ⟨d, log, hd, hv⟩ := ofGraph_viable hg hn.linksHeld hs
  obtain ⟨c, -, hsettle⟩ := bind_eq_ok.mp hd
  have hset := settle_settled hg hsettle
  obtain rfl := hset.closure
  refine ⟨d, log, hd, hv, fun a => (hset.fwdLink a).trans (hn a), hset.allocs, hset.bounds, ?_, ?_⟩
  · exact (hv.tightens.costs_subset hset.allocs).antisymm
      (hset.refines.costs_subset hset.allocs.symm)
  · exact hset.boundedBy hv.within hset.wellFormed.toSupplied hset.opCount hset.allocs

/-- A graph with a valid order has a closure that only knows of paths, and with every such closure
it settles. The bounds of an Op then hold for what it adds to the liveness in each valid order. -/
theorem settle_bounds_hold (hg : g.Built) (hs : ∃ order, g.ValidOrder order) :
    (∃ c, Closure.ofEdges g.edges = .ok c ∧ c.Within g.Path) ∧
    ∀ c : Closure, c.Within g.Path → ∃ d log, settle g c = .ok (d, log) ∧
      ∀ order, g.ValidOrder order → ∀ a < g.opCount,
        d.lower a ≤ g.changeIn order a ∧ g.changeIn order a ≤ d.upper a := by
  have hwf := hg.wellFormed
  have ha := Graph.Schedulable.acyclic hwf.toOrdered hs
  refine ⟨Graph.exists_closure hwf.toOrdered ha, fun c hc => ?_⟩
  obtain ⟨d, log, hd⟩ := settle_succeeds hwf c
  refine ⟨d, log, hd, fun order ho a ha => ?_⟩
  rw [Graph.changeIn_eq hwf.toSupplied ho]
  have hbounded := (settle_settled hwf hd).boundedBy hc hwf.toSupplied rfl rfl
  exact hbounded.change_within ho ha

end Draft

section LinkedChains

open Numbers Liveness.Graph

/-- In the chains of which one is linked, the last Op of the linked chain has bounds that leave
room for the Alloc that both chains need, and an order in which it reaches the lower one. -/
theorem Draft.linkedChains_bounds_hold : linkedChains.Built ∧
    linkedChains.ValidOrder [2, 3, 0, 1] ∧ ∃ d log, Draft.ofGraph linkedChains = .ok (d, log) ∧
      d.lower 1 = .onTier (-11) 0 ∧ d.upper 1 = .onTier (-9) 0 ∧
      d.lower 1 ≤ linkedChains.changeIn [2, 3, 0, 1] 1 ∧
        linkedChains.changeIn [2, 3, 0, 1] 1 ≤ d.upper 1 := by
  obtain ⟨⟨c, hc, hw⟩, h⟩ := Draft.settle_bounds_hold linkedChains_built ⟨_, linkedChains_validOrder⟩
  obtain ⟨d, log, hd, hbounds⟩ := h c hw
  have hof := (Draft.ofGraph_eq_settle hc).trans hd
  have hv : (Draft.ofGraph linkedChains).map (fun r => (r.1.lower 1, r.1.upper 1)) =
      .ok (.onTier (-11) 0, .onTier (-9) 0) := by decide +kernel
  rw [hof] at hv
  obtain ⟨hlow, hupp⟩ := Prod.mk.inj (Except.ok.inj hv)
  exact ⟨linkedChains_built, linkedChains_validOrder, d, log, hof, hlow, hupp,
    hbounds _ linkedChains_validOrder 1 (by decide)⟩

end LinkedChains

end Liveness
