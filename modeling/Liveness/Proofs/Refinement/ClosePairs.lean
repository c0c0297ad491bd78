import Mathlib.Logic.Equiv.Basic
import Liveness.Proofs.Refinement.ChangeBounds

/-! # Linking close pairs

A close pair is linked because every Op that can come on either side of it has bounds below or
above those of the pair, and so belongs ahead of it or behind it. As long as no constraint is
against this and no two Ops lead each other, every order can be sorted by exchanging neighbours
until all close pairs are side by side, and then linking them does not cost anything.
-/

namespace Liveness

open Success

variable {W : Type} [Weight W] {g h : Graph W} {order : List Nat} {a b u v x y : Nat}

namespace Graph

omit [Weight W] in
theorem linkWherePossible_extendedBy {pairs : List (Nat × Nat)} {count : Nat}
    (h' : g.linkWherePossible pairs = .ok (h, count)) : g.ExtendedBy h pairs pairs := by
  refine foldlM_keeps (P := fun s : Graph W × Nat => g.ExtendedBy s.1 pairs pairs)
    ⟨rfl, rfl, .inl, .inl⟩ (fun p hp s t hs ht => ?_) h'
  obtain ⟨k, n⟩ := s
  dsimp only at ht
  split at ht
  · obtain ⟨k', hk, ht⟩ := bind_eq_ok.mp ht
    obtain rfl := pure_eq_ok.mp ht
    obtain ⟨⟨hu, hv, -⟩, -, -, rfl⟩ := link_eq_ok.mp hk
    exact hs.join hu hv hp hp
  · obtain rfl := pure_eq_ok.mp ht
    exact hs

section Neighbours

variable (hadj : order.idxOf v = order.idxOf u + 1) (hu : u ∈ order) (hv : v ∈ order)

include hadj hu hv

omit [Weight W] in
theorem idxOf_swap_lt_iff (hx : x ∈ order) (hy : y ∈ order) (h : ¬ (x = u ∧ y = v))
    (h' : ¬ (x = v ∧ y = u)) :
    order.idxOf (Equiv.swap u v x) < order.idxOf (Equiv.swap u v y) ↔
      order.idxOf x < order.idxOf y := by
  have hne : ∀ {z w}, z ∈ order → z ≠ w → order.idxOf z ≠ order.idxOf w := fun hz h he =>
    h ((List.idxOf_inj hz).mp he)
  have hplace : ∀ z, order.idxOf (Equiv.swap u v z) = if z = u then order.idxOf v else
      if z = v then order.idxOf u else order.idxOf z := fun z => by
    rw [Equiv.swap_apply_def]
    split_ifs <;> rfl
  rw [hplace, hplace]
  split_ifs with hxu hyu hyv hxv hyu hyv hyu hyv <;> subst_vars <;> grind

end Neighbours

end Graph

namespace Draft

variable {d : Draft W} {p : Nat × Nat} {choice : Nat × Nat → Nat → Prop}

def Beside (d : Draft W) (a x : Nat) : Prop :=
  x < d.graph.opCount ∧ x ≠ a ∧ d.closure.unordered x a = true

theorem mem_closePairs : p ∈ d.closePairs ↔ p.1 < d.graph.opCount ∧
    d.graph.tightNext p.1 = some p.2 ∧ d.graph.isFree p.1 p.2 = true ∧
      d.overlaps p.1 p.2 = false := by
  obtain ⟨a, b⟩ := p
  simp [closePairs, Graph.tightPairs, and_assoc]

variable [ExactWeight W]

/-- The Op has its bounds below those of a pair. Where they are above as well, all of them being
equal, there is a choice. -/
def Ahead (d : Draft W) (choice : Nat × Nat → Nat → Prop) (p : Nat × Nat) (x : Nat) : Prop :=
  d.upper x ≤ min (d.lower p.1) (d.lower p.2) ∧
    (max (d.upper p.1) (d.upper p.2) ≤ d.lower x → choice p x)

/-- Some close pair has the first Op ahead of it and the second one behind it, or it is itself
one of the two. -/
def Leads (d : Draft W) (choice : Nat × Nat → Nat → Prop) (a b : Nat) : Prop :=
  ∃ p ∈ d.closePairs,
    (d.Beside p.1 a ∧ d.Ahead choice p a ∧ (b = p.1 ∨ d.Beside p.1 b ∧ ¬ d.Ahead choice p b)) ∨
      (a = p.2 ∧ d.Beside p.1 b ∧ ¬ d.Ahead choice p b)

structure Orderly (d : Draft W) (choice : Nat × Nat → Nat → Prop) : Prop where
  asymm : ∀ {a b}, d.Leads choice a b → ¬ d.Leads choice b a
  free : ∀ {a b}, d.Leads choice a b → a ∉ (d.graph.op b).outs

/-- What is beside a close pair and not ahead of it has its bounds above those of the pair. -/
theorem above_of_not_ahead (hp : p ∈ d.closePairs) (hx : d.Beside p.1 x)
    (hn : ¬ d.Ahead choice p x) : max (d.upper p.1) (d.upper p.2) ≤ d.lower x := by
  obtain ⟨-, -, -, hover⟩ := mem_closePairs.mp hp
  obtain ⟨hlt, hne, hun⟩ := hx
  by_cases hlow : d.upper x ≤ min (d.lower p.1) (d.lower p.2)
  · by_contra hhigh
    exact hn ⟨hlow, fun h => absurd h hhigh⟩
  · have hno := List.any_eq_false.mp hover x (List.mem_range.mpr hlt)
    rw [ExactWeight.min_eq, ExactWeight.max_eq] at hno
    simp only [bne_iff_ne.mpr hne, hun, ExactWeight.lt_iff, Bool.true_and, Bool.and_eq_true] at hno
    exact not_lt.mp fun h => hno ⟨not_le.mp hlow, h⟩

section Sorting

variable (hd : d.Measured g)

include hd

theorem Leads.lt_opCount (h : d.Leads choice a b) : a < d.graph.opCount ∧ b < d.graph.opCount := by
  obtain ⟨p, hp, ⟨ha, -, hb⟩ | ⟨rfl, hb, -⟩⟩ := h
  · obtain ⟨hlt, -⟩ := mem_closePairs.mp hp
    exact ⟨ha.1, hb.elim (fun he => he ▸ hlt) fun hb => hb.1.1⟩
  · obtain ⟨-, hnext, -⟩ := mem_closePairs.mp hp
    have hout : p.2 ∈ (d.graph.op p.1).outs := Graph.mem_outs_of_tightNext hnext
    exact ⟨hd.tightens.wellFormed.outs_lt hout, hb.1⟩

theorem Leads.upper_le_lower (h : d.Leads choice a b) : d.upper a ≤ d.lower b := by
  obtain ⟨order, ho⟩ := hd.schedulable
  obtain ⟨p, hp, ⟨-, hahead, rfl | ⟨hb, hbehind⟩⟩ | ⟨rfl, hb, hbehind⟩⟩ := h
  · exact hahead.1.trans (min_le_left _ _)
  · have hself := hd.bounded.lower_le_upper ho (mem_closePairs.mp hp).1
    calc d.upper a
        ≤ d.lower p.1 := hahead.1.trans (min_le_left _ _)
      _ ≤ d.upper p.1 := hself
      _ ≤ d.lower b := (le_max_left _ _).trans (above_of_not_ahead hp hb hbehind)
  · exact (le_max_right _ _).trans (above_of_not_ahead hp hb hbehind)

end Sorting

open Classical in
/-- The number of pairs of Ops of which the one that leads comes later. -/
noncomputable def strayed (d : Draft W) (choice : Nat × Nat → Nat → Prop) (order : List Nat) :
    Nat :=
  ((Finset.range d.graph.opCount ×ˢ Finset.range d.graph.opCount).filter fun q =>
    d.Leads choice q.1 q.2 ∧ order.idxOf q.2 < order.idxOf q.1).card

def Sorted (d : Draft W) (choice : Nat × Nat → Nat → Prop) (order : List Nat) : Prop :=
  ∀ u v, order.idxOf v = order.idxOf u + 1 → ¬ d.Leads choice v u

section Exchanging

variable (hd : d.Measured g) (ho : d.graph.ValidOrder order) (hl : d.Leads choice v u)
  (hadj : order.idxOf v = order.idxOf u + 1)

include hd ho hl hadj

theorem swap_lt_iff (hx : x < d.graph.opCount) (hy : y < d.graph.opCount) (h : ¬ (x = u ∧ y = v))
    (h' : ¬ (x = v ∧ y = u)) :
    order.idxOf (Equiv.swap u v x) < order.idxOf (Equiv.swap u v y) ↔
      order.idxOf x < order.idxOf y := by
  obtain ⟨hv, hu⟩ := hl.lt_opCount hd
  exact Graph.idxOf_swap_lt_iff hadj (ho.mem_iff.mpr hu) (ho.mem_iff.mpr hv) (ho.mem_iff.mpr hx)
    (ho.mem_iff.mpr hy) h h'

theorem Orderly.validOrder_swap (hn : d.Orderly choice) :
    d.graph.ValidOrder (order.map (Equiv.swap u v)) := by
  obtain ⟨hv, hu⟩ := hl.lt_opCount hd
  refine ho.trade hd.unlinked (fun x => Equiv.swap_apply_self u v x) (fun x hx => ?_)
    fun x y hxy => ?_
  · rw [Equiv.swap_apply_def]
    split_ifs <;> assumption
  · have hlt := ho.before hxy
    refine (swap_lt_iff hd ho hl hadj (Graph.lt_of_mem_outs hxy)
      (hd.tightens.wellFormed.outs_lt hxy) ?_ ?_).mpr hlt
    · rintro ⟨rfl, rfl⟩
      exact hn.free hl hxy
    · rintro ⟨rfl, rfl⟩
      omega

theorem totalLiveness_swap (hnext : d.graph.ValidOrder (order.map (Equiv.swap u v))) :
    d.graph.totalLiveness (order.map (Equiv.swap u v)).idxOf ≤
      d.graph.totalLiveness order.idxOf := by
  refine hd.bounded.totalLiveness_trade (fun x => Equiv.swap_apply_self u v x)
    hd.tightens.wellFormed.toSupplied ho hnext fun x _ hx => ?_
  rcases eq_or_ne x v with rfl | hxv
  · rw [Equiv.swap_apply_right]
    exact hl.upper_le_lower hd
  · rcases eq_or_ne x u with rfl | hxu
    · rw [Equiv.swap_apply_left] at hx
      omega
    · rw [Equiv.swap_apply_of_ne_of_ne hxu hxv] at hx
      omega

theorem Orderly.strayed_swap_lt (hn : d.Orderly choice) :
    d.strayed choice (order.map (Equiv.swap u v)) < d.strayed choice order := by
  obtain ⟨hv, hu⟩ := hl.lt_opCount hd
  have hplace := Graph.idxOf_map_involutive (fun x => Equiv.swap_apply_self u v x) order
  refine Finset.card_lt_card ((Finset.ssubset_iff_of_subset fun q hq => ?_).mpr ⟨(v, u), ?_, ?_⟩)
  · simp only [Finset.mem_filter, Finset.mem_product, Finset.mem_range, hplace] at hq ⊢
    obtain ⟨⟨hq₁, hq₂⟩, hlead, hlt⟩ := hq
    refine ⟨⟨hq₁, hq₂⟩, hlead, (swap_lt_iff hd ho hl hadj hq₂ hq₁ ?_ ?_).mp hlt⟩
    · rintro ⟨h₂, h₁⟩
      rw [h₁, h₂, Equiv.swap_apply_left, Equiv.swap_apply_right] at hlt
      omega
    · rintro ⟨h₂, h₁⟩
      exact hn.asymm hl (h₁ ▸ h₂ ▸ hlead)
  · simp only [Finset.mem_filter, Finset.mem_product, Finset.mem_range]
    exact ⟨⟨hv, hu⟩, hl, by omega⟩
  · simp only [Finset.mem_filter, hplace, Equiv.swap_apply_left, Equiv.swap_apply_right]
    omega

/-- Exchanging an Op with the one before it, which it leads, keeps the order valid, does not raise
its cost and leaves fewer Ops astray. -/
theorem Orderly.sort_step (hn : d.Orderly choice) : ∃ next, d.graph.ValidOrder next ∧
    d.graph.totalLiveness next.idxOf ≤ d.graph.totalLiveness order.idxOf ∧
      d.strayed choice next < d.strayed choice order := by
  have hnext := hn.validOrder_swap hd ho hl hadj
  exact ⟨_, hnext, totalLiveness_swap hd ho hl hadj hnext, hn.strayed_swap_lt hd ho hl hadj⟩

end Exchanging

section Linking

variable (hd : d.Measured g) (ho : d.graph.ValidOrder order)

include hd ho

theorem beside_of_between (hp : p ∈ d.closePairs) (hx : x < d.graph.opCount)
    (hlow : order.idxOf p.1 < order.idxOf x) (hhigh : order.idxOf x < order.idxOf p.2) :
    d.Beside p.1 x := by
  obtain ⟨-, hnext, -⟩ := mem_closePairs.mp hp
  have hlt : ∀ {a b}, d.closure.precedes a b = true → order.idxOf a < order.idxOf b := fun h =>
    (hd.within h).rank_lt ho.before
  refine ⟨hx, fun he => by rw [he] at hlow; omega, ?_⟩
  unfold Closure.unordered
  rw [Bool.and_eq_true, Bool.not_eq_true', Bool.not_eq_true', Bool.eq_false_iff, Bool.eq_false_iff]
  constructor
  · intro h
    have := hlt h
    omega
  · intro h
    -- all paths from the first Op of the pair lead through the second
    obtain ⟨y, hy, hpath⟩ := Relation.TransGen.head'_iff.mp (hd.within h)
    rw [(Graph.tightNext_eq_some.mp hnext).1, List.mem_singleton] at hy
    subst hy
    rcases Relation.reflTransGen_iff_eq_or_transGen.mp hpath with rfl | hpath
    · omega
    · have := Graph.Path.rank_lt ho.before hpath
      omega

/-- In a sorted order the Ops of every close pair are side by side. -/
theorem Sorted.adjacent (hs : d.Sorted choice order) (hp : p ∈ d.closePairs) :
    order.idxOf p.2 = order.idxOf p.1 + 1 := by
  obtain ⟨hlt, hnext, -⟩ := mem_closePairs.mp hp
  have hout : p.2 ∈ (d.graph.op p.1).outs := Graph.mem_outs_of_tightNext hnext
  have hpair := ho.before hout
  have hend := ho.idxOf_lt (hd.tightens.wellFormed.outs_lt hout)
  by_contra hapart
  -- the Ops between the two are all behind the pair, and so is the last of them
  have hbehind : ∀ i, order.idxOf p.1 < i → i < order.idxOf p.2 → ∀ x < d.graph.opCount,
      order.idxOf x = i → d.Beside p.1 x ∧ ¬ d.Ahead choice p x := by
    intro i hi
    induction i, hi using Nat.le_induction with
    | base =>
      intro hi x hx he
      have hbeside := beside_of_between hd ho hp hx (by omega) (by omega)
      exact ⟨hbeside, fun h => hs p.1 x he ⟨p, hp, .inl ⟨hbeside, h, .inl rfl⟩⟩⟩
    | succ i hi ih =>
      intro hi' x hx he
      have hbeside := beside_of_between hd ho hp hx (by omega) (by omega)
      obtain ⟨y, hy, hyi⟩ := ho.exists_idxOf (i := i) (by omega)
      have hbefore := ih (by omega) y hy hyi
      exact ⟨hbeside, fun h => hs y x (by omega) ⟨p, hp, .inl ⟨hbeside, h, .inr hbefore⟩⟩⟩
  obtain ⟨x, hx, he⟩ := ho.exists_idxOf (i := order.idxOf p.2 - 1) (by omega)
  exact hs x p.2 (by omega) ⟨p, hp, .inr ⟨rfl, hbehind _ (by omega) (by omega) x hx he⟩⟩

end Linking

/-- With exact weights, linking close pairs in a graph without links that has a valid order
succeeds, and leaves only orders that the graph had before, at their costs. A cheapest one is left
if the Ops beside the close pairs can be sorted as their bounds tell: where no two of them have to
come before each other, and none that is to come first is constrained to come later. -/
theorem linkClosePairs_costs (hg : g.Built) (hn : g.Unlinked) (hs : ∃ order, g.ValidOrder order) :
    ∃ d log result, Draft.ofGraph g = .ok (d, log) ∧ d.linkClosePairs = .ok result ∧
      result.graph.costs ⊆ g.costs ∧ result.graph.costs.Nonempty ∧
      ∀ choice, d.Orderly choice → ∃ m, IsLeast g.costs m ∧ IsLeast result.graph.costs m := by
  obtain ⟨d, log, hd, hm⟩ := ofGraph_measured hg.wellFormed hn hs
  have hwf := hm.tightens.wellFormed
  obtain ⟨h, count, hh, hsched⟩ := Graph.linkWherePossible_succeeds hwf hm.tightens.linksHeld
    hm.schedulable d.closePairs
  have hresult : d.linkClosePairs = .ok ⟨h, 0 < count, [.closePairsLinked count]⟩ := by
    unfold linkClosePairs
    rw [hh]
    rfl
  have hext := Graph.linkWherePossible_extendedBy hh
  have htight := (Graph.linkWherePossible_tightens hwf hm.tightens.linksHeld hm.acyclic hh).1
  refine ⟨d, log, _, hd, hresult, hm.costs ▸ htight.costs_subset hext.allocs, ?_,
    fun choice hc => ?_⟩
  · obtain ⟨order, ho⟩ := hsched
    exact ⟨_, order, ho, rfl⟩
  · rw [← hm.costs]
    refine hext.isLeast_costs htight.toRefines hm.schedulable fun order ho => ?_
    obtain ⟨last, hlast, hsorted, hle⟩ :=
      Graph.exists_shaped (d.Sorted choice) (d.strayed choice)
        (fun order ho hno => by
          unfold Sorted at hno
          push Not at hno
          obtain ⟨u, v, hadj, hl⟩ := hno
          exact hc.sort_step hm ho hl hadj) ho
    have hlinks : ∀ p ∈ d.closePairs, last.idxOf p.2 = last.idxOf p.1 + 1 := fun p hp =>
      hsorted.adjacent hm hlast hp
    exact ⟨last, hlast, ⟨fun p hp => hlinks p hp ▸ Nat.lt_succ_self _, hlinks⟩, hle⟩

end Draft

section Crossing

open Numbers Liveness.Graph

/-- A pair of Ops of which the first raises the liveness by 10, and an Op beside it that raises it
by 20. -/
def Graph.pairAndRival : Graph (Tiered Int) :=
  let ordered := (empty.addOps ["a", "b", "x", "end"]).connectAll [(0, 1), (1, 3), (2, 3)]
  let weighed := (ordered.addAlloc (.onTier 10 0)).addAlloc (.onTier 20 0)
  (weighed.attachAll [0, 3] 0).attachAll [2, 3] 1

theorem Graph.pairAndRival_built : pairAndRival.Built := by
  have hordered : ((empty.addOps ["a", "b", "x", "end"]).connectAll [(0, 1), (1, 3), (2, 3)] :
      Graph (Tiered Int)).Built := (Built.empty.addOps _).connectAll (by decide)
  have hweighed := (hordered.addAlloc (.onTier 10 0)).addAlloc (.onTier 20 0)
  exact (hweighed.attachAll (by decide) (by decide)).attachAll (by decide) (by decide)

theorem Draft.pairAndRival_orderly {d : Draft (Tiered Int)} {log : Log (Tiered Int)}
    (hd : Draft.ofGraph pairAndRival = .ok (d, log)) : d.Orderly fun _ _ => True := by
  have hfacts : (Draft.ofGraph pairAndRival).map (fun r => (r.1.graph.opCount, r.1.closePairs,
      (List.range 4).filter (fun x => x != 0 && r.1.closure.unordered x 0),
      Weight.le (r.1.upper 2) (r.1.lower 0), (r.1.graph.op 2).outs)) =
        .ok (4, [(0, 1)], [2], false, [3]) := by decide +kernel
  rw [hd] at hfacts
  simp only [Except.map, Except.ok.injEq, Prod.mk.injEq] at hfacts
  obtain ⟨hcount, hclose, hbeside, hupper, houts⟩ := hfacts
  have hrival : ∀ {x}, d.Beside 0 x → x = 2 := fun {x} ⟨hlt, hne, hun⟩ => by
    have hx : x ∈ (List.range 4).filter fun x => x != 0 && d.closure.unordered x 0 := by
      simp [hcount ▸ hlt, hne, hun]
    rwa [hbeside, List.mem_singleton] at hx
  have hlead : ∀ {a b}, d.Leads (fun _ _ => True) a b → a = 1 ∧ b = 2 := by
    rintro a b ⟨p, hp, h⟩
    rw [hclose, List.mem_singleton] at hp
    subst hp
    rcases h with ⟨ha, hahead, -⟩ | ⟨ha, hb, -⟩
    · obtain rfl := hrival ha
      have hle := hahead.1.trans (min_le_left _ _)
      rw [← ExactWeight.le_iff, hupper] at hle
      cases hle
    · exact ⟨ha, hrival hb⟩
  constructor
  · intro a b hab hba
    obtain ⟨rfl, rfl⟩ := hlead hab
    cases (hlead hba).1
  · intro a b hab
    obtain ⟨rfl, rfl⟩ := hlead hab
    rw [houts]
    decide

/-- Linking the pair changes the graph, but not its least cost. -/
theorem Draft.pairAndRival_costs : pairAndRival.Built ∧ pairAndRival.Unlinked ∧
    pairAndRival.ValidOrder [0, 1, 2, 3] ∧ ∃ d log result,
      Draft.ofGraph pairAndRival = .ok (d, log) ∧ d.linkClosePairs = .ok result ∧
        result.changed = true ∧ ∃ m, IsLeast pairAndRival.costs m ∧ IsLeast result.graph.costs m := by
  have hvalid : pairAndRival.ValidOrder [0, 1, 2, 3] := by decide
  have hn : pairAndRival.Unlinked := by decide
  have hrun : ((Draft.ofGraph pairAndRival).bind fun r => r.1.linkClosePairs).map
      Refined.changed = .ok true := by decide +kernel
  obtain ⟨d, log, result, hd, hr, -, -, hmin⟩ :=
    Draft.linkClosePairs_costs pairAndRival_built hn ⟨_, hvalid⟩
  rw [hd, Except.bind, hr] at hrun
  exact ⟨pairAndRival_built, hn, hvalid, d, log, result, hd, hr, Except.ok.inj hrun,
    hmin _ (Draft.pairAndRival_orderly hd)⟩

/-- A pair of which the second Op raises the liveness by 10, and two Ops beside it: one that
raises it by 10 and belongs behind the pair, and one that raises it by 0 and belongs ahead, but
has to come after the other one. -/
def Graph.crossedRivals : Graph (Tiered Int) :=
  let ordered := (empty.addOps ["z", "a", "b", "x", "y", "end"]).connectAll
    [(0, 1), (1, 2), (2, 5), (0, 4), (3, 4), (4, 5)]
  let weighed := (ordered.addAlloc (.onTier 10 0)).addAlloc (.onTier 10 0)
  (weighed.attachAll [2, 5] 0).attachAll [3, 5] 1

theorem Graph.crossedRivals_built : crossedRivals.Built := by
  have hordered : ((empty.addOps ["z", "a", "b", "x", "y", "end"]).connectAll
      [(0, 1), (1, 2), (2, 5), (0, 4), (3, 4), (4, 5)] : Graph (Tiered Int)).Built :=
    (Built.empty.addOps _).connectAll (by decide)
  have hweighed := (hordered.addAlloc (.onTier 10 0)).addAlloc (.onTier 10 0)
  exact (hweighed.attachAll (by decide) (by decide)).attachAll (by decide) (by decide)

/-- Linking the pair loses the cheapest order, in which both Ops beside it come between its two
Ops. -/
theorem Draft.crossedRivals_dearer : crossedRivals.Built ∧ crossedRivals.Unlinked ∧ ∃ d log result,
    Draft.ofGraph crossedRivals = .ok (d, log) ∧ d.linkClosePairs = .ok result ∧
      ∃ m m', IsLeast crossedRivals.costs m ∧ IsLeast result.graph.costs m' ∧ m < m' := by
  have hrun : ((Draft.ofGraph crossedRivals).bind fun r => r.1.linkClosePairs).map Refined.graph =
      .ok (crossedRivals.join 1 2) := by decide +kernel
  have hcheap : crossedRivals.ValidOrder [0, 1, 3, 4, 2, 5] := by decide
  have hleft : (crossedRivals.join 1 2).ValidOrder [0, 1, 2, 3, 4, 5] := by decide
  have hdear : ∀ other ∈ (List.range 6).permutations', (crossedRivals.join 1 2).ValidOrder other →
      Weight.lt (crossedRivals.totalLiveness [0, 1, 3, 4, 2, 5].idxOf)
        ((crossedRivals.join 1 2).totalLiveness other.idxOf) = true := by decide +kernel
  obtain ⟨d, log, result, hd, hr, hgraph⟩ := Draft.of_pass_eq_ok hrun
  refine ⟨crossedRivals_built, by decide, d, log, result, hd, hr, ?_⟩
  rw [hgraph]
  exact exists_isLeast_lt ⟨_, hleft⟩ hcheap fun other ho =>
    hdear other (List.mem_permutations'.mpr ho.perm) ho

end Crossing

end Liveness
