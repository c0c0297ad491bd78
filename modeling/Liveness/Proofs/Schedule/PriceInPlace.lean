import Liveness.Proofs.Schedule.LiveWeights
import Liveness.Proofs.Schedule.InPlace
import Liveness.Schedule.PriceInPlace

/-! # Prices computed in place

Where the ends of an Alloc do not tell the price of a move, it has places on both sides of the
border between the two blocks, so that every index which the price is computed with is in range.
The price is the weight of the Alloc for each place that its span in the order of the Ops grows by.
-/

namespace Liveness

/-- The number of places from the first to the last Op of an Alloc in an order, zero without Ops. -/
def Graph.spanIn {W : Type} [Zero W] (g : Graph W) (order : List Nat) (r : Nat) : Nat :=
  spanOf ((g.alloc r).ops.map order.idxOf)

namespace Schedule

variable {W : Type} [Weight W] {s : Schedule W} {g : Graph W} {order : List Nat}
  {moves : List Move} {m : Move} {start target n r x o z : Nat}

theorem besides?_eq {places : List Nat} (hs : places.Pairwise (· ≤ ·)) {p q : Nat}
    (hp : p ∈ places) (hpo : p < o) (hq : q ∈ places) (hoq : o ≤ q) :
    besides? o places = some (((places.filter fun p => p < o).getLast?).getD 0,
      (places.find? fun p => o ≤ p).getD 0) := by
  obtain ⟨post, hpost⟩ : ∃ post, (places.find? fun p => o ≤ p) = some post := by
    refine Option.ne_none_iff_exists'.mp fun hn => ?_
    exact absurd (decide_eq_true hoq) (List.find?_eq_none.mp hn q hq)
  obtain ⟨pre, hpre⟩ : ∃ pre, (places.filter fun p => p < o).getLast? = some pre := by
    refine Option.ne_none_iff_exists'.mp fun hn => ?_
    have hnil := List.getLast?_eq_none_iff.mp hn
    exact List.filter_eq_nil_iff.mp hnil p hp (decide_eq_true hpo)
  have hfirst : places[countBefore o places]? = some post := (firstFrom_eq o places).trans hpost
  have hlast : lastBefore? o places = _ := lastBefore?_eq hs
  rw [hpre] at hlast
  unfold lastBefore? at hlast
  unfold besides?
  dsimp only
  rw [hpre, hpost, hfirst]
  split at hlast
  · cases hlast
  · next count hc =>
    obtain ⟨_, hget, he⟩ := Option.map_eq_some_iff.mp hlast
    obtain rfl := Option.some.inj he
    rw [hc, minus?_eq (Nat.succ_le_succ (Nat.zero_le count))]
    simp only [Option.bind_eq_bind, Option.bind_some, Nat.succ_sub_one, hget]
    rfl

namespace Coherent

theorem allocs_getElem? (h : s.Coherent) (hr : r < s.allocCount) :
    s.graph.allocs[r]? = some (s.graph.alloc r) ∧ s.allocPlaces[r]? = some (s.placesOfAlloc r) :=
  ⟨getElem?_eq_some_getD _ hr,
    getElem?_eq_some_getD [] (by rw [h.allocPlaces, Array.size_map]; exact hr)⟩

/-- Every index that the price of a move is computed with is in range. -/
theorem shiftCost?_eq (h : s.Coherent) (hr : r < s.allocCount)
    (hb : (⟨start, target, n⟩ : Move).bounds = (x, o, z)) (hoz : o ≤ z) :
    s.shiftCost? start target n r = some (s.shiftCost start target n r) := by
  have hs := h.placesOfAlloc_sorted r
  obtain ⟨halloc, hplaces⟩ := h.allocs_getElem? hr
  unfold shiftCost? shiftCost
  rw [hb, halloc, hplaces]
  simp only [Option.bind_eq_bind, Option.bind_some, Bool.or_eq_true, Bool.and_eq_true,
    decide_eq_true_eq]
  generalize s.placesOfAlloc r = places at hs
  split
  · rfl
  · next hout =>
    split
    · rfl
    · next hin =>
      split
      · rfl
      · next hahead =>
        split
        · rfl
        · next hbehind =>
          -- an Alloc without Ops is taken to be at place zero, which is in a block or outside
          have hne : places ≠ [] := by
            rintro rfl
            simp only [List.head?_nil, List.getLast?_nil, Option.getD_none] at hout hin
            omega
          obtain ⟨low, high, he⟩ := Ends.exists_of_ne_nil hne
          have hle := (he.between high he.high_mem).1
          simp only [he.head?_eq hs, he.getLast?_eq hs, Option.getD_some] at *
          rw [besides?_eq hs he.low_mem (by omega) he.high_mem (by omega)]
          rfl

theorem spanIn_eq (h : s.Coherent) (r : Nat) :
    s.graph.spanIn s.ops.toList r = spanOf ((s.graph.alloc r).ops.map s.placeOf) :=
  congrArg spanOf (h.map_idxOf_eq r)

/-- A move adds the same to the span of an Alloc among its places and in the order. -/
theorem spanGrowth_eq_spanIn (h : s.Coherent) (hm : m.InRange s.opCount)
    (hb : m.bounds = (x, o, z)) (hxo : x ≤ o) (hoz : o ≤ z) (hz : z ≤ s.opCount) (r : Nat) :
    spanGrowth x o z (s.placesOfAlloc r) =
      (s.graph.spanIn (m.apply s.ops).toList r : Int) - s.graph.spanIn s.ops.toList r := by
  have e := h.exchanged_apply hb hxo hoz hz
  have hafter := (h.apply hm).spanIn_eq r
  rw [ops_apply, graph_apply] at hafter
  rw [e.spanGrowth_placesOfAlloc h, hafter, h.spanIn_eq]

end Coherent

/-- In the schedule of any order of all Ops, also after any moves, the price of a move for an Alloc
is its weight for each place that its span grows by, whether the move is legal or not. Every index
that the price is computed with is in range. -/
theorem shiftCost_growth [ExactWeight W] (hg : g.Built) (hp : order.Perm (List.range g.opCount))
    (hmoves : ∀ k ∈ moves, k.InRange g.opCount) (hm : m.InRange g.opCount)
    (hr : r < g.allocCount) :
    let s := moves.foldl Schedule.apply (ofOrder g order)
    s.shiftCost? m.start m.target m.size r = some (s.shiftCost m.start m.target m.size r) ∧
      s.shiftCost m.start m.target m.size r =
        Weight.scale ((g.spanIn (m.apply s.ops).toList r : Int) - g.spanIn s.ops.toList r)
          (g.alloc r).weight := by
  intro s
  obtain ⟨hs, hgraph⟩ : s.Coherent ∧ s.graph = g :=
    (ofOrder_coherent hg.wellFormed hp).applyAll hmoves
  clear_value s
  subst hgraph
  obtain ⟨x, o, z, hb, hxo, hoz, hz⟩ := Move.bounds_inRange hm
  refine ⟨hs.shiftCost?_eq hr hb hoz, ?_⟩
  rw [hs.shiftCost_eq hb hxo hoz, hs.spanGrowth_eq_spanIn hm hb hxo hoz hz]
  rfl

section TwoChains

open Numbers

/-- After two moves the third Alloc has its Ops at both sides of the middle. When the halves of the
schedule change places, it spans all four places, two more than before. -/
theorem twoChains_shiftCost_growth :
    let s := [⟨1, 2, 1⟩, ⟨0, 2, 2⟩].foldl Schedule.apply (ofOrder Graph.twoChains [2, 3, 0, 1])
    let after := ((⟨0, 2, 2⟩ : Move).apply s.ops).toList
    s.shiftCost? 0 2 2 2 = some (Weight.scale 2 (Graph.twoChains.alloc 2).weight) ∧
      Graph.twoChains.spanIn s.ops.toList 2 = 2 ∧ Graph.twoChains.spanIn after 2 = 4 := by
  intro s after
  have hp : [2, 3, 0, 1].Perm (List.range Graph.twoChains.opCount) := by decide
  have hmoves : ∀ k ∈ ([⟨1, 2, 1⟩, ⟨0, 2, 2⟩] : List Move), k.InRange Graph.twoChains.opCount := by
    decide
  have hm : (⟨0, 2, 2⟩ : Move).InRange Graph.twoChains.opCount := by decide
  obtain ⟨hsome, hprice⟩ := shiftCost_growth (r := 2) Graph.twoChains_built hp hmoves hm (by decide)
  have hbefore : Graph.twoChains.spanIn s.ops.toList 2 = 2 := by decide +kernel
  have hafter : Graph.twoChains.spanIn after 2 = 4 := by decide +kernel
  refine ⟨hsome.trans (congrArg some (hprice.trans ?_)), hbefore, hafter⟩
  rw [hbefore, hafter]
  rfl

end TwoChains

end Schedule

end Liveness
