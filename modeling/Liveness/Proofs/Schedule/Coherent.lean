import Liveness.Proofs.Graph.WellFormed
import Liveness.Proofs.Schedule.Exchange

/-! # Coherent schedules

A schedule is coherent when it lists every Op once and all that it records by Op, Alloc
and place is what its order says. Schedules that are made from an order are coherent.
-/

namespace Liveness.Schedule

variable {W : Type} [Weight W]

/-- Every Op is listed once, and what is recorded of places agrees with the list. -/
structure Coherent (s : Schedule W) : Prop where
  wellFormed : s.graph.WellFormed
  perm : s.ops.toList.Perm (List.range s.opCount)
  size_places : s.places.size = s.opCount
  placeOf_opAt : ∀ {i}, i < s.opCount → s.placeOf (s.opAt i) = i
  placeAllocs : s.placeAllocs = s.ops.map fun a => (s.graph.op a).allocs
  allocPlaces : s.allocPlaces = s.graph.allocs.map fun alloc => placesOf s.places alloc.ops
  inPlaces : s.inPlaces = s.graph.ops.map fun op => placesOf s.places op.ins
  outPlaces : s.outPlaces = s.graph.ops.map fun op => placesOf s.places op.outs

variable {s : Schedule W} {a b i j p r : Nat}

theorem mem_placesOf {places : Array Nat} {as : List Nat} :
    p ∈ placesOf places as ↔ ∃ a ∈ as, places.getD a 0 = p := by
  simp [placesOf, List.mem_map]

theorem placesOf_sorted (places : Array Nat) (as : List Nat) :
    (placesOf places as).Pairwise (· ≤ ·) :=
  Ascending.sort_pairwise _

theorem placesOf_congr {places places' : Array Nat} {as : List Nat}
    (h : ∀ a ∈ as, places.getD a 0 = places'.getD a 0) : placesOf places as = placesOf places' as :=
  congrArg Ascending.sort (List.map_congr_left h)

namespace Coherent

theorem size_ops (h : s.Coherent) : s.ops.size = s.opCount := by
  simpa using h.perm.length_eq

theorem opAt_mem (h : s.Coherent) (hi : i < s.opCount) : s.opAt i ∈ s.ops.toList := by
  have hi' : i < s.ops.size := by rwa [h.size_ops]
  rw [opAt, Array.getD, dif_pos hi', Array.mem_toList_iff]
  exact Array.getElem_mem hi'

theorem opAt_lt (h : s.Coherent) (hi : i < s.opCount) : s.opAt i < s.opCount :=
  List.mem_range.mp (h.perm.mem_iff.mp (h.opAt_mem hi))

theorem exists_opAt (h : s.Coherent) (ha : a < s.opCount) : ∃ i < s.opCount, s.opAt i = a := by
  have hm : a ∈ s.ops := Array.mem_toList_iff.mp (h.perm.mem_iff.mpr (List.mem_range.mpr ha))
  obtain ⟨i, hi, rfl⟩ := Array.mem_iff_getElem.mp hm
  refine ⟨i, h.size_ops ▸ hi, ?_⟩
  rw [opAt, Array.getD, dif_pos hi]
  rfl

theorem placeOf_lt (h : s.Coherent) (ha : a < s.opCount) : s.placeOf a < s.opCount := by
  obtain ⟨i, hi, rfl⟩ := h.exists_opAt ha
  rwa [h.placeOf_opAt hi]

theorem opAt_placeOf (h : s.Coherent) (ha : a < s.opCount) : s.opAt (s.placeOf a) = a := by
  obtain ⟨i, hi, rfl⟩ := h.exists_opAt ha
  rw [h.placeOf_opAt hi]

theorem opAt_inj (h : s.Coherent) (hi : i < s.opCount) (hj : j < s.opCount)
    (he : s.opAt i = s.opAt j) : i = j := by
  rw [← h.placeOf_opAt hi, he, h.placeOf_opAt hj]

theorem placeOf_inj (h : s.Coherent) (ha : a < s.opCount) (hb : b < s.opCount)
    (he : s.placeOf a = s.placeOf b) : a = b := by
  rw [← h.opAt_placeOf ha, he, h.opAt_placeOf hb]

theorem placesBefore_eq (h : s.Coherent) (a : Nat) :
    s.placesBefore a = placesOf s.places (s.graph.op a).ins := by
  simp only [placesBefore, h.inPlaces, Graph.op, Array.getD_eq_getD_getElem?, Array.getElem?_map]
  cases s.graph.ops[a]? <;> rfl

theorem placesAfter_eq (h : s.Coherent) (a : Nat) :
    s.placesAfter a = placesOf s.places (s.graph.op a).outs := by
  simp only [placesAfter, h.outPlaces, Graph.op, Array.getD_eq_getD_getElem?, Array.getElem?_map]
  cases s.graph.ops[a]? <;> rfl

theorem placesOfAlloc_eq (h : s.Coherent) (r : Nat) :
    s.placesOfAlloc r = placesOf s.places (s.graph.alloc r).ops := by
  simp only [placesOfAlloc, h.allocPlaces, Graph.alloc, Array.getD_eq_getD_getElem?,
    Array.getElem?_map]
  cases s.graph.allocs[r]? <;> rfl

theorem allocsAt_eq (h : s.Coherent) (hi : i < s.opCount) :
    s.allocsAt i = (s.graph.op (s.opAt i)).allocs := by
  have hi' : i < s.ops.size := by rwa [h.size_ops]
  simp [allocsAt, opAt, h.placeAllocs, Array.getD_eq_getD_getElem?, hi']

theorem mem_placesBefore (h : s.Coherent) :
    p ∈ s.placesBefore a ↔ ∃ b ∈ (s.graph.op a).ins, s.placeOf b = p := by
  rw [h.placesBefore_eq, mem_placesOf]
  rfl

theorem mem_placesAfter (h : s.Coherent) :
    p ∈ s.placesAfter a ↔ ∃ b ∈ (s.graph.op a).outs, s.placeOf b = p := by
  rw [h.placesAfter_eq, mem_placesOf]
  rfl

theorem mem_placesOfAlloc (h : s.Coherent) :
    p ∈ s.placesOfAlloc r ↔ ∃ a ∈ (s.graph.alloc r).ops, s.placeOf a = p := by
  rw [h.placesOfAlloc_eq, mem_placesOf]
  rfl

theorem placesBefore_sorted (h : s.Coherent) (a : Nat) : (s.placesBefore a).Pairwise (· ≤ ·) := by
  rw [h.placesBefore_eq]
  exact placesOf_sorted _ _

theorem placesAfter_sorted (h : s.Coherent) (a : Nat) : (s.placesAfter a).Pairwise (· ≤ ·) := by
  rw [h.placesAfter_eq]
  exact placesOf_sorted _ _

theorem placesOfAlloc_sorted (h : s.Coherent) (r : Nat) :
    (s.placesOfAlloc r).Pairwise (· ≤ ·) := by
  rw [h.placesOfAlloc_eq]
  exact placesOf_sorted _ _

end Coherent

section OfOrder

variable {g : Graph W} {order : List Nat}

omit [Weight W] in
theorem getD_place_order (hp : order.Perm (List.range g.opCount)) (hi : i < g.opCount) :
    (place order.toArray 0 order.length (Array.replicate g.opCount 0)).getD
      (order.toArray.getD i 0) 0 = i := by
  have hl : order.length = g.opCount := by simpa using hp.length_eq
  have hn : order.Nodup := hp.nodup_iff.mpr List.nodup_range
  have hm : ∀ {j} (hj : j < order.length), order.toArray.getD j 0 = order[j] := by
    intro j hj
    simp [Array.getD, hj]
  rw [hm (hl ▸ hi)]
  refine getD_place_of_mem ?_ (Nat.zero_le i) (hl ▸ hi) (hm (hl ▸ hi)) fun j _ hj he => ?_
  · rw [Array.size_replicate]
    exact List.mem_range.mp (hp.mem_iff.mp (List.getElem_mem (hl ▸ hi)))
  · rw [hm hj] at he
    exact (List.getElem_inj hn).mp he

theorem ofOrder_coherent (hg : g.WellFormed) (hp : order.Perm (List.range g.opCount)) :
    (ofOrder g order).Coherent where
  wellFormed := hg
  perm := hp
  size_places := by simp [ofOrder, setRoom, refreshLiveness, opCount]
  placeOf_opAt := getD_place_order hp
  placeAllocs := by simp [ofOrder, setRoom, refreshLiveness]
  allocPlaces := rfl
  inPlaces := rfl
  outPlaces := rfl

end OfOrder

theorem Coherent.congr {t : Schedule W} (h : s.Coherent) (hg : t.graph = s.graph)
    (ho : t.ops = s.ops) (hp : t.places = s.places) (hpa : t.placeAllocs = s.placeAllocs)
    (hap : t.allocPlaces = s.allocPlaces) (hi : t.inPlaces = s.inPlaces)
    (ho' : t.outPlaces = s.outPlaces) : t.Coherent := by
  obtain ⟨graph, ops, places, allocPlaces, placeAllocs, inPlaces, outPlaces⟩ := t
  cases hg
  cases ho
  cases hp
  cases hpa
  cases hap
  cases hi
  cases ho'
  exact ⟨h.wellFormed, h.perm, h.size_places, h.placeOf_opAt, h.placeAllocs, h.allocPlaces,
    h.inPlaces, h.outPlaces⟩

end Liveness.Schedule
