import Liveness.Proofs.Schedule.Liveness
import Liveness.Proofs.Schedule.Checked

/-! # What the liveness says

An Alloc lives from its first Op to its last. The liveness of a place is the weight of the
Allocs that live there, and its sum counts every weight once for each place of a life.
-/

namespace Liveness

variable {W : Type} [Weight W] {g : Graph W} {order : List Nat} {s : Schedule W}
  {first last i r : Nat}

namespace Graph

def lifespan (g : Graph W) (order : List Nat) (r : Nat) : Option (Nat × Nat) :=
  let places := (g.alloc r).ops.map order.idxOf
  match places.min?, places.max? with
  | some first, some last => some (first, last)
  | _, _ => none

def LivesAt (g : Graph W) (order : List Nat) (i r : Nat) : Prop :=
  ∃ span ∈ g.lifespan order r, span.1 ≤ i ∧ i ≤ span.2

instance : DecidablePred (g.LivesAt order i) := fun _ => inferInstanceAs (Decidable (∃ _ ∈ _, _))

theorem lifespan_eq_some (h : Ends ((g.alloc r).ops.map order.idxOf) first last) :
    g.lifespan order r = some (first, last) := by
  have hmin := List.min?_eq_some_iff.mpr ⟨h.low_mem, fun q hq => (h.between q hq).1⟩
  have hmax := List.max?_eq_some_iff.mpr ⟨h.high_mem, fun q hq => (h.between q hq).2⟩
  unfold lifespan
  dsimp only
  rw [hmin, hmax]

theorem lifespan_eq_none (h : (g.alloc r).ops = []) : g.lifespan order r = none := by
  unfold lifespan
  rw [h]
  rfl

def lifeWeight [ExactWeight W] (g : Graph W) (order : List Nat) (r : Nat) : W :=
  (g.lifespan order r).elim 0 fun span => ((span.2 : Int) - span.1 + 1) • (g.alloc r).weight

end Graph

namespace Schedule

/-- The record of liveness says which weights are live at each place, and how much that is
over all places. -/
structure Measured [ExactWeight W] (s : Schedule W) : Prop where
  size : s.liveness.size = s.opCount
  liveAt : ∀ i < s.opCount, s.liveness.getD i 0 =
    ∑ r ∈ Finset.range s.allocCount with s.graph.LivesAt s.ops.toList i r, (s.graph.alloc r).weight
  sum : s.sumLiveness = ∑ r ∈ Finset.range s.allocCount, s.graph.lifeWeight s.ops.toList r
  total : s.sumLiveness = s.graph.totalLiveness s.placeOf

namespace Coherent

theorem map_idxOf_eq (h : s.Coherent) (r : Nat) :
    (s.graph.alloc r).ops.map s.ops.toList.idxOf = (s.graph.alloc r).ops.map s.placeOf :=
  List.map_congr_left fun _ ha => h.idxOf_eq (h.wellFormed.ops_lt ha)

theorem ends_iff (h : s.Coherent) : Ends ((s.graph.alloc r).ops.map s.ops.toList.idxOf) first last ↔
    Ends (s.placesOfAlloc r) first last := by
  have hm : ∀ p, p ∈ (s.graph.alloc r).ops.map s.placeOf ↔ p ∈ s.placesOfAlloc r := fun p =>
    List.mem_map.trans h.mem_placesOfAlloc.symm
  rw [h.map_idxOf_eq]
  constructor
  · rintro ⟨hlow, hhigh, hb⟩
    exact ⟨(hm _).mp hlow, (hm _).mp hhigh, fun p hp => hb p ((hm p).mpr hp)⟩
  · rintro ⟨hlow, hhigh, hb⟩
    exact ⟨(hm _).mpr hlow, (hm _).mpr hhigh, fun p hp => hb p ((hm p).mp hp)⟩

theorem lifespan_cases (h : s.Coherent) (r : Nat) :
    (s.placesOfAlloc r = [] ∧ s.graph.lifespan s.ops.toList r = none) ∨
      ∃ first last, Ends (s.placesOfAlloc r) first last ∧
        s.graph.lifespan s.ops.toList r = some (first, last) := by
  by_cases hne : (s.graph.alloc r).ops = []
  · refine .inl ⟨?_, Graph.lifespan_eq_none hne⟩
    rw [h.placesOfAlloc_eq, hne]
    rfl
  · have hmap : (s.graph.alloc r).ops.map s.ops.toList.idxOf ≠ [] := mt List.map_eq_nil_iff.mp hne
    obtain ⟨first, last, he⟩ := Ends.exists_of_ne_nil hmap
    exact .inr ⟨first, last, h.ends_iff.mp he, Graph.lifespan_eq_some he⟩

theorem livesAt_iff (h : s.Coherent) : s.graph.LivesAt s.ops.toList i r ↔ s.IsLive i r := by
  unfold Graph.LivesAt
  rcases h.lifespan_cases r with ⟨hnil, hnone⟩ | ⟨first, last, he, hsome⟩
  · rw [hnone]
    exact iff_of_false (by simp) (not_isLive_of_unused hnil)
  · rw [hsome, isLive_iff he]
    simp

variable [ExactWeight W]

theorem lifeWeight_eq (h : s.Coherent) (r : Nat) :
    s.graph.lifeWeight s.ops.toList r =
      (spanOf (s.placesOfAlloc r) : Int) • (s.graph.alloc r).weight := by
  unfold Graph.lifeWeight
  rcases h.lifespan_cases r with ⟨hnil, hnone⟩ | ⟨first, last, he, hsome⟩
  · rw [hnone, hnil]
    exact (zero_smul Int _).symm
  · have hle := (he.between last he.high_mem).1
    rw [hsome, he.spanOf_eq, Option.elim_some, Nat.cast_add, Nat.cast_sub hle, Nat.cast_one]

theorem measured (h : s.Coherent) (hl : s.liveness = s.livenessOf) : s.Measured := by
  have hlist := congrArg Array.toList hl
  rw [h.livenessOf_eq] at hlist
  have hsum : s.sumLiveness = s.total := by
    rw [sumLiveness, hl, h.sum_livenessOf]
  constructor
  · simpa using congrArg List.length hlist
  · intro i hi
    rw [Finset.sum_filter, Array.getD_eq_getD_getElem?, ← Array.getElem?_toList, hlist]
    simp only [List.getElem?_map, List.getElem?_range hi, Option.map_some, Option.getD_some,
      h.livesAt_iff]
  · rw [hsum, total, Graph.totalLiveness_eq]
    refine Finset.sum_congr rfl fun r _ => ?_
    rw [h.lifeWeight_eq, Graph.allocLiveness]
    congr 2
    exact spanOf_congr fun p => List.mem_map.trans h.mem_placesOfAlloc.symm
  · exact hsum

end Coherent

end Schedule

end Liveness
