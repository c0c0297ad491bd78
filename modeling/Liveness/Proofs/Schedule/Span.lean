import Liveness.Proofs.Weight.Exact
import Liveness.Proofs.Schedule.Apply

/-! # Changes of spans

The span of an Alloc depends on its first and its last place only. Where these come to
lie after a move is a matter of the blocks that they and their neighbours are in.
-/

namespace Liveness

structure Ends (ps : List Nat) (low high : Nat) : Prop where
  low_mem : low ∈ ps
  high_mem : high ∈ ps
  between : ∀ p ∈ ps, low ≤ p ∧ p ≤ high

namespace Ends

variable {ps : List Nat} {low high p q : Nat}

theorem spanOf_eq (h : Ends ps low high) : spanOf ps = high - low + 1 := by
  have hmin : ps.min? = some low :=
    List.min?_eq_some_iff.mpr ⟨h.low_mem, fun q hq => (h.between q hq).1⟩
  have hmax : ps.max? = some high :=
    List.max?_eq_some_iff.mpr ⟨h.high_mem, fun q hq => (h.between q hq).2⟩
  unfold spanOf
  rw [hmin, hmax]

theorem exists_of_ne_nil (hne : ps ≠ []) : ∃ low high, Ends ps low high := by
  have hmin : ps.min? ≠ none := mt List.min?_eq_none_iff.mp hne
  have hmax : ps.max? ≠ none := mt List.max?_eq_none_iff.mp hne
  obtain ⟨low, hlow⟩ := Option.ne_none_iff_exists'.mp hmin
  obtain ⟨high, hhigh⟩ := Option.ne_none_iff_exists'.mp hmax
  obtain ⟨hlm, hle⟩ := List.min?_eq_some_iff.mp hlow
  obtain ⟨hhm, hge⟩ := List.max?_eq_some_iff.mp hhigh
  exact ⟨low, high, hlm, hhm, fun p hp => ⟨hle p hp, hge p hp⟩⟩

theorem head?_eq (h : Ends ps low high) (hs : ps.Pairwise (· ≤ ·)) : ps.head? = some low := by
  cases hh : ps.head? with
  | none =>
    obtain rfl := List.head?_eq_none_iff.mp hh
    cases h.low_mem
  | some p =>
    obtain ⟨hp, hle⟩ := Ascending.head?_le hs hh
    rw [Nat.le_antisymm (hle low h.low_mem) (h.between p hp).1]

theorem getLast?_eq (h : Ends ps low high) (hs : ps.Pairwise (· ≤ ·)) :
    ps.getLast? = some high := by
  cases hh : ps.getLast? with
  | none =>
    obtain rfl := List.getLast?_eq_none_iff.mp hh
    cases h.low_mem
  | some p =>
    obtain ⟨hp, hge⟩ := Ascending.le_getLast? hs hh
    rw [Nat.le_antisymm (h.between p hp).2 (hge high h.high_mem)]

theorem spanOf_map_sub (h : Ends ps low high) {f : Nat → Nat} (hp : p ∈ ps) (hq : q ∈ ps)
    (hf : ∀ x ∈ ps, f p ≤ f x ∧ f x ≤ f q) :
    (spanOf (ps.map f) : Int) - spanOf ps = (f q - f p) - (high - low) := by
  have hm : Ends (ps.map f) (f p) (f q) := by
    refine ⟨List.mem_map_of_mem hp, List.mem_map_of_mem hq, fun y hy => ?_⟩
    obtain ⟨x, hx, rfl⟩ := List.mem_map.mp hy
    exact hf x hx
  have hlow := (h.between high h.high_mem).1
  have hmap := (hf q hq).1
  rw [hm.spanOf_eq, h.spanOf_eq]
  omega

end Ends

theorem spanOf_congr {ps qs : List Nat} (h : ∀ p, p ∈ ps ↔ p ∈ qs) : spanOf ps = spanOf qs := by
  by_cases hne : ps = []
  · subst hne
    rw [List.eq_nil_iff_forall_not_mem.mpr fun p hp => List.not_mem_nil ((h p).mpr hp)]
  · obtain ⟨low, high, he⟩ := Ends.exists_of_ne_nil hne
    have he' : Ends qs low high :=
      ⟨(h low).mp he.low_mem, (h high).mp he.high_mem, fun p hp => he.between p ((h p).mpr hp)⟩
    rw [he.spanOf_eq, he'.spanOf_eq]

namespace Schedule

variable {W : Type} [Weight W] {s : Schedule W} {start target n r x o z low high : Nat}

def spanGrowth (x o z : Nat) (ps : List Nat) : Int :=
  (spanOf (ps.map (Move.landing x o z)) : Int) - spanOf ps

section Growth

variable {ps : List Nat} (h : Ends ps low high)

include h

theorem spanGrowth_eq {p q : Nat} (hp : p ∈ ps) (hq : q ∈ ps)
    (hf : ∀ t ∈ ps, Move.landing x o z p ≤ Move.landing x o z t ∧
      Move.landing x o z t ≤ Move.landing x o z q) {k : Int}
    (hk : (Move.landing x o z q : Int) - Move.landing x o z p - (high - low) = k) :
    k = spanGrowth x o z ps := by
  rw [spanGrowth, h.spanOf_map_sub hp hq hf, hk]

end Growth

/-- With the outermost places on its two sides, a border has a nearest place on each. -/
theorem exists_border {ps : List Nat} (h : Ends ps low high) (hs : ps.Pairwise (· ≤ ·))
    (hlow : low < o) (hhigh : o ≤ high) :
    ∃ pre ∈ ps, ∃ post ∈ ps, (ps.filter fun p => p < o).getLast? = some pre ∧
      (ps.find? fun p => o ≤ p) = some post ∧ pre < o ∧ o ≤ post ∧
      ∀ t ∈ ps, low ≤ t ∧ t ≤ high ∧ (t < o → t ≤ pre) ∧ (o ≤ t → post ≤ t) := by
  obtain ⟨pre, hpre⟩ : ∃ pre, (ps.filter fun p => p < o).getLast? = some pre := by
    refine Option.ne_none_iff_exists'.mp fun hn => ?_
    have hnone := List.filter_eq_nil_iff.mp (List.getLast?_eq_none_iff.mp hn) low h.low_mem
    exact hnone (decide_eq_true hlow)
  obtain ⟨post, hpost⟩ : ∃ post, (ps.find? fun p => o ≤ p) = some post := by
    refine Option.ne_none_iff_exists'.mp fun hn => ?_
    exact List.find?_eq_none.mp hn high h.high_mem (decide_eq_true hhigh)
  obtain ⟨hprem, hprelt, hpremax⟩ := Ascending.le_getLast?_filter hs hpre
  obtain ⟨hpostm, hpostle, hpostmin⟩ := Ascending.find?_le hs hpost
  refine ⟨pre, hprem, post, hpostm, hpre, hpost, hprelt, hpostle, fun t ht => ?_⟩
  exact ⟨(h.between t ht).1, (h.between t ht).2, hpremax t ht, hpostmin t ht⟩

/-- Where the two blocks do not keep the outermost places together, the places on both
sides of the border decide. -/
theorem spanChange_eq {ps : List Nat} (h : Ends ps low high) (hs : ps.Pairwise (· ≤ ·))
    (hxo : x ≤ o) (hoz : o ≤ z) (hx : x ≤ high) (hz : low < z) (hin : ¬ (low < x ∧ z ≤ high))
    (ha : ¬ (x ≤ low ∧ high < o)) (hb : ¬ (o ≤ low ∧ high < z))
    (ha' : ¬ (low < x ∧ x ≤ high ∧ high < o)) (hb' : ¬ (o ≤ low ∧ low < z ∧ z ≤ high)) :
    spanChange x o z low high (((ps.filter fun p => p < o).getLast?).getD 0)
      ((ps.find? fun p => o ≤ p).getD 0) = spanGrowth x o z ps := by
  have hle := (h.between high h.high_mem).1
  obtain ⟨pre, hprem, post, hpostm, hpre, hpost, hprelt, hpostle, hall⟩ :=
    exists_border h hs (show low < o by omega) (show o ≤ high by omega)
  rw [hpre, hpost]
  have hprel := hall pre hprem
  have hpostl := hall post hpostm
  unfold spanChange
  dsimp only [Option.getD_some]
  -- every branch has the span between the two places that the move makes the outermost ones
  split
  · split
    · refine spanGrowth_eq h h.low_mem h.high_mem (fun t ht => ?_) ?_
      · have := hall t ht
        grind [Move.landing]
      · grind [Move.landing]
    · refine spanGrowth_eq h h.low_mem hprem (fun t ht => ?_) ?_
      · have := hall t ht
        grind [Move.landing]
      · grind [Move.landing]
  · split
    · refine spanGrowth_eq h hpostm hprem (fun t ht => ?_) ?_
      · have := hall t ht
        grind [Move.landing]
      · grind [Move.landing]
    · split
      · refine spanGrowth_eq h hpostm h.high_mem (fun t ht => ?_) ?_
        · have := hall t ht
          grind [Move.landing]
        · grind [Move.landing]
      · refine spanGrowth_eq h h.low_mem h.high_mem (fun t ht => ?_) ?_
        · have := hall t ht
          grind [Move.landing]
        · grind [Move.landing]

/-- Where the ends of the Alloc lie in the same block or outside of both, they tell. -/
theorem spanGrowth_of_ends {ps : List Nat} (h : Ends ps low high) (hxo : x ≤ o) (hoz : o ≤ z) :
    (high < x ∨ z ≤ low ∨ low < x ∧ z ≤ high → spanGrowth x o z ps = 0) ∧
    (x ≤ low ∧ high < o ∨ o ≤ low ∧ high < z → spanGrowth x o z ps = 0) ∧
    (low < x ∧ x ≤ high ∧ high < o → spanGrowth x o z ps = (z : Int) - o) ∧
    (o ≤ low ∧ low < z ∧ z ≤ high → spanGrowth x o z ps = (o : Int) - x) := by
  have hle := (h.between high h.high_mem).1
  refine ⟨fun hc => ?_, fun hc => ?_, fun hc => ?_, fun hc => ?_⟩
  all_goals
    refine (spanGrowth_eq h h.low_mem h.high_mem (fun t ht => ?_) ?_).symm
    · have := h.between t ht
      grind [Move.landing]
    · grind [Move.landing]

theorem Coherent.shiftCost_eq [ExactWeight W] (h : s.Coherent)
    (hb : (⟨start, target, n⟩ : Move).bounds = (x, o, z)) (hxo : x ≤ o) (hoz : o ≤ z) :
    s.shiftCost start target n r =
      spanGrowth x o z (s.placesOfAlloc r) • (s.graph.alloc r).weight := by
  have hs := h.placesOfAlloc_sorted r
  unfold shiftCost
  rw [hb]
  simp only [Bool.or_eq_true, Bool.and_eq_true, decide_eq_true_eq]
  generalize s.placesOfAlloc r = ps at hs
  by_cases hne : ps = []
  · subst hne
    have h0 : spanGrowth x o z [] = 0 := rfl
    rw [h0, zero_smul]
    split
    · rfl
    · next ho =>
      refine if_pos ?_
      simp only [List.head?_nil, List.getLast?_nil, Option.getD_none] at ho ⊢
      omega
  · obtain ⟨low, high, he⟩ := Ends.exists_of_ne_nil hne
    obtain ⟨houtside, hinside, hahead, hbehind⟩ := spanGrowth_of_ends he hxo hoz
    rw [he.head?_eq hs, he.getLast?_eq hs]
    dsimp only [Option.getD_some]
    split
    · next hc => rw [houtside (by omega), zero_smul]
    · split
      · next hc => rw [hinside hc, zero_smul]
      · split
        · next hc => rw [hahead (by omega)]; rfl
        · split
          · next hc => rw [hbehind (by omega)]; rfl
          · rw [spanChange_eq he hs hxo hoz]
            · rfl
            all_goals omega

end Schedule

namespace Schedule

variable {W : Type} [Weight W] {s t : Schedule W} {a b c : Nat}

theorem Exchanged.spanGrowth_placesOfAlloc (e : Exchanged s t a b c) (h : s.Coherent) (r : Nat) :
    spanGrowth a b c (s.placesOfAlloc r) =
      (spanOf ((s.graph.alloc r).ops.map t.placeOf) : Int) -
        spanOf ((s.graph.alloc r).ops.map s.placeOf) := by
  have hs : spanOf ((s.graph.alloc r).ops.map s.placeOf) = spanOf (s.placesOfAlloc r) :=
    spanOf_congr fun p => by rw [h.mem_placesOfAlloc, List.mem_map]
  have ht : spanOf ((s.graph.alloc r).ops.map t.placeOf) =
      spanOf ((s.placesOfAlloc r).map (Move.landing a b c)) := by
    refine spanOf_congr fun p => ?_
    simp only [List.mem_map, h.mem_placesOfAlloc]
    constructor
    · rintro ⟨x, hx, rfl⟩
      exact ⟨_, ⟨x, hx, rfl⟩, (e.placeOf (h.wellFormed.ops_lt hx)).symm⟩
    · rintro ⟨_, ⟨x, hx, rfl⟩, rfl⟩
      exact ⟨x, hx, e.placeOf (h.wellFormed.ops_lt hx)⟩
  rw [spanGrowth, hs, ht]

end Schedule

section Total

variable {W : Type} [Weight W] [ExactWeight W]

def Graph.allocLiveness (g : Graph W) (placeOf : Nat → Nat) (r : Nat) : W :=
  (spanOf ((g.alloc r).ops.map placeOf) : Int) • (g.alloc r).weight

theorem sum_filter_used (placeOf : Nat → Nat) (allocs : List (Alloc W)) :
    ((allocs.filter fun alloc => !alloc.ops.isEmpty).map fun alloc =>
      (spanOf (alloc.ops.map placeOf) : Int) • alloc.weight).sum =
      (allocs.map fun alloc => (spanOf (alloc.ops.map placeOf) : Int) • alloc.weight).sum := by
  induction allocs with
  | nil => rfl
  | cons alloc allocs ih =>
    rw [List.map_cons, List.sum_cons, ← ih, List.filter_cons]
    split
    · rw [List.map_cons, List.sum_cons]
    · next hc =>
      have hn : alloc.ops = [] := by simpa using hc
      rw [hn, show spanOf (([] : List Nat).map placeOf) = 0 from rfl, Nat.cast_zero, zero_smul,
        zero_add]

theorem Graph.totalLiveness_eq (g : Graph W) (placeOf : Nat → Nat) :
    g.totalLiveness placeOf = ∑ r ∈ Finset.range g.allocCount, g.allocLiveness placeOf r := by
  have hs := sum_filter_used placeOf g.allocs.toList
  unfold totalLiveness
  rw [ExactWeight.sum_eq]
  refine hs.trans ?_
  rw [allocs_toList, List.map_map]
  rfl

namespace Schedule

variable {s t : Schedule W} {a b c : Nat}

def total (s : Schedule W) : W := s.graph.totalLiveness s.placeOf

/-- What exchanging the blocks `[a, b)` and `[b, c)` adds to the total liveness. -/
def exchangePrice (s : Schedule W) (a b c : Nat) : W :=
  ∑ r ∈ Finset.range s.allocCount,
    spanGrowth a b c (s.placesOfAlloc r) • (s.graph.alloc r).weight

theorem Exchanged.total_sub (e : Exchanged s t a b c) (h : s.Coherent) :
    t.total - s.total = s.exchangePrice a b c := by
  unfold total exchangePrice
  rw [e.graph, Graph.totalLiveness_eq, Graph.totalLiveness_eq, ← Finset.sum_sub_distrib]
  refine Finset.sum_congr rfl fun r _ => ?_
  rw [Graph.allocLiveness, Graph.allocLiveness, e.spanGrowth_placesOfAlloc h, sub_smul]

end Schedule

end Total

end Liveness
