import Liveness.Proofs.Schedule.Span

/-! # What is live

The liveness of a schedule is the running sum of the weights of the Allocs that become live
at a place, less those that ended before it. So at each place the Allocs that have Ops on
both sides of it add up, and over all places every Alloc adds its weight once for each
place of its span.
-/

namespace Liveness.Schedule

variable {W : Type} [Weight W] {s : Schedule W} {i r low high : Nat} {w : W}

def IsLive (s : Schedule W) (i r : Nat) : Prop :=
  (∃ p ∈ s.placesOfAlloc r, p ≤ i) ∧ ∃ p ∈ s.placesOfAlloc r, i ≤ p

instance : Decidable (s.IsLive i r) := inferInstanceAs (Decidable (_ ∧ _))

omit [Weight W] in
theorem isLive_iff (h : Ends (s.placesOfAlloc r) low high) :
    s.IsLive i r ↔ low ≤ i ∧ i ≤ high := by
  constructor
  · rintro ⟨⟨p, hp, hpi⟩, q, hq, hiq⟩
    exact ⟨(h.between p hp).1.trans hpi, hiq.trans (h.between q hq).2⟩
  · rintro ⟨hlow, hhigh⟩
    exact ⟨⟨low, h.low_mem, hlow⟩, high, h.high_mem, hhigh⟩

omit [Weight W] in
theorem not_isLive_of_unused (h : s.placesOfAlloc r = []) : ¬ s.IsLive i r := by
  rintro ⟨⟨p, hp, -⟩, -⟩
  rw [h] at hp
  cases hp

theorem Coherent.lt_of_mem_placesOfAlloc (h : s.Coherent) {p : Nat} (hp : p ∈ s.placesOfAlloc r) :
    p < s.opCount := by
  obtain ⟨a, ha, rfl⟩ := h.mem_placesOfAlloc.mp hp
  exact h.placeOf_lt (h.wellFormed.ops_lt ha)

theorem size_addSpan (w : W) (deltas : Array W) (ps : List Nat) :
    (addSpan w deltas ps).size = deltas.size := by
  unfold addSpan
  split
  · simp
  · rfl

theorem size_foldl_addSpan (rs : List Nat) (deltas : Array W) :
    (rs.foldl (fun deltas r => addSpan (s.graph.alloc r).weight deltas (s.placesOfAlloc r))
      deltas).size = deltas.size :=
  List.foldlRecOn (motive := fun d : Array W => d.size = deltas.size) rs _ rfl
    fun d hd _ _ => (size_addSpan _ d _).trans hd

variable [ExactWeight W]

theorem runningSums_eq (sum : W) (ds : List W) :
    runningSums sum ds = (List.range ds.length).map fun i => sum + (ds.take (i + 1)).sum := by
  induction ds generalizing sum with
  | nil => rfl
  | cons d ds ih =>
    rw [runningSums, ih, List.length_cons, List.range_succ_eq_map, List.map_cons, List.map_map]
    simp [Function.comp_def, add_assoc]

theorem sum_take_modify {f : W → W} (hf : ∀ x, f x = x + w) {ds : List W} (hi : i < ds.length)
    (k : Nat) : ((ds.modify i f).take k).sum = (ds.take k).sum + if i < k then w else 0 := by
  induction ds generalizing i k with
  | nil => exact absurd hi (Nat.not_lt_zero i)
  | cons d ds ih =>
    cases k with
    | zero => simp
    | succ k =>
      cases i with
      | zero => simp [hf, add_assoc, add_comm]
      | succ i => simp [ih (Nat.lt_of_succ_lt_succ hi), add_assoc]

theorem sum_take_addSpan {deltas : Array W}
    (hs : (s.placesOfAlloc r).Pairwise (· ≤ ·))
    (hlt : ∀ p ∈ s.placesOfAlloc r, p + 1 < deltas.size) :
    ((addSpan w deltas (s.placesOfAlloc r)).toList.take (i + 1)).sum =
      (deltas.toList.take (i + 1)).sum + if s.IsLive i r then w else 0 := by
  by_cases hne : s.placesOfAlloc r = []
  · rw [if_neg (not_isLive_of_unused hne), hne, add_zero]
    rfl
  · obtain ⟨low, high, he⟩ := Ends.exists_of_ne_nil hne
    have hle := (he.between high he.high_mem).1
    have hhigh := hlt high he.high_mem
    unfold addSpan
    rw [he.head?_eq hs, he.getLast?_eq hs]
    simp only [isLive_iff he, Array.toList_modify]
    rw [sum_take_modify (w := -w) (fun x => sub_eq_add_neg x w) (by simpa using hhigh),
      sum_take_modify (fun _ => rfl) (by simpa using by omega), add_assoc]
    congr 1
    by_cases hl : low ≤ i
    · by_cases hh : i ≤ high
      · rw [if_pos (by omega), if_neg (by omega), if_pos ⟨hl, hh⟩, add_zero]
      · rw [if_pos (by omega), if_pos (by omega), if_neg fun h => hh h.2, add_neg_cancel]
    · rw [if_neg (by omega), if_neg (by omega), if_neg fun h => hl h.1, add_zero]

theorem sum_take_foldl_addSpan {rs : List Nat} {deltas : Array W} (h : s.Coherent)
    (hd : deltas.size = s.opCount + 1) :
    ((rs.foldl (fun deltas r => addSpan (s.graph.alloc r).weight deltas (s.placesOfAlloc r))
        deltas).toList.take (i + 1)).sum =
      (deltas.toList.take (i + 1)).sum +
        (rs.map fun r => if s.IsLive i r then (s.graph.alloc r).weight else 0).sum := by
  induction rs generalizing deltas with
  | nil => simp
  | cons r rs ih =>
    have hlt : ∀ p ∈ s.placesOfAlloc r, p + 1 < deltas.size := by
      intro p hp
      have := h.lt_of_mem_placesOfAlloc hp
      omega
    rw [List.foldl_cons, ih ((size_addSpan _ _ _).trans hd),
      sum_take_addSpan (h.placesOfAlloc_sorted r) hlt, List.map_cons, List.sum_cons, add_assoc]

/-- What is live at a place are the Allocs with Ops on both sides of it. -/
theorem Coherent.livenessOf_eq (h : s.Coherent) : s.livenessOf.toList =
    (List.range s.opCount).map fun i =>
      ∑ r ∈ Finset.range s.allocCount, if s.IsLive i r then (s.graph.alloc r).weight else 0 := by
  have hl : s.graph.allocs.toList.zipIdx =
      (List.range s.allocCount).map fun r => (s.graph.alloc r, r) := by
    apply List.ext_getElem (by simp [allocCount, Graph.allocCount])
    intro r hr _
    have hr' : r < s.graph.allocs.size := by simpa using hr
    simp [Graph.alloc, Array.getD, hr']
  unfold livenessOf
  rw [hl]
  dsimp only
  rw [List.foldl_map, runningSums_eq]
  rw [List.length_take, Array.length_toList, size_foldl_addSpan, Array.size_replicate,
    Nat.min_eq_left (Nat.le_succ _)]
  apply List.map_congr_left
  intro i hi
  have hi := List.mem_range.mp hi
  have hzero : ((Array.replicate (s.opCount + 1) (0 : W)).toList.take (i + 1)).sum = 0 := by simp
  rw [List.take_take, Nat.min_eq_left hi, sum_take_foldl_addSpan h (by simp), hzero, zero_add,
    zero_add]
  rfl

theorem Coherent.sum_isLive (h : s.Coherent) (r : Nat) :
    (∑ i ∈ Finset.range s.opCount, if s.IsLive i r then w else 0) =
      (spanOf (s.placesOfAlloc r) : Int) • w := by
  by_cases hne : s.placesOfAlloc r = []
  · rw [hne, Finset.sum_eq_zero fun i _ => if_neg (not_isLive_of_unused hne)]
    exact (zero_smul Int w).symm
  · obtain ⟨low, high, he⟩ := Ends.exists_of_ne_nil hne
    have hlt := h.lt_of_mem_placesOfAlloc he.high_mem
    have hlive : (Finset.range s.opCount).filter (s.IsLive · r) = Finset.Icc low high := by
      ext i
      rw [Finset.mem_filter, Finset.mem_range, isLive_iff he, Finset.mem_Icc]
      omega
    have hle := (he.between high he.high_mem).1
    rw [← Finset.sum_filter, hlive, Finset.sum_const, Nat.card_Icc, he.spanOf_eq, natCast_zsmul,
      Nat.sub_add_comm hle]

theorem Coherent.sum_livenessOf (h : s.Coherent) : Weight.sum s.livenessOf.toList = s.total := by
  have hsum : Weight.sum s.livenessOf.toList = ∑ i ∈ Finset.range s.opCount,
      ∑ r ∈ Finset.range s.allocCount, if s.IsLive i r then (s.graph.alloc r).weight else 0 := by
    rw [ExactWeight.sum_eq, h.livenessOf_eq]
    rfl
  rw [hsum, Finset.sum_comm, total, Graph.totalLiveness_eq]
  apply Finset.sum_congr rfl
  intro r _
  rw [h.sum_isLive, Graph.allocLiveness]
  congr 2
  apply spanOf_congr
  intro p
  rw [h.mem_placesOfAlloc, List.mem_map]

end Liveness.Schedule
