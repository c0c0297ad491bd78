import Liveness.Proofs.Schedule.Apply
import Liveness.Schedule.Window

/-! # Windows that grow

The room of a window is that of the window without its first or last place, as far as
the Op at that place allows. So rooms can be carried over to larger windows.
-/

namespace Liveness.Schedule

variable {W : Type} [Weight W] {s : Schedule W} {i k n : Nat}

omit [Weight W] in
theorem windowCount_sub_one (s : Schedule W) (n : Nat) :
    s.windowCount n - 1 = s.windowCount (n + 1) := by
  unfold windowCount
  omega

omit [Weight W] in
theorem clearBack_succ : s.ClearBack i (n + 1) k ↔ s.ClearBack i n k ∧
    ∀ p ∈ s.placesBefore (s.opAt (i + n)), p < i → p + k < i := by
  constructor
  · intro h
    exact ⟨fun j hj hj' => h j hj (by omega), h (i + n) (by omega) (by omega)⟩
  · rintro ⟨h, hl⟩ j hj hj'
    by_cases he : j = i + n
    · rw [he]
      exact hl
    · exact h j hj (by omega)

omit [Weight W] in
theorem clearAhead_succ : s.ClearAhead i (n + 1) k ↔ s.ClearAhead (i + 1) n k ∧
    ∀ p ∈ s.placesAfter (s.opAt i), i + (n + 1) ≤ p → i + (n + 1) + k ≤ p := by
  have hw : i + 1 + n = i + (n + 1) := by omega
  constructor
  · intro h
    refine ⟨fun j hj hj' => ?_, h i (Nat.le_refl i) (by omega)⟩
    rw [hw]
    exact h j (by omega) (by omega)
  · rintro ⟨h, hf⟩ j hj hj'
    by_cases he : j = i
    · rw [he]
      exact hf
    · have := h j (by omega) (by omega)
      rwa [hw] at this

namespace Coherent

theorem le_grownBack_iff (h : s.Coherent) {room : Nat} :
    k ≤ s.grownBack (n + 1) i room ↔ k ≤ room ∧
      ∀ p ∈ s.placesBefore (s.opAt (i + n)), p < i → p + k < i := by
  have hl : i + (n + 1) - 1 = i + n := by omega
  rw [← Ascending.forall_getLast?_iff (P := fun p => p + k < i) (h.placesBefore_sorted _)
    fun _ _ _ _ => by omega]
  unfold grownBack
  rw [hl]
  dsimp only
  split
  · next p hp =>
    have hlt := (Ascending.le_getLast?_filter (h.placesBefore_sorted _) hp).2.1
    simp only [hp, Option.some.injEq, forall_eq']
    omega
  · next hn => simp [hn]

theorem le_grownAhead_iff (h : s.Coherent) (hw : i + (n + 1) < s.opCount) :
    k ≤ s.grownAhead (n + 1) i ↔ k ≤ s.ahead (i + 1) ∧
      ∀ p ∈ s.placesAfter (s.opAt i), i + (n + 1) ≤ p → i + (n + 1) + k ≤ p := by
  have hc : ¬ i + 1 = s.windowCount (n + 1) := by
    unfold windowCount
    omega
  rw [← Ascending.forall_find?_iff (P := fun p => i + (n + 1) + k ≤ p) (h.placesAfter_sorted _)
    fun _ _ hle hk => Nat.le_trans hk hle]
  unfold grownAhead
  rw [if_neg hc]
  dsimp only
  split
  · next p hp =>
    have hle := (Ascending.find?_le (h.placesAfter_sorted _) hp).2.1
    simp only [hp, Option.some.injEq, forall_eq']
    omega
  · next hn => simp [hn]

end Coherent

namespace UpToDate

theorem grownBack_eq (h : s.UpToDate n) (hi : i < s.windowCount (n + 1)) :
    s.grownBack (n + 1) i (s.back i) = s.roomBackAt (n + 1) i := by
  have hi' : i < s.windowCount n := by
    unfold windowCount at hi ⊢
    omega
  refine eq_of_forall_le_iff fun k => ?_
  rw [h.toCoherent.le_grownBack_iff, h.back_eq hi', h.toCoherent.le_roomBackAt_iff,
    h.toCoherent.le_roomBackAt_iff, clearBack_succ, and_assoc]

theorem grownAhead_eq (h : s.UpToDate n) (hi : i < s.windowCount (n + 1)) :
    s.grownAhead (n + 1) i = s.roomAheadAt (n + 1) i := by
  have hw : i + (n + 1) ≤ s.opCount := by
    unfold windowCount at hi
    omega
  refine eq_of_forall_le_iff fun k => ?_
  rw [h.toCoherent.le_roomAheadAt_iff hw]
  by_cases hl : i + (n + 1) = s.opCount
  · have hc : i + 1 = s.windowCount (n + 1) := by
      unfold windowCount
      omega
    rw [grownAhead, if_pos hc]
    constructor
    · intro hk
      refine ⟨by omega, fun j hj hj' p hp hle => ?_⟩
      have := h.toCoherent.placesAfter_lt hp
      omega
    · omega
  · have hi' : i + 1 < s.windowCount n := by
      unfold windowCount
      omega
    have hw' : i + 1 + n = i + (n + 1) := by omega
    rw [h.toCoherent.le_grownAhead_iff (by omega), h.ahead_eq hi',
      h.toCoherent.le_roomAheadAt_iff (by omega), clearAhead_succ, and_assoc, hw']

theorem growRoom (h : s.UpToDate n) : (s.growRoom (n + 1)).UpToDate (n + 1) := by
  have hp : s.windowCount n - 1 = s.windowCount (n + 1) := windowCount_sub_one s n
  have hc : (s.growRoom (n + 1)).windowCount (n + 1) = s.windowCount (n + 1) := rfl
  have hsa : s.roomAhead.size = s.windowCount n := by rw [h.roomAhead, size_setRoom_ahead]
  have hsb : s.roomBack.size = s.windowCount n := by rw [h.roomBack, size_setRoom_back]
  refine ⟨h.toCoherent.congr rfl rfl rfl rfl rfl rfl rfl, ?_, ?_⟩
  · refine Array.ext ?_ fun i hi hi' => ?_
    · rw [size_setRoom_ahead, hc, ← hp]
      simp [Schedule.growRoom, hsa]
    · have hlt : i < s.windowCount (n + 1) := by rwa [size_setRoom_ahead, hc] at hi'
      have hr := h.grownAhead_eq hlt
      simp only [Schedule.growRoom, setRoom, Array.getElem_mapIdx, List.getElem_toArray,
        List.getElem_map, List.getElem_range, if_pos hlt]
      exact hr
  · refine Array.ext ?_ fun i hi hi' => ?_
    · rw [size_setRoom_back, hc, ← hp]
      simp [Schedule.growRoom, hsb]
    · have hlt : i < s.windowCount (n + 1) := by rwa [size_setRoom_back, hc] at hi'
      have hr := h.grownBack_eq hlt
      have hb : i < s.roomBack.size := by omega
      simp only [Schedule.growRoom, setRoom, Array.getElem_mapIdx, List.getElem_toArray,
        List.getElem_map, List.getElem_range, if_pos hlt, Array.getElem_pop]
      simp only [back, Array.getD, dif_pos hb] at hr
      exact hr

theorem resize {old new : Nat} (h : s.UpToDate old) : (s.resize old new).UpToDate new := by
  unfold Schedule.resize
  split
  · next he =>
    subst he
    exact h.growRoom
  · exact setRoom_upToDate h.toCoherent new

end UpToDate

end Liveness.Schedule
