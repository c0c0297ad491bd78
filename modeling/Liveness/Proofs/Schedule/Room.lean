import Liveness.Proofs.Schedule.Coherent

/-! # The room of a window

A window can go ahead by `k` places when it stays in the schedule and no Op after one
of its own is in the way, and back when no Op before one of its own is.
-/

namespace Liveness

theorem le_foldl_min {ps : List Nat} {m k : Nat} :
    k ≤ ps.foldl min m ↔ k ≤ m ∧ ∀ p ∈ ps, k ≤ p := by
  induction ps generalizing m with
  | nil => simp
  | cons p ps ih =>
    rw [List.foldl_cons, ih, Nat.le_min, List.forall_mem_cons, and_assoc]

theorem foldl_max_le {ps : List Nat} {m k : Nat} :
    ps.foldl max m ≤ k ↔ m ≤ k ∧ ∀ p ∈ ps, p ≤ k := by
  induction ps generalizing m with
  | nil => simp
  | cons p ps ih =>
    rw [List.foldl_cons, ih, Nat.max_le, List.forall_mem_cons, and_assoc]

theorem le_min?_getD {ps : List Nat} {m k : Nat} (h : ∀ p ∈ ps, p ≤ m) :
    k ≤ ps.min?.getD m ↔ k ≤ m ∧ ∀ p ∈ ps, k ≤ p := by
  cases ps with
  | nil => simp
  | cons p ps =>
    have hp : p ≤ m := h p List.mem_cons_self
    rw [List.min?_cons', Option.getD_some, le_foldl_min, List.forall_mem_cons]
    exact ⟨fun hk => ⟨Nat.le_trans hk.1 hp, hk⟩, fun hk => hk.2⟩

theorem eq_of_forall_le_iff {m n : Nat} (h : ∀ k, k ≤ m ↔ k ≤ n) : m = n :=
  Nat.le_antisymm ((h m).mp (Nat.le_refl m)) ((h n).mpr (Nat.le_refl n))

namespace Schedule

variable {W : Type} [Weight W] {s : Schedule W} {start n k i : Nat}

/-- No Op after one of the window keeps it from going ahead by `k` places. -/
def ClearAhead (s : Schedule W) (start n k : Nat) : Prop :=
  ∀ i, start ≤ i → i < start + n → ∀ p ∈ s.placesAfter (s.opAt i), start + n ≤ p →
    start + n + k ≤ p

def ClearBack (s : Schedule W) (start n k : Nat) : Prop :=
  ∀ i, start ≤ i → i < start + n → ∀ p ∈ s.placesBefore (s.opAt i), p < start → p + k < start

omit [Weight W] in
theorem forall_window_iff {f : Nat → Option Nat} {P : Nat → Prop} :
    (∀ p ∈ ((List.range' start n).map s.opAt).filterMap f, P p) ↔
      ∀ i, start ≤ i → i < start + n → ∀ p, f (s.opAt i) = some p → P p := by
  simp only [List.mem_filterMap, List.mem_map, List.mem_range'_1]
  constructor
  · intro h i hi hi' p hp
    exact h p ⟨_, ⟨i, ⟨hi, hi'⟩, rfl⟩, hp⟩
  · rintro h p ⟨_, ⟨i, ⟨hi, hi'⟩, rfl⟩, hp⟩
    exact h i hi hi' p hp

namespace Coherent

theorem placesAfter_lt (h : s.Coherent) {a p : Nat} (hp : p ∈ s.placesAfter a) :
    p < s.opCount := by
  obtain ⟨b, hb, rfl⟩ := h.mem_placesAfter.mp hp
  exact h.placeOf_lt (h.wellFormed.outs_lt hb)

theorem le_firstConsumer_iff (h : s.Coherent) :
    k ≤ s.firstConsumer start n ↔ k ≤ s.opCount ∧
      ∀ i, start ≤ i → i < start + n → ∀ p ∈ s.placesAfter (s.opAt i), start + n ≤ p → k ≤ p := by
  unfold firstConsumer
  dsimp only
  rw [le_min?_getD, forall_window_iff]
  · simp only [Ascending.forall_find?_iff (P := fun p => k ≤ p) (h.placesAfter_sorted _)
      fun _ _ hle hk => Nat.le_trans hk hle]
  · rw [forall_window_iff]
    intro i _ _ p hp
    exact Nat.le_of_lt (h.placesAfter_lt (List.mem_of_find?_eq_some hp))

theorem le_roomAheadAt_iff (h : s.Coherent) (hw : start + n ≤ s.opCount) :
    k ≤ s.roomAheadAt n start ↔ start + n + k ≤ s.opCount ∧ s.ClearAhead start n k := by
  have hf : start + n ≤ s.firstConsumer start n :=
    h.le_firstConsumer_iff.mpr ⟨hw, fun _ _ _ _ _ hp => hp⟩
  have hr : k ≤ s.roomAheadAt n start ↔ start + n + k ≤ s.firstConsumer start n := by
    unfold roomAheadAt
    omega
  exact hr.trans h.le_firstConsumer_iff

theorem le_roomBackAt_iff (h : s.Coherent) :
    k ≤ s.roomBackAt n start ↔ k ≤ start ∧ s.ClearBack start n k := by
  have hc : (∀ p ∈ ((List.range' start n).map s.opAt).filterMap fun a =>
      ((s.placesBefore a).filter fun q => q < start).getLast?, p + k < start) ↔
      s.ClearBack start n k := by
    rw [forall_window_iff]
    simp only [Ascending.forall_getLast?_iff (P := fun p => p + k < start)
      (h.placesBefore_sorted _) fun _ _ _ _ => by omega]
    rfl
  rw [← hc]
  unfold roomBackAt lastProducer?
  dsimp only
  split
  · next p hp =>
    obtain ⟨hm, hle⟩ := List.max?_eq_some_iff.mp hp
    have hlt : p < start := by
      obtain ⟨a, -, hl⟩ := List.mem_filterMap.mp hm
      simpa using (List.mem_filter.mp (List.mem_of_getLast? hl)).2
    constructor
    · intro hk
      refine ⟨by omega, fun q hq => ?_⟩
      have := hle q hq
      omega
    · intro hk
      have := hk.2 p hm
      omega
  · next hn =>
    rw [List.max?_eq_none_iff.mp hn]
    simp

end Coherent

end Schedule

end Liveness
