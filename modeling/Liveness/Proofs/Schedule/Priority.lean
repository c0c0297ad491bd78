import Mathlib.Order.Lattice
import Liveness.Schedule.Priority

/-! # The laws of priorities

A priority that is at least itself is a number. The larger of a number and anything else
is one of the two and a number, and no number is below the bottom. So the top of some
priorities is a number, and one of them reaches it if they are numbers themselves. Doubles
obey these laws, those that are not a number included.
-/

namespace Liveness

/-- The laws of priorities, some of which may not be numbers. -/
class LawfulPriority (P : Type) [Priority P] : Prop where
  zero_self : Priority.atLeast (0 : P) 0 = true
  bottom_self : Priority.atLeast (Priority.bottom : P) Priority.bottom = true
  larger_self : ∀ {a b : P}, Priority.atLeast a a = true →
    Priority.atLeast (Priority.larger a b) (Priority.larger a b) = true
  larger_eq : ∀ {a b : P}, Priority.atLeast a a = true →
    Priority.larger a b = a ∨ Priority.larger a b = b
  atLeast_bottom : ∀ {a : P}, Priority.atLeast a a = true →
    Priority.atLeast a Priority.bottom = true

namespace Priority

variable {P : Type} [Priority P] [LawfulPriority P] {ps : List P}

open LawfulPriority

theorem foldl_larger (ps : List P) {p : P} (hp : atLeast p p = true) :
    atLeast (ps.foldl larger p) (ps.foldl larger p) = true ∧
      (ps.foldl larger p = p ∨ ps.foldl larger p ∈ ps) := by
  induction ps generalizing p with
  | nil => exact ⟨hp, .inl rfl⟩
  | cons q ps ih =>
    obtain ⟨hself, hmem⟩ := ih (larger_self (b := q) hp)
    refine ⟨hself, ?_⟩
    rw [List.foldl_cons]
    rcases hmem with hmem | hmem
    · rw [hmem, List.mem_cons]
      exact (larger_eq hp).imp_right .inl
    · exact .inr (List.mem_cons_of_mem q hmem)

theorem top_self (ps : List P) : atLeast (top ps) (top ps) = true := (foldl_larger ps bottom_self).1

theorem exists_atLeast_top (hne : ps ≠ []) (hs : ∀ p ∈ ps, atLeast p p = true) :
    ∃ p ∈ ps, atLeast p (top ps) = true := by
  obtain ⟨hself, h | h⟩ := foldl_larger ps bottom_self
  · obtain ⟨p, hp⟩ := List.exists_mem_of_ne_nil ps hne
    refine ⟨p, hp, ?_⟩
    rw [top, h]
    exact atLeast_bottom (hs p hp)
  · exact ⟨top ps, h, hself⟩

end Priority

namespace Binary64

variable {a b : Float}

theorem le_self_iff : a ≤ a ↔ a.isNaN = false := by
  change Float.le a a = true ↔ a.isNaN = false
  unfold Float.le Float.isNaN Float.Model.isNaN
  rw [decide_eq_true_iff]
  change Float.Model.le _ _ = true ↔ _
  unfold Float.Model.le Float.Model.UnpackedFloat.le
  cases a.toModel.unpack with
  | infinity s => cases s <;> decide
  | notANumber => decide
  | zero s => cases s <;> decide
  | finite s m e h =>
    apply iff_of_true _ rfl
    unfold Float.Model.UnpackedFloat.compare
    cases s <;> dsimp only <;> simp

theorem bottom_le (h : a.isNaN = false) : (Priority.bottom : Float) ≤ a := by
  have hb : (Priority.bottom : Float).toModel.unpack = .infinity .negative := rfl
  change Float.le _ a = true
  unfold Float.le
  rw [decide_eq_true_iff]
  change Float.Model.le _ _ = true
  unfold Float.isNaN Float.Model.isNaN at h
  unfold Float.Model.le Float.Model.UnpackedFloat.le
  rw [hb]
  cases hu : a.toModel.unpack with
  | infinity s => cases s <;> decide
  | notANumber =>
    rw [hu] at h
    cases h
  | zero s => rfl
  | finite s m e h => rfl

end Binary64

instance : LawfulPriority Float where
  zero_self := by decide +kernel
  bottom_self := by decide +kernel
  larger_self {a b} h := by
    simp only [Priority.atLeast, decide_eq_true_eq, Binary64.le_self_iff] at h ⊢
    simp only [Priority.larger, Binary64.maxNumber, h]
    split
    · contradiction
    · split
      · exact h
      · next hb =>
        split
        · simpa using hb
        · exact h
  larger_eq {a b} h := by
    simp only [Priority.larger, Binary64.maxNumber]
    split
    · exact .inr rfl
    · split
      · exact .inl rfl
      · split
        · exact .inr rfl
        · exact .inl rfl
  atLeast_bottom h := by
    simp only [Priority.atLeast, decide_eq_true_eq, Binary64.le_self_iff] at h ⊢
    exact Binary64.bottom_le h

namespace Numbers

scoped instance : LawfulPriority Nat where
  zero_self := by decide
  bottom_self := by decide
  larger_self _ := decide_eq_true (Nat.le_refl _)
  larger_eq {a b} _ := (Nat.le_total a b).symm.imp Nat.max_eq_left Nat.max_eq_right
  atLeast_bottom _ := decide_eq_true (Nat.zero_le _)

end Numbers

end Liveness
