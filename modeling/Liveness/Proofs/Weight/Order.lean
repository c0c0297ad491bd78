import Mathlib.Algebra.Order.Group.Defs
import Mathlib.Algebra.Order.BigOperators.Group.Finset
import Liveness.Proofs.Weight.Exact

/-! # The order of exact weights

Exact weights are linearly ordered by their comparison, and sums keep the order.
-/

namespace Liveness.ExactWeight

variable {W : Type} [Weight W] [h : ExactWeight W] {a b c : W}

theorem le_antisymm (hab : Weight.le a b = true) (hba : Weight.le b a = true) : a = b :=
  h.eq_of_order (Weight.same_iff.mp (Weight.same_iff_le.mpr ⟨hab, hba⟩))

instance : LinearOrder W where
  le a b := Weight.le a b = true
  lt a b := Weight.lt a b = true
  le_refl := Weight.le_self
  le_trans _ _ _ := Weight.le_trans
  le_antisymm _ _ := le_antisymm
  le_total := Weight.le_total
  lt_iff_le_not_ge _ _ := ⟨fun hlt => ⟨Weight.le_of_lt hlt, Weight.lt_iff_not_le.mp hlt⟩,
    fun hle => Weight.lt_iff_not_le.mpr hle.2⟩
  toDecidableLE _ _ := inferInstanceAs (Decidable (_ = true))
  toDecidableLT _ _ := inferInstanceAs (Decidable (_ = true))

theorem le_iff : Weight.le a b = true ↔ a ≤ b := .rfl

theorem lt_iff : Weight.lt a b = true ↔ a < b := .rfl

theorem min_eq (a b : W) : Weight.min a b = min a b := by
  unfold Weight.min
  split
  · next hlt => exact (min_eq_right (le_of_lt (lt_iff.mp hlt))).symm
  · next hlt => exact (min_eq_left (not_lt.mp hlt)).symm

theorem max_eq (a b : W) : Weight.max a b = max a b := by
  unfold Weight.max
  split
  · next hlt => exact (max_eq_left (le_of_lt (lt_iff.mp hlt))).symm
  · next hlt => exact (max_eq_right (not_lt.mp hlt)).symm

instance : IsOrderedAddMonoid W where
  add_le_add_left a b hab c := by
    rw [← le_iff, Weight.le] at *
    rwa [h.order_add]

end Liveness.ExactWeight
