import Liveness.Proofs.Weight.Ranked
import Liveness.Proofs.Weight.Words

/-! # Ranks of doubles

Doubles that are no numbers compare with nothing, so they are given a rank above all numbers. With
that the order of weights of doubles is total, whatever their tiers hold.
-/

namespace Liveness

namespace Binary64

variable {x y : Float} {k l : Int}

/-- A double ranks below another one when it is less, or a number where the other one is none. -/
def Below (x y : Float) : Prop := x < y ∨ x.isNaN = false ∧ y.isNaN = true

/-- Two doubles rank equal when they are equal, as zeros of both signs are, or both no numbers. -/
def Level (x y : Float) : Prop := (x == y) = true ∨ x.isNaN = true ∧ y.isNaN = true

theorem not_lt_of_isNaN (h : x.isNaN = true ∨ y.isNaN = true) : ¬ x < y := fun hlt => by
  have hc := lt_iff_compare.mp hlt
  rw [compare_eq_none h] at hc
  cases hc

theorem not_beq_of_isNaN (h : x.isNaN = true ∨ y.isNaN = true) : ¬ (x == y) = true := fun he => by
  have hc := beq_iff_compare.mp he
  rw [compare_eq_none h] at hc
  cases hc

theorem compare?_eq_none (h : x.isNaN = true ∨ y.isNaN = true) : compare? x y = none := by
  unfold compare?
  rw [if_neg (not_lt_of_isNaN h), if_neg (not_beq_of_isNaN h), if_neg (not_lt_of_isNaN h.symm)]

theorem Keyed.order_eq (hx : Keyed x.toModel.unpack k) (hy : Keyed y.toModel.unpack l) :
    Magnitude.order x y = cmp k l := by
  change (compare? x y).getD _ = _
  rw [hx.compare?_eq hy, Option.getD_some]

/-- The key of a double that is a number, and a rank above all keys otherwise. -/
def rank (x : Float) : WithTop Int := if x.isNaN then ⊤ else key x

theorem order_eq_cmp (x y : Float) : Magnitude.order x y = cmp (rank x) (rank y) := by
  have hnone : x.isNaN = true ∨ y.isNaN = true →
      Magnitude.order x y = compare x.isNaN y.isNaN := fun h => by
    change (compare? x y).getD _ = _
    rw [compare?_eq_none h]
    rfl
  unfold rank
  cases hx : x.isNaN with
  | true =>
    rw [hnone (.inl hx), hx, if_pos rfl]
    cases hy : y.isNaN with
    | true => exact (cmp_self_eq_eq _).symm
    | false => exact (WithTop.coe_lt_top _).cmp_eq_gt.symm
  | false =>
    cases hy : y.isNaN with
    | true =>
      rw [hnone (.inr hy), hx, hy]
      exact (WithTop.coe_lt_top _).cmp_eq_lt.symm
    | false =>
      rw [(keyed_of_not_isNaN hx).order_eq (keyed_of_not_isNaN hy)]
      exact (WithTop.coe_strictMono.cmp_map_eq _ _).symm

instance : Std.TransCmp (Magnitude.order (α := Float)) where
  eq_swap {x y} := by rw [order_eq_cmp, order_eq_cmp, cmp_swap]
  isLE_trans {x y z} hxy hyz := by
    simp only [Ordering.isLE_iff_ne_gt, order_eq_cmp, cmp_eq_gt_iff, not_lt] at *
    exact hxy.trans hyz

theorem order_eq_lt_iff : Magnitude.order x y = .lt ↔ Below x y := by
  rw [order_eq_cmp, cmp_eq_lt_iff]
  unfold Below rank
  cases hx : x.isNaN with
  | true => simpa using not_lt_of_isNaN (.inl hx)
  | false =>
    cases hy : y.isNaN with
    | true => simp
    | false => simp [(keyed_of_not_isNaN hx).lt_iff (keyed_of_not_isNaN hy)]

theorem order_eq_eq_iff : Magnitude.order x y = .eq ↔ Level x y := by
  rw [order_eq_cmp, cmp_eq_eq_iff]
  unfold Level rank
  cases hx : x.isNaN with
  | true =>
    cases hy : y.isNaN with
    | true => simp
    | false => simpa using not_beq_of_isNaN (.inl hx)
  | false =>
    cases hy : y.isNaN with
    | true => simpa using not_beq_of_isNaN (.inr hy)
    | false => simp [(keyed_of_not_isNaN hx).beq_iff (keyed_of_not_isNaN hy)]

end Binary64

namespace Tiered

/-- Weights of doubles are in a total order, numbers or not, up to weights that rank equal. So what
is chosen by comparing them is determined by their ranks. One weight is below another exactly when
it is on the highest tier on which they differ in rank, and they rank equal when there is none. -/
theorem doubles_ranked : Weight.Ranked (Tiered Float) ∧ Weight.Choosable (Tiered Float) ∧
    ∀ v w : Tiered Float,
      (Weight.lt v w = true ↔ ∃ tier, isTier tier = true ∧
        Binary64.Below (v.get tier) (w.get tier) ∧
          ∀ t, isTier t = true → tier < t → Binary64.Level (v.get t) (w.get t)) ∧
      (Weight.same v w = true ↔
        ∀ t, isTier t = true → Binary64.Level (v.get t) (w.get t)) := by
  refine ⟨Weight.ranked, Weight.choosable, fun v w => ⟨?_, ?_⟩⟩
  · simp only [← Binary64.order_eq_lt_iff, ← Binary64.order_eq_eq_iff]
    exact beq_iff_eq.trans order_eq_lt_iff
  · simp only [← Binary64.order_eq_eq_iff]
    exact Weight.same_iff.trans order_eq_eq_iff

/-- Infinity is below what is no number, and a higher tier decides; the sign of a zero does not. -/
example : Weight.lt (onTier (1.0 / 0.0 : Float) 3) (onTier (0.0 / 0.0) 3) = true ∧
    Weight.lt (onTier (0.0 / 0.0 : Float) 0) (onTier 1e-6 1) = true ∧
      Weight.same (onTier (-0.0 : Float) 0) 0 = true := by
  decide +kernel

end Tiered

end Liveness
