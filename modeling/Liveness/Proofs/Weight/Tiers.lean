import Mathlib.Tactic.IntervalCases
import Liveness.Proofs.Weight.Exact
import Liveness.Proofs.Weight.Doubles
import Liveness.Proofs.Weight.Naturals

/-! # Weights on one tier

A weight on one tier is zero on all others. So it is zero when its magnitude is, and two weights on
the same tier compare as their magnitudes do. With natural numbers below `2 ^ 53` as magnitudes they
compare as the numbers.
-/

namespace Liveness

namespace Tiered

section OneTier

variable {α : Type} [Magnitude α] {tier : Int}

theorem exists_toList_onTier (ht : isTier tier = true) : ∃ before after, ∀ x : α,
    (onTier x tier).tiers.toList = List.replicate before 0 ++ x :: List.replicate after 0 := by
  have htier : -3 ≤ tier ∧ tier ≤ 3 := by
    rwa [isTier, Bool.and_eq_true, decide_eq_true_iff, decide_eq_true_iff] at ht
  obtain ⟨hlow, hhigh⟩ := htier
  interval_cases tier
  · exact ⟨6, 0, fun _ => rfl⟩
  · exact ⟨5, 1, fun _ => rfl⟩
  · exact ⟨4, 2, fun _ => rfl⟩
  · exact ⟨3, 3, fun _ => rfl⟩
  · exact ⟨2, 4, fun _ => rfl⟩
  · exact ⟨1, 5, fun _ => rfl⟩
  · exact ⟨0, 6, fun _ => rfl⟩

theorem onTier_zero (tier : Int) : onTier (0 : α) tier = 0 :=
  ext_tiers fun i hi => by
    rw [tiers_zero]
    simp [onTier]

theorem isZero_onTier (h0 : Magnitude.isZero (0 : α) = true) (ht : isTier tier = true) (x : α) :
    isZero (onTier x tier) = Magnitude.isZero x := by
  obtain ⟨before, after, hl⟩ := exists_toList_onTier (α := α) ht
  rw [isZero, hl]
  simp [h0]

theorem orderLists_append (h0 : Magnitude.order (0 : α) 0 = .eq) (before after : Nat) (x y : α) :
    orderLists (List.replicate before 0 ++ x :: List.replicate after 0)
      (List.replicate before 0 ++ y :: List.replicate after 0) = Magnitude.order x y := by
  have hzeros : ∀ n, orderLists (List.replicate n (0 : α)) (List.replicate n 0) = .eq := by
    intro n
    induction n with
    | zero => rfl
    | succ n ih => rw [List.replicate_succ, orderLists, h0, Ordering.then, ih]
  induction before with
  | zero =>
    rw [List.replicate_zero, List.nil_append, List.nil_append, orderLists, hzeros, Ordering.then_eq]
  | succ n ih =>
    rw [List.replicate_succ, List.cons_append, List.cons_append, orderLists, h0, Ordering.then, ih]

theorem order_onTier (h0 : Magnitude.order (0 : α) 0 = .eq) (ht : isTier tier = true) (x y : α) :
    Weight.order (onTier x tier) (onTier y tier) = Magnitude.order x y := by
  obtain ⟨before, after, hl⟩ := exists_toList_onTier (α := α) ht
  change orderLists _ _ = _
  rw [hl, hl, orderLists_append h0]

end OneTier

end Tiered

namespace Binary64

variable {x y : Float} {k l tier : Int} {m n : Nat}

theorem Keyed.isZero_iff (hx : Keyed x.toModel.unpack k) : Magnitude.isZero x = true ↔ k = 0 := by
  change (compare? x 0 == some .eq) = true ↔ _
  rw [hx.compare?_eq keyed_zero, beq_iff_eq, Option.some.injEq, cmp_eq_eq_iff]

theorem order_zero : Magnitude.order (0 : Float) 0 = .eq := by
  rw [keyed_zero.order_eq keyed_zero, cmp_self_eq_eq]

theorem Keyed.isZero_onTier (hx : Keyed x.toModel.unpack k) (ht : Tiered.isTier tier = true) :
    (Tiered.onTier x tier).isZero = true ↔ k = 0 := by
  rw [Tiered.isZero_onTier (keyed_zero.isZero_iff.mpr rfl) ht, hx.isZero_iff]

theorem Keyed.lt_onTier (hx : Keyed x.toModel.unpack k) (hy : Keyed y.toModel.unpack l)
    (ht : Tiered.isTier tier = true) :
    Weight.lt (Tiered.onTier x tier) (Tiered.onTier y tier) = true ↔ k < l := by
  rw [Weight.lt, Tiered.order_onTier order_zero ht, hx.order_eq hy, beq_iff_eq, cmp_eq_lt_iff]

end Binary64

end Liveness
