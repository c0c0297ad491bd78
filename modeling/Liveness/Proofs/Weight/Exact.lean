import Mathlib.Algebra.Order.Ring.Rat
import Mathlib.Tactic.Abel
import Mathlib.Tactic.Module
import Liveness.Proofs.Weight.Ranked
import Liveness.Weight.Whole

/-! # Exact weights

Weights whose arithmetic is exact are an ordered group. Weights by tier are exact when
their magnitudes are, and whole numbers and fractions are exact magnitudes. They are finite
as well.
-/

namespace Liveness

/-- The laws of exact arithmetic with a comparison that sums keep. -/
structure ExactLaws (α : Type) [Zero α] [Add α] [Sub α] (scale : Int → α → α)
    (order : α → α → Ordering) (agree : α → α → Bool) : Prop where
  add_assoc : ∀ a b c : α, a + b + c = a + (b + c)
  add_comm : ∀ a b : α, a + b = b + a
  zero_add : ∀ a : α, 0 + a = a
  sub_add_cancel : ∀ a b : α, a - b + b = a
  zero_scale : ∀ a : α, scale 0 a = 0
  one_scale : ∀ a : α, scale 1 a = a
  add_scale : ∀ (j k : Int) (a : α), scale (j + k) a = scale j a + scale k a
  trans : Std.TransCmp order
  eq_of_order : ∀ {a b : α}, order a b = .eq → a = b
  order_add : ∀ a b c : α, order (a + c) (b + c) = order a b
  agree_self : ∀ a : α, agree a a = true

class ExactMagnitude (α : Type) [Magnitude α] : Prop
    extends ExactLaws α Magnitude.scale Magnitude.order Magnitude.agree

class ExactWeight (W : Type) [Weight W] : Prop
    extends ExactLaws W Weight.scale Weight.order Weight.agree

class FiniteMagnitude (α : Type) [Magnitude α] : Prop where
  isFinite : ∀ x : α, Magnitude.isFinite x = true

class FiniteWeight (W : Type) [Weight W] : Prop where
  defect?_eq_none : ∀ w : W, Weight.defect? w = none

section Numbers

variable {α : Type} [LinearOrder α]

theorem compare_trans : Std.TransCmp (compare : α → α → Ordering) where
  eq_swap {a b} := by
    rw [compare_iff]
    rcases lt_trichotomy a b with h | rfl | h
    · rw [compare_gt_iff_gt.mpr h]
      exact h
    · rw [compare_eq_iff_eq.mpr rfl]
      rfl
    · rw [compare_lt_iff_lt.mpr h]
      exact h
  isLE_trans {a b c} hab hbc := by
    rw [Ordering.isLE_iff_ne_gt] at *
    exact compare_le_iff_le.mpr ((compare_le_iff_le.mp hab).trans (compare_le_iff_le.mp hbc))

theorem exactLaws_of_numbers [CommRing α] [IsStrictOrderedRing α] :
    ExactLaws α (fun k a => k * a) compare (fun a b => decide (a = b)) where
  add_assoc := add_assoc
  add_comm := add_comm
  zero_add := zero_add
  sub_add_cancel := sub_add_cancel
  zero_scale := by simp
  one_scale := by simp
  add_scale := by simp [add_mul]
  trans := compare_trans
  eq_of_order := compare_eq_iff_eq.mp
  order_add a b c := by
    rw [compare_iff]
    rcases lt_trichotomy a b with h | rfl | h
    · rw [compare_lt_iff_lt.mpr h]
      exact add_lt_add_left h c
    · rw [compare_eq_iff_eq.mpr rfl]
      rfl
    · rw [compare_gt_iff_gt.mpr h]
      exact add_lt_add_left h c
  agree_self := by simp

end Numbers

namespace Numbers

scoped instance : ExactMagnitude Int := ⟨exactLaws_of_numbers⟩

scoped instance : Magnitude Rat where
  zero := 0
  scale := fun k x => k * x
  compare? := fun a b => some (compare a b)
  isNaN := fun _ => false
  isFinite := fun _ => true
  agree := fun a b => decide (a = b)
  text := toString

scoped instance : ExactMagnitude Rat := ⟨exactLaws_of_numbers⟩

scoped instance : FiniteMagnitude Int := ⟨fun _ => rfl⟩

scoped instance : FiniteMagnitude Rat := ⟨fun _ => rfl⟩

end Numbers

namespace Tiered

section Tiers

variable {α : Type} {v w : Tiered α} {i : Nat} (hi : i < tierCount)

theorem ext_tiers (h : ∀ i (hi : i < tierCount), v.tiers[i] = w.tiers[i]) : v = w := by
  cases v
  cases w
  exact congrArg mk (Vector.ext h)

variable [Magnitude α]

theorem tiers_zero : (0 : Tiered α).tiers[i] = 0 := Vector.getElem_ofFn hi

theorem tiers_add : (v + w).tiers[i] = v.tiers[i] + w.tiers[i] := Vector.getElem_zipWith hi

theorem tiers_sub : (v - w).tiers[i] = v.tiers[i] - w.tiers[i] := Vector.getElem_zipWith hi

theorem tiers_scale (k : Int) :
    (Weight.scale k v).tiers[i] = Magnitude.scale k v.tiers[i] := Vector.getElem_map _ hi

end Tiers

instance {α : Type} [Magnitude α] [h : FiniteMagnitude α] : FiniteWeight (Tiered α) where
  defect?_eq_none w := by
    have hf : w.tiers.toList.find? (fun x => !Magnitude.isFinite x) = none := by simp [h.isFinite]
    exact congrArg (Option.map Magnitude.text) hf

variable {α : Type} [Magnitude α] [h : ExactMagnitude α]

theorem orderLists_add {as bs cs : List α} (ha : as.length = cs.length)
    (hb : bs.length = cs.length) :
    orderLists (List.zipWith (· + ·) as cs) (List.zipWith (· + ·) bs cs) = orderLists as bs := by
  induction cs generalizing as bs with
  | nil =>
    obtain rfl := List.eq_nil_of_length_eq_zero ha
    obtain rfl := List.eq_nil_of_length_eq_zero hb
    rfl
  | cons c cs ih =>
    obtain ⟨a, as, rfl⟩ := List.exists_cons_of_length_eq_add_one ha
    obtain ⟨b, bs, rfl⟩ := List.exists_cons_of_length_eq_add_one hb
    simp only [List.zipWith_cons_cons, orderLists, h.order_add]
    rw [ih (Nat.succ.inj ha) (Nat.succ.inj hb)]

instance : ExactWeight (Tiered α) where
  add_assoc a b c := ext_tiers fun i hi => by simp only [tiers_add, h.add_assoc]
  add_comm a b := ext_tiers fun i hi => by simp only [tiers_add, h.add_comm]
  zero_add a := ext_tiers fun i hi => by simp only [tiers_add, tiers_zero, h.zero_add]
  sub_add_cancel a b := ext_tiers fun i hi => by
    simp only [tiers_add, tiers_sub, h.sub_add_cancel]
  zero_scale a := ext_tiers fun i hi => by simp only [tiers_scale, tiers_zero, h.zero_scale]
  one_scale a := ext_tiers fun i hi => by simp only [tiers_scale, h.one_scale]
  add_scale j k a := ext_tiers fun i hi => by simp only [tiers_scale, tiers_add, h.add_scale]
  trans := by
    have := h.trans
    infer_instance
  eq_of_order {a b} he := by
    have := h.trans
    have : Std.LawfulEqCmp (Magnitude.order (α := α)) := ⟨h.eq_of_order⟩
    have ht : Std.LawfulEqCmp (List.compareLex (Magnitude.order (α := α))) := inferInstance
    rw [order_eq_compareLex] at he
    have hl := ht.eq_of_compare he
    cases a
    cases b
    exact congrArg mk (Vector.toList_inj.mp hl)
  order_add a b c := by
    have hl : orderLists (List.zipWith (· + ·) a.tiers.toList c.tiers.toList)
        (List.zipWith (· + ·) b.tiers.toList c.tiers.toList) =
          orderLists a.tiers.toList b.tiers.toList := orderLists_add (by simp) (by simp)
    simpa [Weight.order, order, HAdd.hAdd, Add.add, add] using hl
  agree_self a := by
    refine List.all_eq_true.mpr fun p hp => ?_
    obtain ⟨i, hi, rfl⟩ := List.getElem_of_mem hp
    rw [List.getElem_zip]
    exact h.agree_self _

end Tiered

namespace ExactWeight

variable {W : Type} [Weight W] [h : ExactWeight W]

instance : Std.TransCmp (Weight.order (W := W)) := h.trans

theorem add_right_cancel_iff {a b c : W} : a + c = b + c ↔ a = b := by
  refine ⟨fun he => h.eq_of_order ?_, congrArg (· + c)⟩
  rw [← h.order_add a b c, he, Weight.order_self]

theorem neg_add_cancel (a : W) : Weight.neg a + a = 0 := by
  have hs := h.add_scale (-1) 1 a
  rw [h.one_scale, show (-1 + 1 : Int) = 0 from rfl, h.zero_scale] at hs
  exact hs.symm

theorem sub_eq_add_neg (a b : W) : a - b = a + Weight.neg b := by
  rw [← add_right_cancel_iff (c := b), h.sub_add_cancel, h.add_assoc, neg_add_cancel, h.add_comm,
    h.zero_add]

instance : AddCommGroup W where
  add_assoc := h.add_assoc
  add_comm := h.add_comm
  zero_add := h.zero_add
  add_zero a := by rw [h.add_comm, h.zero_add]
  neg := Weight.neg
  neg_add_cancel := neg_add_cancel
  sub_eq_add_neg := sub_eq_add_neg
  nsmul := nsmulRec
  zsmul := Weight.scale
  zsmul_zero' := h.zero_scale
  zsmul_succ' n a := by
    have hs := h.add_scale n 1 a
    rwa [h.one_scale] at hs
  zsmul_neg' n a := by
    change Weight.scale (Int.negSucc n) a = Weight.neg (Weight.scale (n.succ : Int) a)
    have hs := h.add_scale (Int.negSucc n) (n.succ : Int) a
    rw [show Int.negSucc n + (n.succ : Int) = 0 by omega, h.zero_scale] at hs
    rw [← add_right_cancel_iff (c := Weight.scale (n.succ : Int) a), neg_add_cancel, hs]

theorem scale_eq_smul (k : Int) (a : W) : Weight.scale k a = k • a := rfl

theorem sum_eq (ws : List W) : Weight.sum ws = ws.sum := List.sum_eq_foldl.symm

theorem lt_sub_iff {a b c : W} : Weight.lt (a - c) (b - c) = Weight.lt a b := by
  unfold Weight.lt
  rw [← h.order_add a b (Weight.neg c), sub_eq_add_neg, sub_eq_add_neg]

end ExactWeight

end Liveness
