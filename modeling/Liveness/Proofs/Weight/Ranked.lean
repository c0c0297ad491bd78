import Mathlib.Data.List.Forall2
import Mathlib.Order.Antisymmetrization
import Liveness.Weight.Tiered

/-! # Ranks of weights

A transitive comparison ranks all weights, where different weights may rank equal. Then the
smaller and the larger of two weights, the largest of some and their ascending order are well
defined, up to weights that rank equal. Weights by tier are ranked when their magnitudes are: as
these are on the highest tier on which they differ.
-/

namespace Liveness

namespace Weight

variable {W : Type} [Weight W] {a b c : W}

section Laws

variable [h : Std.TransCmp (order (W := W))]

theorem order_self (a : W) : order a a = .eq := Std.ReflCmp.compare_self

theorem order_swap (a b : W) : order b a = (order a b).swap := Std.OrientedCmp.eq_swap

omit h in
theorem le_iff_isLE : le a b = true ↔ (order a b).isLE = true := by
  rw [le, bne_iff_ne, Ordering.isLE_iff_ne_gt]

omit h in
theorem same_iff : same a b = true ↔ order a b = .eq := beq_iff_eq

theorem le_total (a b : W) : le a b = true ∨ le b a = true := by
  rw [le, le, order_swap a b]
  cases order a b <;> decide

theorem le_self (a : W) : le a a = true := (le_total a a).elim id id

theorem le_trans (hab : le a b = true) (hbc : le b c = true) : le a c = true :=
  le_iff_isLE.mpr (h.isLE_trans (le_iff_isLE.mp hab) (le_iff_isLE.mp hbc))

theorem lt_iff_not_le : lt a b = true ↔ ¬ le b a = true := by
  rw [lt, le, order_swap a b]
  cases order a b <;> decide

theorem same_iff_le : same a b = true ↔ le a b = true ∧ le b a = true := by
  rw [same, le, le, order_swap a b]
  cases order a b <;> decide

@[simp]
theorem lt_self (a : W) : lt a a = false :=
  Bool.eq_false_iff.mpr fun hlt => lt_iff_not_le.mp hlt (le_self a)

theorem le_of_not_lt (hab : lt b a = false) : le a b = true :=
  Classical.byContradiction fun hle => Bool.eq_false_iff.mp hab (lt_iff_not_le.mpr hle)

theorem le_of_lt (hab : lt a b = true) : le a b = true :=
  (le_total a b).resolve_right (lt_iff_not_le.mp hab)

theorem lt_of_le_of_lt (hab : le a b = true) (hbc : lt b c = true) : lt a c = true :=
  lt_iff_not_le.mpr fun hca => lt_iff_not_le.mp hbc (le_trans hca hab)

theorem lt_trans (hab : lt a b = true) (hbc : lt b c = true) : lt a c = true :=
  lt_of_le_of_lt (le_of_lt hab) hbc

end Laws

/-- All weights are comparable, and how they compare is decided by their ranks. -/
structure Ranked (W : Type) [Weight W] : Prop where
  order_self : ∀ a : W, order a a = .eq
  order_swap : ∀ a b : W, order b a = (order a b).swap
  le_trans : ∀ {a b c : W}, le a b = true → le b c = true → le a c = true
  le_total : ∀ a b : W, le a b = true ∨ le b a = true
  same_iff : ∀ {a b : W}, same a b = true ↔ order a b = .eq
  order_congr : ∀ {a b c d : W}, same a b = true → same c d = true → order a c = order b d

/-- What is chosen by comparing weights is determined up to weights that rank equal. -/
structure Choosable (W : Type) [Weight W] : Prop where
  lt_iff : ∀ {a b : W}, lt a b = true ↔ ¬ le b a = true
  lt_trans : ∀ {a b c : W}, lt a b = true → lt b c = true → lt a c = true
  min : ∀ a b : W, (min a b = a ∨ min a b = b) ∧
    ∀ c, le c (min a b) = true ↔ le c a = true ∧ le c b = true
  max : ∀ a b : W, (max a b = a ∨ max a b = b) ∧
    ∀ c, le (max a b) c = true ↔ le a c = true ∧ le b c = true
  maximum : ∀ ws : List W, ws ≠ [] → maximum ws ∈ ws ∧
    ∀ c, le (maximum ws) c = true ↔ ∀ w ∈ ws, le w c = true
  sorted : ∀ ws : List W, (ws.mergeSort le).Perm ws ∧
    (ws.mergeSort le).Pairwise fun a b => le a b = true
  sorted_unique : ∀ us vs : List W, us.Perm vs → us.Pairwise (fun a b => le a b = true) →
    vs.Pairwise (fun a b => le a b = true) → List.Forall₂ (fun a b => same a b = true) us vs

section Choices

variable [h : Std.TransCmp (order (W := W))]

theorem ranked : Ranked W where
  order_self := order_self
  order_swap := order_swap
  le_trans := le_trans
  le_total := le_total
  same_iff := same_iff
  order_congr hab hcd := (Std.TransCmp.congr_left (same_iff.mp hab)).trans
    (Std.TransCmp.congr_right (same_iff.mp hcd))

theorem min_spec (a b : W) : (min a b = a ∨ min a b = b) ∧
    ∀ c, le c (min a b) = true ↔ le c a = true ∧ le c b = true := by
  unfold min
  split
  · next hlt => exact ⟨.inr rfl, fun c => ⟨fun hc => ⟨le_trans hc (le_of_lt hlt), hc⟩, And.right⟩⟩
  · next hlt =>
    have hab := le_of_not_lt (Bool.eq_false_iff.mpr hlt)
    exact ⟨.inl rfl, fun c => ⟨fun hc => ⟨hc, le_trans hc hab⟩, And.left⟩⟩

theorem max_spec (a b : W) : (max a b = a ∨ max a b = b) ∧
    ∀ c, le (max a b) c = true ↔ le a c = true ∧ le b c = true := by
  unfold max
  split
  · next hlt => exact ⟨.inl rfl, fun c => ⟨fun hc => ⟨hc, le_trans (le_of_lt hlt) hc⟩, And.left⟩⟩
  · next hlt =>
    have hab := le_of_not_lt (Bool.eq_false_iff.mpr hlt)
    exact ⟨.inr rfl, fun c => ⟨fun hc => ⟨le_trans hab hc, hc⟩, And.right⟩⟩

theorem foldl_max_spec (w : W) (ws : List W) : ws.foldl max w ∈ w :: ws ∧
    ∀ c, le (ws.foldl max w) c = true ↔ ∀ v ∈ w :: ws, le v c = true := by
  induction ws generalizing w with
  | nil => simp
  | cons v ws ih =>
    obtain ⟨hmem, hle⟩ := ih (max w v)
    obtain ⟨hcases, hmax⟩ := max_spec w v
    refine ⟨?_, fun c => ?_⟩
    · rcases List.mem_cons.mp hmem with he | hmem
      · rw [List.foldl_cons, he]
        rcases hcases with hw | hv
        · rw [hw]
          exact List.mem_cons_self
        · rw [hv]
          exact List.mem_cons_of_mem w List.mem_cons_self
      · exact List.mem_cons_of_mem w (List.mem_cons_of_mem v hmem)
    · rw [List.foldl_cons, hle, List.forall_mem_cons, hmax, List.forall_mem_cons,
        List.forall_mem_cons, and_assoc]

theorem maximum_spec {ws : List W} (hne : ws ≠ []) : maximum ws ∈ ws ∧
    ∀ c, le (maximum ws) c = true ↔ ∀ w ∈ ws, le w c = true := by
  cases ws with
  | nil => exact absurd rfl hne
  | cons w ws => exact foldl_max_spec w ws

theorem mergeSort_ascending (ws : List W) :
    (ws.mergeSort le).Pairwise fun a b => le a b = true := by
  have htrans : ∀ a b c : W, le a b = true → le b c = true → le a c = true := fun _ _ _ => le_trans
  have htotal : ∀ a b : W, (le a b || le b a) = true := fun a b =>
    Bool.or_eq_true_iff.mpr (le_total a b)
  exact List.pairwise_mergeSort htrans htotal ws

abbrev preorder (W : Type) [Weight W] [Std.TransCmp (order (W := W))] : Preorder W where
  le a b := le a b = true
  le_refl := le_self
  le_trans _ _ _ := le_trans

/-- Two ascending lists of the same weights agree entry by entry, up to weights that rank equal. -/
theorem same_of_ascending {us vs : List W} (hp : us.Perm vs)
    (hu : us.Pairwise fun a b => le a b = true) (hv : vs.Pairwise fun a b => le a b = true) :
    List.Forall₂ (fun a b => same a b = true) us vs := by
  -- where weights of equal rank are one, there is only one ascending list
  let := preorder W
  let rank := toAntisymmetrization fun a b : W => a ≤ b
  have hmap : ∀ {ws : List W}, ws.Pairwise (fun a b => le a b = true) →
      (ws.map rank).Pairwise (· ≤ ·) := fun hw => List.pairwise_map.mpr hw
  have he : us.map rank = vs.map rank :=
    (hp.map rank).eq_of_pairwise (fun _ _ _ _ => le_antisymm) (hmap hu) (hmap hv)
  rw [← List.forall₂_eq_eq_eq, List.forall₂_map_left_iff, List.forall₂_map_right_iff] at he
  refine he.imp fun a b hab => ?_
  exact same_iff_le.mpr (Quotient.exact hab)

theorem choosable : Choosable W where
  lt_iff := lt_iff_not_le
  lt_trans := lt_trans
  min := min_spec
  max := max_spec
  maximum _ := maximum_spec
  sorted ws := ⟨List.mergeSort_perm ws le, mergeSort_ascending ws⟩
  sorted_unique _ _ := same_of_ascending

end Choices

end Weight

namespace Tiered

variable {α : Type} [Magnitude α] {v w : Tiered α}

theorem order_eq_compareLex (v w : Tiered α) :
    Weight.order v w = List.compareLex Magnitude.order v.tiers.toList w.tiers.toList := by
  have h : ∀ {as bs : List α}, as.length = bs.length →
      orderLists as bs = List.compareLex Magnitude.order as bs := by
    intro as
    induction as with
    | nil =>
      intro bs h
      obtain rfl := List.eq_nil_of_length_eq_zero h.symm
      rfl
    | cons a as ih =>
      intro bs h
      obtain ⟨b, bs, rfl⟩ := List.exists_cons_of_length_eq_add_one h.symm
      rw [orderLists, List.compareLex_cons_cons, ih (Nat.succ.inj h)]
  exact h (by simp)

instance [Std.TransCmp (Magnitude.order (α := α))] :
    Std.TransCmp (Weight.order (W := Tiered α)) := by
  have ht : Std.TransCmp (List.compareLex (Magnitude.order (α := α))) := inferInstance
  rw [show (Weight.order : Tiered α → Tiered α → Ordering) = _ from funext₂ order_eq_compareLex]
  exact { eq_swap := ht.eq_swap, isLE_trans := ht.isLE_trans }

theorem orderLists_eq_lt_iff {as bs : List α} (h : as.length = bs.length) :
    orderLists as bs = .lt ↔ ∃ i < as.length, Magnitude.order (as.getD i 0) (bs.getD i 0) = .lt ∧
      ∀ j < i, Magnitude.order (as.getD j 0) (bs.getD j 0) = .eq := by
  induction as generalizing bs with
  | nil => simp [orderLists]
  | cons a as ih =>
    obtain ⟨b, bs, rfl⟩ := List.exists_cons_of_length_eq_add_one h.symm
    rw [orderLists, Ordering.then_eq_lt, ih (Nat.succ.inj h)]
    constructor
    · rintro (hlt | ⟨heq, i, hi, hlt, habove⟩)
      · exact ⟨0, Nat.succ_pos _, hlt, by simp⟩
      · refine ⟨i + 1, Nat.succ_lt_succ hi, hlt, fun j hj => ?_⟩
        cases j with
        | zero => exact heq
        | succ j => exact habove j (Nat.succ_lt_succ_iff.mp hj)
    · rintro ⟨i, hi, hlt, habove⟩
      cases i with
      | zero => exact .inl hlt
      | succ i =>
        exact .inr ⟨habove 0 (Nat.succ_pos i), i, Nat.succ_lt_succ_iff.mp hi, hlt,
          fun j hj => habove (j + 1) (Nat.succ_lt_succ hj)⟩

theorem orderLists_eq_eq_iff {as bs : List α} (h : as.length = bs.length) :
    orderLists as bs = .eq ↔
      ∀ i < as.length, Magnitude.order (as.getD i 0) (bs.getD i 0) = .eq := by
  induction as generalizing bs with
  | nil => simp [orderLists]
  | cons a as ih =>
    obtain ⟨b, bs, rfl⟩ := List.exists_cons_of_length_eq_add_one h.symm
    rw [orderLists, Ordering.then_eq_eq, ih (Nat.succ.inj h), List.length_cons]
    constructor
    · rintro ⟨heq, hrest⟩ i hi
      cases i with
      | zero => exact heq
      | succ i => exact hrest i (Nat.succ_lt_succ_iff.mp hi)
    · intro hall
      exact ⟨hall 0 (Nat.succ_pos _), fun i hi => hall (i + 1) (Nat.succ_lt_succ hi)⟩

theorem isTier_iff {tier : Int} :
    isTier tier = true ↔ ∃ i < tierCount, tier = maxTier - (i : Nat) := by
  rw [isTier, Bool.and_eq_true, decide_eq_true_iff, decide_eq_true_iff]
  unfold maxTier tierCount
  exact ⟨fun h => ⟨(3 - tier).toNat, by omega, by omega⟩, fun ⟨i, hi, he⟩ => by omega⟩

theorem get_below_max {i : Nat} (hi : i < tierCount) (w : Tiered α) :
    w.get (maxTier - i) = w.tiers.toList.getD i 0 := by
  have hback : (maxTier - (maxTier - (i : Int))).toNat = i := by omega
  rw [get, if_pos (isTier_iff.mpr ⟨i, hi, rfl⟩), hback]

/-- A weight is below another one exactly when it is on the highest tier on which they do not rank
equal, whatever they are on the tiers below. -/
theorem order_eq_lt_iff : Weight.order v w = .lt ↔ ∃ tier, isTier tier = true ∧
    Magnitude.order (v.get tier) (w.get tier) = .lt ∧
      ∀ t, isTier t = true → tier < t → Magnitude.order (v.get t) (w.get t) = .eq := by
  have hl : ∀ w : Tiered α, w.tiers.toList.length = tierCount := fun w => w.tiers.length_toList
  change orderLists v.tiers.toList w.tiers.toList = .lt ↔ _
  rw [orderLists_eq_lt_iff ((hl v).trans (hl w).symm), hl]
  constructor
  · rintro ⟨i, hi, hlt, habove⟩
    refine ⟨maxTier - i, isTier_iff.mpr ⟨i, hi, rfl⟩, ?_, fun t ht hlt => ?_⟩
    · rwa [get_below_max hi, get_below_max hi]
    · obtain ⟨j, hj, rfl⟩ := isTier_iff.mp ht
      rw [get_below_max hj, get_below_max hj]
      exact habove j (by omega)
  · rintro ⟨tier, ht, hlt, habove⟩
    obtain ⟨i, hi, rfl⟩ := isTier_iff.mp ht
    rw [get_below_max hi, get_below_max hi] at hlt
    refine ⟨i, hi, hlt, fun j hj => ?_⟩
    have hj' : j < tierCount := hj.trans hi
    rw [← get_below_max hj', ← get_below_max hj']
    exact habove _ (isTier_iff.mpr ⟨j, hj', rfl⟩) (by omega)

theorem order_eq_eq_iff : Weight.order v w = .eq ↔
    ∀ t, isTier t = true → Magnitude.order (v.get t) (w.get t) = .eq := by
  have hl : ∀ w : Tiered α, w.tiers.toList.length = tierCount := fun w => w.tiers.length_toList
  change orderLists v.tiers.toList w.tiers.toList = .eq ↔ _
  rw [orderLists_eq_eq_iff ((hl v).trans (hl w).symm), hl]
  constructor
  · intro hall t ht
    obtain ⟨i, hi, rfl⟩ := isTier_iff.mp ht
    rw [get_below_max hi, get_below_max hi]
    exact hall i hi
  · intro hall i hi
    rw [← get_below_max hi, ← get_below_max hi]
    exact hall _ (isTier_iff.mpr ⟨i, hi, rfl⟩)

end Tiered

end Liveness
