import Liveness.Proofs.Weight.Words
import Liveness.Proofs.Schedule.Priority

/-! # Ranks of priorities

Priorities that are numbers are ranked: the comparison is transitive among them, and the larger of
two is at least both. So the top of some numbers is at least each of them. Doubles that are numbers
are ranked by their keys.
-/

namespace Liveness

class RankedPriority (P : Type) [Priority P] : Prop extends LawfulPriority P where
  trans : ∀ {a b c : P}, Priority.atLeast a b = true → Priority.atLeast b c = true →
    Priority.atLeast a c = true
  larger_left : ∀ {a b : P}, Priority.atLeast a a = true → Priority.atLeast b b = true →
    Priority.atLeast (Priority.larger a b) a = true
  larger_right : ∀ {a b : P}, Priority.atLeast a a = true → Priority.atLeast b b = true →
    Priority.atLeast (Priority.larger a b) b = true

namespace Priority

variable {P : Type} [Priority P] [RankedPriority P] {ps : List P} {p q : P}

open LawfulPriority RankedPriority

/-- A priority that is at least each of some priorities and not above all of them. -/
structure IsHighest (ps : List P) (p : P) : Prop where
  atLeast : ∀ q ∈ ps, Priority.atLeast p q = true
  reached : ∃ q ∈ ps, Priority.atLeast q p = true

theorem foldl_larger_atLeast (hp : atLeast p p = true) (hs : ∀ q ∈ ps, atLeast q q = true) :
    atLeast (ps.foldl larger p) p = true ∧
      ∀ q ∈ ps, atLeast (ps.foldl larger p) q = true := by
  induction ps generalizing p with
  | nil => exact ⟨hp, by simp⟩
  | cons x ps ih =>
    obtain ⟨hx, hs⟩ := List.forall_mem_cons.mp hs
    obtain ⟨hlarger, hall⟩ := ih (larger_self (b := x) hp) hs
    refine ⟨trans hlarger (larger_left hp hx), fun q hq => ?_⟩
    rcases List.mem_cons.mp hq with rfl | hq
    · exact trans hlarger (larger_right hp hx)
    · exact hall q hq

theorem top_isHighest (hne : ps ≠ []) (hs : ∀ q ∈ ps, atLeast q q = true) :
    IsHighest ps (top ps) :=
  ⟨(foldl_larger_atLeast bottom_self hs).2, exists_atLeast_top hne hs⟩

end Priority

namespace Binary64

variable {a b : Float}

theorem le_iff_key (ha : a.isNaN = false) (hb : b.isNaN = false) : a ≤ b ↔ key a ≤ key b :=
  (keyed_of_not_isNaN ha).le_iff (keyed_of_not_isNaN hb)

theorem lt_iff_key (ha : a.isNaN = false) (hb : b.isNaN = false) : a < b ↔ key a < key b :=
  (keyed_of_not_isNaN ha).lt_iff (keyed_of_not_isNaN hb)

end Binary64

instance : RankedPriority Float where
  trans {a b c} hab hbc := by
    simp only [Priority.atLeast, decide_eq_true_eq] at *
    obtain ⟨hb, ha⟩ := Binary64.isNaN_of_le hab
    obtain ⟨hc, -⟩ := Binary64.isNaN_of_le hbc
    rw [Binary64.le_iff_key hb ha] at hab
    rw [Binary64.le_iff_key hc hb] at hbc
    exact (Binary64.le_iff_key hc ha).mpr (hbc.trans hab)
  larger_left {a b} ha hb := by
    simp only [Priority.atLeast, decide_eq_true_eq, Binary64.le_self_iff] at *
    simp only [Priority.larger, Binary64.maxNumber, ha, hb, Bool.false_eq_true, if_false]
    split
    · next hlt =>
      rw [Binary64.lt_iff_key ha hb] at hlt
      exact (Binary64.le_iff_key ha hb).mpr hlt.le
    · exact Binary64.le_self_iff.mpr ha
  larger_right {a b} ha hb := by
    simp only [Priority.atLeast, decide_eq_true_eq, Binary64.le_self_iff] at *
    simp only [Priority.larger, Binary64.maxNumber, ha, hb, Bool.false_eq_true, if_false]
    split
    · exact Binary64.le_self_iff.mpr hb
    · next hlt =>
      rw [Binary64.lt_iff_key ha hb, not_lt] at hlt
      exact (Binary64.le_iff_key hb ha).mpr hlt

namespace Numbers

scoped instance : RankedPriority Nat where
  trans hab hbc := decide_eq_true (Nat.le_trans (of_decide_eq_true hbc) (of_decide_eq_true hab))
  larger_left _ _ := decide_eq_true (Nat.le_max_left _ _)
  larger_right _ _ := decide_eq_true (Nat.le_max_right _ _)

end Numbers

end Liveness
