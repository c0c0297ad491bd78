import Liveness.Ascending

/-! # Order in ascending lists

Insertion keeps lists ascending. In an ascending list the first element past a bound is
the least of those past it, and the last one before a bound the greatest before it.
-/

namespace Liveness.Ascending

attribute [grind =] mem_insert mem_place mem_ofList mem_sort

theorem insert_pairwise {x : Nat} {ys : List Nat} (h : ys.Pairwise (· < ·)) :
    (insert x ys).Pairwise (· < ·) := by
  induction ys with
  | nil => simp [insert]
  | cons y ys ih =>
    obtain ⟨hy, hys⟩ := List.pairwise_cons.mp h
    unfold insert
    split
    · next hlt =>
      refine List.pairwise_cons.mpr ⟨fun z hz => ?_, h⟩
      rcases List.mem_cons.mp hz with rfl | hz
      · exact hlt
      · exact Nat.lt_trans hlt (hy z hz)
    · split
      · exact h
      · refine List.pairwise_cons.mpr ⟨fun z hz => ?_, ih hys⟩
        rcases mem_insert.mp hz with rfl | hz
        · omega
        · exact hy z hz

theorem insert_eq_append {x : Nat} {xs : List Nat} (hx : ∀ y ∈ xs, y < x) :
    insert x xs = xs ++ [x] := by
  induction xs with
  | nil => rfl
  | cons y ys ih =>
    obtain ⟨hy, hys⟩ := List.forall_mem_cons.mp hx
    rw [insert, if_neg (by omega), if_neg (by omega), ih hys, List.cons_append]

theorem ofList_pairwise (xs : List Nat) : (ofList xs).Pairwise (· < ·) := by
  induction xs with
  | nil => exact List.Pairwise.nil
  | cons x xs ih => exact insert_pairwise ih

theorem nodup_of_pairwise {xs : List Nat} (h : xs.Pairwise (· < ·)) : xs.Nodup :=
  h.imp Nat.ne_of_lt

theorem ofList_nodup (xs : List Nat) : (ofList xs).Nodup := nodup_of_pairwise (ofList_pairwise xs)

theorem eq_of_mem_iff {xs ys : List Nat} (hx : xs.Pairwise (· < ·)) (hy : ys.Pairwise (· < ·))
    (hm : ∀ x, x ∈ xs ↔ x ∈ ys) : xs = ys := by
  refine List.Perm.eq_of_pairwise (fun _ _ _ _ h h' => absurd h (Nat.lt_asymm h')) hx hy ?_
  rw [List.perm_ext_iff_of_nodup (nodup_of_pairwise hx) (nodup_of_pairwise hy)]
  exact hm

theorem place_pairwise {x : Nat} {ys : List Nat} (h : ys.Pairwise (· ≤ ·)) :
    (place x ys).Pairwise (· ≤ ·) := by
  induction ys with
  | nil => simp [place]
  | cons y ys ih =>
    obtain ⟨hy, hys⟩ := List.pairwise_cons.mp h
    unfold place
    split
    · next hle =>
      refine List.pairwise_cons.mpr ⟨fun z hz => ?_, h⟩
      rcases List.mem_cons.mp hz with rfl | hz
      · exact hle
      · exact Nat.le_trans hle (hy z hz)
    · refine List.pairwise_cons.mpr ⟨fun z hz => ?_, ih hys⟩
      rcases mem_place.mp hz with rfl | hz
      · omega
      · exact hy z hz

theorem sort_pairwise (xs : List Nat) : (sort xs).Pairwise (· ≤ ·) := by
  induction xs with
  | nil => exact List.Pairwise.nil
  | cons x xs ih => exact place_pairwise ih

section Ordered

variable {xs : List Nat} {k p : Nat}

theorem head?_le (hs : xs.Pairwise (· ≤ ·)) (h : xs.head? = some p) :
    p ∈ xs ∧ ∀ q ∈ xs, p ≤ q := by
  cases xs with
  | nil => cases h
  | cons x xs =>
    obtain rfl : x = p := Option.some.inj h
    refine ⟨List.mem_cons_self, fun q hq => ?_⟩
    rcases List.mem_cons.mp hq with rfl | hq
    · exact Nat.le_refl _
    · exact (List.pairwise_cons.mp hs).1 q hq

theorem le_getLast? (hs : xs.Pairwise (· ≤ ·)) (h : xs.getLast? = some p) :
    p ∈ xs ∧ ∀ q ∈ xs, q ≤ p := by
  obtain ⟨ys, rfl⟩ := List.getLast?_eq_some_iff.mp h
  refine ⟨by simp, fun q hq => ?_⟩
  rcases List.mem_append.mp hq with hq | hq
  · exact (List.pairwise_append.mp hs).2.2 q hq p (by simp)
  · exact Nat.le_of_eq (List.mem_singleton.mp hq)

theorem find?_le (hs : xs.Pairwise (· ≤ ·)) (h : xs.find? (fun q => k ≤ q) = some p) :
    p ∈ xs ∧ k ≤ p ∧ ∀ q ∈ xs, k ≤ q → p ≤ q := by
  rw [← List.head?_filter] at h
  obtain ⟨hp, hle⟩ := head?_le (hs.filter _) h
  simp only [List.mem_filter, decide_eq_true_eq, and_imp] at hp hle
  exact ⟨hp.1, hp.2, hle⟩

theorem le_getLast?_filter (hs : xs.Pairwise (· ≤ ·))
    (h : (xs.filter fun q => q < k).getLast? = some p) :
    p ∈ xs ∧ p < k ∧ ∀ q ∈ xs, q < k → q ≤ p := by
  obtain ⟨hp, hle⟩ := le_getLast? (hs.filter _) h
  simp only [List.mem_filter, decide_eq_true_eq, and_imp] at hp hle
  exact ⟨hp.1, hp.2, hle⟩

variable {P : Nat → Prop}

/-- What is passed on to larger numbers holds of all elements past `k` with the first. -/
theorem forall_find?_iff (hs : xs.Pairwise (· ≤ ·)) (hP : ∀ p q, p ≤ q → P p → P q) :
    (∀ p, xs.find? (fun q => k ≤ q) = some p → P p) ↔ ∀ p ∈ xs, k ≤ p → P p := by
  constructor
  · intro h q hq hk
    cases hf : xs.find? (fun q => k ≤ q) with
    | none =>
      have := List.find?_eq_none.mp hf q hq
      simp [hk] at this
    | some p => exact hP p q ((find?_le hs hf).2.2 q hq hk) (h p hf)
  · intro h p hf
    obtain ⟨hp, hk, -⟩ := find?_le hs hf
    exact h p hp hk

/-- What is passed on to smaller numbers holds of all elements before `k` with the last. -/
theorem forall_getLast?_iff (hs : xs.Pairwise (· ≤ ·)) (hP : ∀ p q, p ≤ q → P q → P p) :
    (∀ p, (xs.filter fun q => q < k).getLast? = some p → P p) ↔ ∀ p ∈ xs, p < k → P p := by
  constructor
  · intro h q hq hk
    cases hf : (xs.filter fun q => q < k).getLast? with
    | none =>
      have hm : q ∈ xs.filter fun q => q < k := List.mem_filter.mpr ⟨hq, decide_eq_true hk⟩
      rw [List.getLast?_eq_none_iff.mp hf] at hm
      cases hm
    | some p => exact hP q p ((le_getLast?_filter hs hf).2.2 q hq hk) (h p hf)
  · intro h p hf
    obtain ⟨hp, hk, -⟩ := le_getLast?_filter hs hf
    exact h p hp hk

end Ordered

end Liveness.Ascending
