import Liveness.Json.Record
import Liveness.Proofs.Weight.Finite

/-! # Numbers that are read are finite

A double that is read from JSON text is never an infinity and always a number. It is a product
or a quotient of finite doubles: products are checked for infinity, and only powers of ten are
divided off, so that quotients get smaller.
-/

namespace Liveness

namespace Json.Numeral

open Binary64 Float.Model.UnpackedFloat

variable {n : Numeral} {x y : Float} {e : Int} {steps kept : Nat}

/-- Large powers of ten are rounded from their exact values. -/
theorem power_eq {k : Nat} (hk : 22 < k) (hk' : k ≤ maxPower) :
    (power k).toModel.unpack = (Float.Model.pack (roundWithAccuracy .binary64 .positive
      (10 ^ k <<< 53) (-53) .exact)).unpack := by
  have hmul : Float.Model.UnpackedFloat.ofScientific .binary64 1 k =
      roundWithAccuracy .binary64 .positive (10 ^ k <<< 53) (-53) .exact := by
    have hle : (k : Int) ≤ 308 := by unfold maxPower at hk'; omega
    unfold Float.Model.UnpackedFloat.ofScientific
    rw [dif_neg (by decide), if_neg (by simp; omega), if_neg (by simp; omega), if_pos (by omega)]
    change roundWithAccuracy .binary64 (.positive * .positive) ((1 <<< 53) * 10 ^ k) (-53 + 0)
      .exact = _
    rw [Nat.shiftLeft_eq, Nat.shiftLeft_eq, Nat.one_mul, Nat.mul_comm]
    rfl
  unfold power Float.ofScientific
  rw [dif_neg (by omega), ← hmul]
  rfl

theorem power_twoOrMore {k : Nat} (hk : k ≤ maxPower) (h1 : 1 ≤ k) :
    twoOrMore (power k).toModel.unpack := by
  have hsmall : ∀ k ≤ 22, 1 ≤ k → twoOrMore (power k).toModel.unpack = true := by
    decide +kernel
  have hlast : twoOrMore (power maxPower).toModel.unpack = true := by
    decide +kernel
  by_cases h22 : k ≤ 22
  · exact hsmall k h22 h1
  by_cases hk' : k = maxPower
  · exact hk' ▸ hlast
  · have hpos : 10 ^ k ≠ 0 := (Nat.pow_pos (by decide)).ne'
    have hlog : (10 ^ k).log2 < 1023 := by
      rw [Nat.log2_lt hpos]
      calc 10 ^ k ≤ 10 ^ 307 := Nat.pow_le_pow_right (by decide) (by unfold maxPower at *; omega)
        _ < 2 ^ 1023 := by decide +kernel
    have hshift := log2_shiftLeft hpos 53
    have htop : AtMost 971 (roundWithAccuracy .binary64 .positive (10 ^ k <<< 53) (-53) .exact) :=
      round_atMost (by rw [Float.Model.totalExponent]; omega) (by decide) (by decide)
    obtain ⟨m, e, hm, hround, hm', he⟩ := round_atLeast (s := .positive)
      (m := 10 ^ k <<< 53) (e := -53) (by omega) (by omega) .exact
    have h10 : 1 ≤ (10 ^ k).log2 := by
      rw [Nat.le_log2 hpos]
      exact (by decide : 2 ^ 1 ≤ 10 ^ 1).trans (Nat.pow_le_pow_right (by decide) h1)
    rw [power_eq (Nat.lt_of_not_le h22) hk, hround]
    rw [hround] at htop
    cases htop with
    | finite he' => exact twoOrMore_pack hm' (by omega) he'

theorem isFinite_power {k : Nat} (hk : k ≤ maxPower) : (power k).isFinite := by
  rcases Nat.eq_zero_or_pos k with rfl | h1
  · decide +kernel
  · have h := power_twoOrMore hk h1
    change (power k).toModel.unpack.isFinite = true
    generalize (power k).toModel.unpack = u at *
    cases u <;> first | rfl | cases h

/-- Scaling a finite double by a power of ten gives a finite one, or nothing. -/
theorem applyPower_isFinite (hx : x.isFinite) (h : applyPower steps x e = some y) :
    y.isFinite := by
  induction steps generalizing x e with
  | zero => cases h
  | succ steps ih =>
    unfold applyPower at h
    split at h
    · next hle =>
      split at h
      · dsimp only at h
        split at h
        · cases h
        · next hinf =>
          cases h
          exact isFinite_mul hx (isFinite_power hle) (by simpa using hinf)
      · cases h
        exact isFinite_div hx (power_twoOrMore hle (by omega))
    · split at h
      · exact Option.some.inj h ▸ hx
      · split at h
        · cases h
        · exact ih (isFinite_div hx (power_twoOrMore le_rfl (by decide))) h

theorem absorb_lt {ds : List Char} (hk : kept < word) : (absorb kept ds).1 < word := by
  induction ds generalizing kept with
  | nil => exact hk
  | cons d ds ih =>
    unfold absorb
    dsimp only
    split
    · exact hk
    · next hlt => exact ih (Nat.lt_of_not_le hlt)

theorem significand_lt (n : Numeral) : n.significand.1 < word :=
  absorb_lt (absorb_lt (by decide))

theorem toFloat?_isFinite (h : n.toFloat? = some x) : x.isFinite := by
  have hkept : (Float.ofNat n.significand.1).isFinite := isFinite_ofNat (significand_lt n)
  unfold toFloat? at h
  obtain ⟨y, hy, rfl⟩ := Option.map_eq_some_iff.mp h
  have hfinite : y.isFinite := by
    split at hy
    · exact applyPower_isFinite hkept hy
    · dsimp only at hy
      split at hy
      · split at hy
        · cases hy
        · cases hy
          decide
      · exact applyPower_isFinite hkept hy
  split
  · exact isFinite_neg hfinite
  · exact hfinite

end Json.Numeral

section Records

theorem exists_of_mem_list? {α : Type} {f : Json.Value → Option α} {value : Json.Value}
    {xs : List α} (h : value.list? f = some xs) : ∀ x ∈ xs, ∃ v, f v = some x := by
  have hitems : ∀ (items : List Json.Value) {xs : List α}, items.mapM f = some xs →
      ∀ x ∈ xs, ∃ v, f v = some x := by
    intro items
    induction items with
    | nil =>
      intro xs h
      simp_all
    | cons v items ih =>
      intro xs h
      simp only [List.mapM_cons, Option.bind_eq_bind, Option.bind_eq_some_iff, Option.pure_def,
        Option.some.injEq] at h
      obtain ⟨y, hy, ys, hys, rfl⟩ := h
      exact List.forall_mem_cons.mpr ⟨⟨v, hy⟩, ih hys⟩
  cases value with
  | array items => exact hitems items h
  | _ => cases h

theorem Tiered.ofJson?_isFinite {value : Json.Value} {w : Tiered Float}
    (h : Tiered.ofJson? value = some w) : w.isFinite = true := by
  unfold Tiered.ofJson? at h
  obtain ⟨tiers, htiers, h⟩ := Option.bind_eq_some_iff.mp h
  split at h
  · cases h
    refine List.all_eq_true.mpr fun x hx => ?_
    obtain ⟨v, hv⟩ := exists_of_mem_list? htiers x (by simpa using hx)
    cases v with
    | number n => exact Json.Numeral.toFloat?_isFinite hv
    | _ => cases hv
  · cases h

theorem GraphRecord.ofJson?_isFinite {value : Json.Value} {r : GraphRecord (Tiered Float)}
    (h : GraphRecord.ofJson? value = some r) : ∀ x ∈ r.allocs, x.weight.isFinite = true := by
  unfold GraphRecord.ofJson? at h
  split at h
  · obtain ⟨ops, -, h⟩ := Option.bind_eq_some_iff.mp h
    obtain ⟨allocs, hallocs, h⟩ := Option.bind_eq_some_iff.mp h
    cases h
    intro x hx
    obtain ⟨v, hv⟩ := exists_of_mem_list? hallocs x hx
    unfold AllocRecord.ofJson? at hv
    split at hv
    · obtain ⟨address, -, hv⟩ := Option.bind_eq_some_iff.mp hv
      obtain ⟨weight, hweight, hv⟩ := Option.bind_eq_some_iff.mp hv
      cases hv
      exact Tiered.ofJson?_isFinite hweight
    · cases hv
  · cases h

end Records

end Liveness
