import Mathlib.Data.Nat.Log
import Mathlib.Tactic.NormNum

/-! # Finite doubles

A double holds a mantissa of 53 bits and the place of its last bit. Rounding a number to such a
mantissa keeps its size up to one place, and a rounded number becomes an infinity only when its
last place is above those that a double can have. So products of finite doubles are finite or
infinities, quotients by two or more are finite, and natural numbers of 64 bits are.
-/

namespace Liveness

namespace Binary64

open Float.Model Float.Model.UnpackedFloat

variable {b c : Int} {m n k : Nat} {e : Int} {s : Sign} {acc : Accuracy} {u v : UnpackedFloat}

/-- The number is finite, and its last place is at most `2 ^ b`. -/
inductive AtMost (b : Int) : UnpackedFloat → Prop
  | zero (s : Sign) : AtMost b (.zero s)
  | finite {s : Sign} {m : Nat} {e : Int} {hm : 0 < m} (he : e ≤ b) : AtMost b (.finite s m e hm)

def twoOrMore : UnpackedFloat → Bool
  | .finite _ m e _ => decide (1 ≤ m.log2 + e)
  | _ => false

theorem twoOrMore_finite {hm : 0 < m} : twoOrMore (.finite s m e hm) = true ↔ 1 ≤ m.log2 + e :=
  decide_eq_true_iff

section Size

theorem log2_shiftLeft (hm : m ≠ 0) (k : Nat) : (m <<< k).log2 = m.log2 + k := by
  have hp := Nat.two_pow_pos k
  rw [Nat.log2_eq_iff (by simp [Nat.shiftLeft_eq, hm]), Nat.shiftLeft_eq, Nat.add_right_comm,
    Nat.pow_add, Nat.pow_add]
  exact ⟨Nat.mul_le_mul_right _ (Nat.log2_self_le hm),
    Nat.mul_lt_mul_of_pos_right Nat.lt_log2_self hp⟩

theorem log2_mul_le (m n : Nat) : (m * n).log2 ≤ m.log2 + n.log2 + 1 := by
  by_cases hmn : m * n = 0
  · simp [hmn]
  · rw [← Nat.lt_succ_iff, Nat.log2_lt hmn]
    calc m * n < 2 ^ (m.log2 + 1) * 2 ^ (n.log2 + 1) :=
          Nat.mul_lt_mul'' Nat.lt_log2_self Nat.lt_log2_self
      _ = 2 ^ (m.log2 + n.log2 + 1 + 1) := by
          rw [← Nat.pow_add]
          congr 1
          omega

theorem log2_div_le {d : Nat} (hq : m / d ≠ 0) : (m / d).log2 + d.log2 ≤ m.log2 := by
  have hd : d ≠ 0 := fun hd => hq (hd ▸ Nat.div_zero m)
  have hle : m / d * d ≤ m := Nat.div_mul_le_self m d
  rw [Nat.le_log2 (fun hm => hq (by simp [hm])), Nat.pow_add]
  exact (Nat.mul_le_mul (Nat.log2_self_le hq) (Nat.log2_self_le hd)).trans hle

end Size

section Rounding

theorem shift_mantissa (em : ExtendedMantissa) (k : Nat) :
    (em >>> k).mantissa = em.mantissa / 2 ^ k := by
  induction k with
  | zero => simp [HShiftRight.hShiftRight, Nat.repeat]
  | succ k ih =>
    change (ExtendedMantissa.shiftRightOne (em >>> k)).mantissa = _
    rw [ExtendedMantissa.shiftRightOne, ih, Nat.div_div_eq_div_mul, Nat.pow_succ]

theorem ofMantissaAndAccuracy_mantissa :
    (ExtendedMantissa.ofMantissaAndAccuracy m acc).mantissa = m := by
  rcases acc with _ | _ | _ | _ <;> rfl

theorem roundedMantissa_le (em : ExtendedMantissa) : em.roundedMantissa ≤ em.mantissa + 1 := by
  unfold ExtendedMantissa.roundedMantissa Accuracy.roundToNearestEven
  split <;> omega

theorem targetExponent_eq (t : Int) : Format.binary64.targetExponent t = max (t - 53) (-1074) := rfl

theorem shiftToTargetExponent_fst_lt (m : Nat) (e : Int) (acc : Accuracy) :
    (shiftToTargetExponent .binary64 m e acc).1.mantissa < 2 ^ 53 := by
  rw [shiftToTargetExponent, shiftToExponent, shift_mantissa, ofMantissaAndAccuracy_mantissa,
    targetExponent_eq, totalExponent, Nat.div_lt_iff_lt_mul (Nat.two_pow_pos _), ← Nat.pow_add]
  calc m < 2 ^ (m.log2 + 1) := Nat.lt_log2_self
    _ ≤ _ := Nat.pow_le_pow_right (by decide) (by omega)

theorem shiftToTargetExponent_snd (m : Nat) (e : Int) (acc : Accuracy) :
    (shiftToTargetExponent .binary64 m e acc).2 = max e (max (m.log2 + e - 52) (-1074)) := by
  rw [shiftToTargetExponent, shiftToExponent, targetExponent_eq, totalExponent]
  omega

/-- A number of known size is rounded to one of this size, which may need one place more. -/
theorem round_atMost (ht : totalExponent m e ≤ b + 52) (he : e < b) (hb : -1074 < b) :
    AtMost b (roundWithAccuracy .binary64 s m e acc) := by
  have hlt := shiftToTargetExponent_fst_lt m e acc
  have he₁ := shiftToTargetExponent_snd m e acc
  unfold roundWithAccuracy
  generalize shiftToTargetExponent .binary64 m e acc = x at *
  obtain ⟨em, e₁⟩ := x
  have hle := roundedMantissa_le em
  dsimp only at *
  have hlog : em.roundedMantissa.log2 ≤ 53 := by
    by_cases h0 : em.roundedMantissa = 0
    · simp [h0]
    · exact Nat.lt_succ_iff.mp ((Nat.log2_lt h0).mpr (by omega))
  by_cases h0 : (shiftToTargetExponent .binary64 em.roundedMantissa e₁ .exact).1.mantissa = 0
  · rw [dif_pos h0]
    exact .zero _
  · rw [dif_neg h0]
    refine .finite ?_
    rw [shiftToTargetExponent_snd]
    rw [totalExponent] at ht
    omega

theorem mul_atMost {m' : Nat} {e' : Int} {s' : Sign} {hm : 0 < m} {hm' : 0 < m'}
    (hlt : totalExponent m e + totalExponent m' e' ≤ b + 52) (he : e + e' < b) (hb : -1074 < b) :
    AtMost b (UnpackedFloat.mul .binary64 (.finite s m e hm) (.finite s' m' e' hm')) := by
  refine round_atMost ?_ he hb
  have := log2_mul_le m m'
  simp only [totalExponent] at *
  omega

theorem div_atMost {m' : Nat} {e' : Int} {s' : Sign} {hm : 0 < m} {hm' : 0 < m'} (hlt : m < 2 ^ 53)
    (he : e ≤ 971) (he' : 1 ≤ m'.log2 + e') :
    AtMost 971 (UnpackedFloat.div .binary64 (.finite s m e hm) (.finite s' m' e' hm')) := by
  have hlog : m.log2 < 53 := (Nat.log2_lt hm.ne').mpr hlt
  unfold UnpackedFloat.div divCore
  dsimp only
  rw [targetExponent_eq, totalExponent, totalExponent]
  generalize ht : min (e - e') _ = t
  have hshift := log2_shiftLeft hm.ne' (e - e' - t).toNat
  apply round_atMost _ (by omega) (by decide)
  by_cases hq : m <<< (e - e' - t).toNat / m' = 0
  · rw [hq, totalExponent, Nat.log2_zero]
    omega
  · have := log2_div_le hq
    rw [totalExponent]
    omega

theorem round_natural (hm : m < 2 ^ 64) : AtMost 12 (UnpackedFloat.round .binary64 s m 0) := by
  unfold UnpackedFloat.round decreaseExponent
  dsimp only
  generalize (0 - Format.binary64.targetExponent (totalExponent m 0)).toNat = k
  apply round_atMost _ (by omega) (by decide)
  by_cases h0 : m = 0
  · rw [h0, totalExponent, Nat.zero_shiftLeft, Nat.log2_zero]
    omega
  · have hlog : m.log2 < 64 := (Nat.log2_lt h0).mpr hm
    have hshift := log2_shiftLeft h0 k
    rw [totalExponent]
    omega

theorem ofScientific_atMost (hm : m < 2 ^ 64) :
    AtMost 971 (UnpackedFloat.ofScientific .binary64 m 0) := by
  unfold UnpackedFloat.ofScientific
  by_cases h0 : m = 0
  · rw [dif_pos h0]
    exact .zero _
  · have hlog : m.log2 < 64 := (Nat.log2_lt h0).mpr hm
    have hshift := log2_shiftLeft h0 53
    rw [dif_neg h0, if_neg (by decide), if_neg (by simp), if_pos (by decide)]
    refine mul_atMost ?_ (by decide) (by decide)
    have hbits : Format.binary64.mantissaBits = 53 := rfl
    have hone : (10 ^ (0 : Int).toNat).log2 = 0 := by decide
    rw [totalExponent, totalExponent, hbits, hshift, hone]
    omega

theorem log2_shiftToTargetExponent (hm : 52 ≤ m.log2) (he : -1022 ≤ m.log2 + e)
    (acc : Accuracy) :
    (shiftToTargetExponent .binary64 m e acc).1.mantissa.log2 = 52 := by
  rw [shiftToTargetExponent, shiftToExponent, shift_mantissa, ofMantissaAndAccuracy_mantissa,
    targetExponent_eq, totalExponent, Nat.log2_eq_log_two, Nat.log_div_base_pow,
    ← Nat.log2_eq_log_two]
  omega

theorem le_roundedMantissa (em : ExtendedMantissa) : em.mantissa ≤ em.roundedMantissa := by
  unfold ExtendedMantissa.roundedMantissa Accuracy.roundToNearestEven
  split <;> omega

/-- Rounding leaves a number as large as the power of two below it. -/
theorem round_atLeast (hm : 52 ≤ m.log2) (he : -1022 ≤ m.log2 + e) (acc : Accuracy) : ∃ m' e' hm',
    roundWithAccuracy .binary64 s m e acc = .finite s m' e' hm' ∧ m'.log2 = 52 ∧
      m.log2 + e ≤ 52 + e' := by
  have hlog := log2_shiftToTargetExponent hm he acc
  have he₁ := shiftToTargetExponent_snd m e acc
  unfold roundWithAccuracy
  generalize shiftToTargetExponent .binary64 m e acc = x at *
  obtain ⟨em, e₁⟩ := x
  dsimp only at *
  have hlog' : 52 ≤ em.roundedMantissa.log2 := by
    rw [← hlog, Nat.log2_eq_log_two, Nat.log2_eq_log_two]
    exact Nat.log_mono_right (le_roundedMantissa em)
  have hfinal := log2_shiftToTargetExponent (e := e₁) hlog' (by omega) .exact
  have he₂ := shiftToTargetExponent_snd em.roundedMantissa e₁ .exact
  have hne : (shiftToTargetExponent .binary64 em.roundedMantissa e₁ .exact).1.mantissa ≠ 0 := by
    intro h0
    rw [h0] at hfinal
    cases hfinal
  rw [dif_neg hne]
  exact ⟨_, _, _, rfl, hfinal, by omega⟩

end Rounding

section Packing

theorem atMost_unpack {x : BitVec Format.binary64.numBits} (hx : (unpackExponent x).toNat < 2047)
    (hb : (unpackExponent x).toNat ≤ b + 1075) (hb' : -1074 ≤ b) :
    AtMost b (UnpackedFloat.unpack .binary64 x) := by
  have hbias : Format.binary64.exponentBias = 1023 := rfl
  have hne : unpackExponent x ≠ -1#11 := by
    intro he
    rw [he] at hx
    exact absurd hx (by decide)
  unfold UnpackedFloat.unpack
  rw [if_neg hne]
  by_cases h0 : unpackExponent x = 0#11
  · rw [if_pos h0]
    by_cases hm : unpackMantissa x = 0#52
    · rw [dif_pos hm]
      exact .zero _
    · rw [dif_neg hm]
      refine .finite ?_
      rw [h0, hbias]
      simpa using hb'
  · rw [if_neg h0]
    refine .finite ?_
    rw [hbias]
    push_cast
    omega

theorem AtMost.pack (h : AtMost b u) (hb : -1074 ≤ b) (hb' : b ≤ 971) :
    AtMost b (Float.Model.pack u).unpack := by
  have hbias : Format.binary64.exponentBias = 1023 := rfl
  have hcomponents : ∀ (s : Sign) (x : BitVec 11) (y : BitVec 52), x.toNat < 2047 →
      x.toNat ≤ b + 1075 → AtMost b (.unpack .binary64 (packComponents .binary64 s x y)) := by
    intro s x y hx hxb
    have he : unpackExponent (packComponents .binary64 s x y) = x := unpackExponent_packComponents
    exact atMost_unpack (by rwa [he]) (by rwa [he]) hb
  unfold Float.Model.pack Float.Model.unpack UnpackedFloat.pack
  cases h with
  | zero s => exact hcomponents s 0 0 (by decide) (by simp; omega)
  | @finite s m e hm h =>
    dsimp only
    rw [hbias]
    split
    · omega
    · next hlt =>
      split
      · have hx : (BitVec.ofNat 11 (e + (1023 : Nat) + (52 : Nat)).toNat).toNat =
            (e + (1023 : Nat) + (52 : Nat)).toNat := by
          rw [BitVec.toNat_ofNat, Nat.mod_eq_of_lt (by omega)]
        exact hcomponents s _ _ (by omega) (by omega)
      · exact hcomponents s 0 _ (by decide) (by simp; omega)

theorem mantissa_lt {x : BitVec Format.binary64.numBits} {hm : 0 < m}
    (hx : UnpackedFloat.unpack .binary64 x = .finite s m e hm) : m < 2 ^ 53 := by
  unfold UnpackedFloat.unpack at hx
  by_cases hmax : unpackExponent x = -1#11
  · by_cases hm : unpackMantissa x = 0#52
    · rw [if_pos hmax, if_pos hm] at hx
      cases hx
    · rw [if_pos hmax, if_neg hm] at hx
      cases hx
  by_cases h0 : unpackExponent x = 0#11
  · by_cases hm : unpackMantissa x = 0#52
    · rw [if_neg hmax, if_pos h0, dif_pos hm] at hx
      cases hx
    · rw [if_neg hmax, if_pos h0, dif_neg hm] at hx
      cases hx
      exact (unpackMantissa x).isLt.trans (by decide)
  · rw [if_neg hmax, if_neg h0] at hx
    cases hx
    exact (1#1 ++ unpackMantissa x).isLt

theorem atMost_of_isFinite {x : Float} (hx : x.isFinite) : AtMost 971 x.toModel.unpack := by
  change AtMost 971 (UnpackedFloat.unpack .binary64 x.toModel.toBits.toBitVec)
  change (UnpackedFloat.unpack .binary64 x.toModel.toBits.toBitVec).isFinite = true at hx
  generalize x.toModel.toBits.toBitVec = w at *
  have hne : @unpackExponent .binary64 w ≠ -1#11 := by
    intro he
    unfold UnpackedFloat.unpack at hx
    rw [if_pos he] at hx
    split at hx <;> cases hx
  have hlt : (@unpackExponent .binary64 w).toNat < 2047 := by
    refine lt_of_le_of_ne (Nat.le_of_lt_succ (BitVec.isLt _)) fun he => hne ?_
    exact BitVec.eq_of_toNat_eq (he.trans (by decide))
  exact atMost_unpack hlt (by omega) (by omega)

theorem isInf_unpack {w : BitVec Format.binary64.numBits} (he : unpackExponent w = -1#11)
    (hm : unpackMantissa w = 0#52) : (UnpackedFloat.unpack .binary64 w).isInf := by
  unfold UnpackedFloat.unpack
  rw [if_pos he, if_pos hm]
  rfl

theorem isInf_pack {hm : 0 < m} (he : 971 < e) :
    (Float.Model.pack (.finite s m e hm)).unpack.isInf := by
  have hbias : Format.binary64.exponentBias = 1023 := rfl
  have hlarge : 2 ^ 11 ≤ (e + (1023 : Nat) + (52 : Nat)).toNat + 1 := by omega
  unfold Float.Model.pack Float.Model.unpack UnpackedFloat.pack
  dsimp only
  rw [hbias, if_pos hlarge]
  exact isInf_unpack unpackExponent_packComponents unpackMantissa_packComponents

theorem AtMost.pack_of_not_isInf (h : AtMost b u) (hi : (Float.Model.pack u).unpack.isInf = false) :
    AtMost 971 (Float.Model.pack u).unpack := by
  cases h with
  | zero s => exact (AtMost.zero s).pack (by decide) (by decide)
  | @finite s m e hm he =>
    by_cases he' : e ≤ 971
    · exact (AtMost.finite he').pack (by decide) (by decide)
    · rw [isInf_pack (by omega)] at hi
      cases hi

theorem twoOrMore_unpack {w : BitVec Format.binary64.numBits} (h : 1024 ≤ (unpackExponent w).toNat)
    (h' : (unpackExponent w).toNat < 2047) : twoOrMore (UnpackedFloat.unpack .binary64 w) := by
  have hbias : Format.binary64.exponentBias = 1023 := rfl
  have hne : unpackExponent w ≠ -1#11 := by
    intro he
    rw [he] at h'
    exact absurd h' (by decide)
  have hne0 : unpackExponent w ≠ 0#11 := by
    intro he
    rw [he] at h
    exact absurd h (by decide)
  have hle : 2 ^ 52 ≤ (1#1 ++ unpackMantissa w).toNat := by
    rw [BitVec.toNat_append]
    exact Nat.left_le_or
  have hlog := (Nat.le_log2 (by omega)).mpr hle
  unfold UnpackedFloat.unpack
  rw [if_neg hne, if_neg hne0, twoOrMore_finite, hbias]
  push_cast
  omega

/-- Packing loses nothing of a number with all the bits that a double can have. -/
theorem twoOrMore_pack {hm : 0 < m} (hlog : m.log2 = 52) (he : -51 ≤ e) (he' : e ≤ 971) :
    twoOrMore (Float.Model.pack (.finite s m e hm)).unpack := by
  have hbias : Format.binary64.exponentBias = 1023 := rfl
  have hbits : Format.binary64.mantissaBits = 53 := rfl
  unfold Float.Model.pack Float.Model.unpack UnpackedFloat.pack
  dsimp only
  rw [hbias, hbits, if_neg (by omega), if_pos (by omega)]
  have hx : (BitVec.ofNat 11 (e + (1023 : Nat) + (52 : Nat)).toNat).toNat =
      (e + (1023 : Nat) + (52 : Nat)).toNat := by
    rw [BitVec.toNat_ofNat, Nat.mod_eq_of_lt (by omega)]
  apply twoOrMore_unpack
  · rw [unpackExponent_packComponents, hx]
    omega
  · rw [unpackExponent_packComponents, hx]
    omega

end Packing

section Arithmetic

variable {x y : Float}

theorem AtMost.isFinite (h : AtMost b x.toModel.unpack) : x.isFinite := by
  change x.toModel.unpack.isFinite = true
  generalize x.toModel.unpack = u at *
  cases h <;> rfl

theorem unpack_of_isFinite (hx : x.isFinite) : (∃ s, x.toModel.unpack = .zero s) ∨
    ∃ s m e hm, x.toModel.unpack = .finite s m e hm ∧ m < 2 ^ 53 ∧ e ≤ 971 := by
  have hx' := atMost_of_isFinite hx
  generalize hu : x.toModel.unpack = u at hx'
  cases hx' with
  | zero s => exact .inl ⟨s, rfl⟩
  | finite he => exact .inr ⟨_, _, _, _, rfl, mantissa_lt hu, he⟩

theorem isFinite_mul (hx : x.isFinite) (hy : y.isFinite) (hxy : (x * y).isInf = false) :
    (x * y).isFinite := by
  have hmul : ∃ b, AtMost b (UnpackedFloat.mul .binary64 x.toModel.unpack y.toModel.unpack) := by
    obtain ⟨s, hu⟩ | ⟨s, m, e, hm, hu, -⟩ := unpack_of_isFinite hx <;>
      obtain ⟨s', hv⟩ | ⟨s', m', e', hm', hv, -⟩ := unpack_of_isFinite hy <;> rw [hu, hv]
    · exact ⟨0, .zero _⟩
    · exact ⟨0, .zero _⟩
    · exact ⟨0, .zero _⟩
    · exact ⟨max (max (totalExponent m e + totalExponent m' e') (e + e' + 1)) 0,
        mul_atMost (by omega) (by omega) (by omega)⟩
  obtain ⟨b, hb⟩ := hmul
  exact (hb.pack_of_not_isInf hxy).isFinite

theorem isFinite_div (hx : x.isFinite) (hy : twoOrMore y.toModel.unpack) : (x / y).isFinite := by
  apply AtMost.isFinite (b := 971)
  refine AtMost.pack ?_ (by decide) (by decide)
  cases hv : y.toModel.unpack with
  | finite s' m' e' hm' =>
    rw [hv, twoOrMore_finite] at hy
    obtain ⟨s, hu⟩ | ⟨s, m, e, hm, hu, hlt, he⟩ := unpack_of_isFinite hx <;> rw [hu]
    · exact .zero _
    · exact div_atMost hlt he hy
  | _ => rw [hv] at hy; cases hy

theorem isFinite_neg (hx : x.isFinite) : (-x).isFinite := by
  apply AtMost.isFinite (b := 971)
  refine AtMost.pack ?_ (by decide) (by decide)
  obtain ⟨s, hu⟩ | ⟨s, m, e, hm, hu, hlt, he⟩ := unpack_of_isFinite hx <;> rw [hu]
  · exact .zero _
  · exact .finite he

theorem atMost_toFloat (w : UInt64) : AtMost 12 w.toFloat.toModel.unpack := by
  refine AtMost.pack ?_ (by decide) (by decide)
  have hw := w.toNat_lt
  unfold UnpackedFloat.ofUInt64 UnpackedFloat.ofNat UnpackedFloat.ofInt UnpackedFloat.normalize
  split
  · exact round_natural (by omega)
  · exact .zero _
  · exact round_natural (by omega)

theorem isFinite_ofNat (hn : n < 2 ^ 64) : (Float.ofNat n).isFinite := by
  apply AtMost.isFinite (b := 971)
  change AtMost 971 (Float.ofScientific n false 0).toModel.unpack
  unfold Float.ofScientific
  split
  · have hone : Float.exactlyRepresentablePowersOfTen[0].toModel.unpack =
        .finite .positive (2 ^ 52) (-52) (by decide) := rfl
    have hsmall := atMost_toFloat n.toUInt64
    refine AtMost.pack (u := .mul .binary64 n.toUInt64.toFloat.toModel.unpack _) ?_
      (by decide) (by decide)
    rw [hone]
    generalize hu : n.toUInt64.toFloat.toModel.unpack = u at *
    cases hsmall with
    | zero s => exact .zero _
    | @finite s m e hm he =>
      have hlog : m.log2 < 53 := (Nat.log2_lt hm.ne').mpr (mantissa_lt hu)
      refine mul_atMost ?_ (by omega) (by decide)
      rw [totalExponent, totalExponent, Nat.log2_two_pow]
      omega
  · exact (ofScientific_atMost hn).pack (by decide) (by decide)

end Arithmetic

end Binary64

end Liveness
