import Liveness.Proofs.Weight.Words

/-! # Natural numbers as doubles

Rounding does nothing to a number that has the form of a double, so one is neutral among doubles
and natural numbers of up to 53 bits are doubles. Beyond that they are rounded, but never to zero.
-/

namespace Liveness

namespace Binary64

open Float.Model Float.Model.UnpackedFloat

variable {u : UnpackedFloat} {k : Int} {m : Nat} {e : Int} {s : Sign}

section Exact

open ExtendedMantissa

theorem shift_zeros (m j : Nat) :
    (⟨m * 2 ^ j, false, false⟩ : ExtendedMantissa) >>> j = ⟨m, false, false⟩ := by
  induction j generalizing m with
  | zero => simp [HShiftRight.hShiftRight, Nat.repeat]
  | succ j ih =>
    have hm : m * 2 ^ (j + 1) = m * 2 * 2 ^ j := by
      rw [Nat.pow_succ, Nat.mul_assoc, Nat.mul_comm (2 ^ j)]
    change shiftRightOne ((⟨m * 2 ^ (j + 1), false, false⟩ : ExtendedMantissa) >>> j) = _
    rw [hm, ih, shiftRightOne]
    simp

theorem Canonical.log2_eq (h : Canonical m e) : max ((m.log2 : Int) + 1 + e - 53) (-1074) = e := by
  obtain ⟨hm, hlt, hlow, -, hfull⟩ := h
  have hlog := (Nat.log2_lt hm.ne').mpr hlt
  have hle := Nat.le_log2 (k := 52) hm.ne'
  omega

theorem Canonical.shiftToTargetExponent_eq (h : Canonical m e) (j : Nat) :
    shiftToTargetExponent .binary64 (m * 2 ^ j) (e - j) .exact = (⟨m, false, false⟩, e) := by
  have hlog : (m * 2 ^ j).log2 = m.log2 + j := by
    rw [← Nat.shiftLeft_eq, log2_shiftLeft h.pos.ne']
  have ht : Format.binary64.targetExponent (totalExponent (m * 2 ^ j) (e - j)) = e := by
    have := h.log2_eq
    rw [targetExponent_eq, totalExponent, hlog]
    omega
  have hj : (e - (e - (j : Int))).toNat = j := by omega
  rw [shiftToTargetExponent, shiftToExponent, ht, hj]
  simp only [ofMantissaAndAccuracy, shift_zeros, Prod.mk.injEq, true_and]
  omega

theorem Canonical.round_eq {hm : 0 < m} (h : Canonical m e) (s : Sign) (j : Nat) :
    roundWithAccuracy .binary64 s (m * 2 ^ j) (e - j) .exact = .finite s m e hm := by
  have h₀ := h.shiftToTargetExponent_eq 0
  rw [Nat.pow_zero, Nat.mul_one, Nat.cast_zero, Int.sub_zero] at h₀
  unfold roundWithAccuracy
  rw [h.shiftToTargetExponent_eq j]
  have hr : (⟨m, false, false⟩ : ExtendedMantissa).roundedMantissa = m := rfl
  dsimp only
  rw [hr, h₀, dif_neg h.pos.ne']

end Exact

section One

theorem unpack_one : (1 : Float).toModel.unpack = .finite .positive (2 ^ 52) (-52) (by decide) :=
  rfl

theorem positive_mul (s : Sign) : Sign.positive * s = s := by
  cases s <;> rfl

theorem Keyed.one_mul (h : Keyed u k) :
    UnpackedFloat.mul .binary64 (.finite .positive (2 ^ 52) (-52) (by decide)) u = u := by
  cases h with
  | zero s =>
    unfold UnpackedFloat.mul
    dsimp only
    rw [positive_mul]
  | infinity s =>
    unfold UnpackedFloat.mul
    dsimp only
    rw [positive_mul]
  | @finite m e s hm hc =>
    have he : -52 + e = e - (52 : Nat) := by omega
    unfold UnpackedFloat.mul
    dsimp only
    rw [positive_mul, Nat.mul_comm, he, hc.round_eq]

theorem mul_comm (u v : UnpackedFloat) :
    UnpackedFloat.mul .binary64 u v = UnpackedFloat.mul .binary64 v u := by
  have hs : ∀ s t : Sign, s * t = t * s := by
    intro s t
    cases s <;> cases t <;> rfl
  cases u <;> cases v <;> simp [UnpackedFloat.mul, hs, Nat.mul_comm, Int.add_comm]

theorem Keyed.one_mul_float {x : Float} (h : Keyed x.toModel.unpack k) :
    Keyed (1 * x).toModel.unpack k := by
  change Keyed (Float.Model.pack (UnpackedFloat.mul .binary64 _ x.toModel.unpack)).unpack k
  rw [unpack_one, h.one_mul]
  exact h.pack

end One

section Naturals

variable {n : Nat}

theorem canonical_natural (hn : 0 < n) (hlt : n < 2 ^ 53) :
    Canonical (n <<< (52 - n.log2)) (n.log2 - 52) := by
  have hlog : n.log2 < 53 := (Nat.log2_lt hn.ne').mpr hlt
  have hs := log2_shiftLeft hn.ne' (52 - n.log2)
  have hne : n <<< (52 - n.log2) ≠ 0 := by simp [Nat.shiftLeft_eq, hn.ne']
  refine ⟨Nat.pos_of_ne_zero hne, (Nat.log2_lt hne).mp (by omega), by omega, by omega, .inl ?_⟩
  exact (Nat.le_log2 hne).mp (by omega)

theorem round_natural_eq (hn : 0 < n) (hlt : n < 2 ^ 53) (s : Sign) :
    UnpackedFloat.round .binary64 s n 0 =
      .finite s (n <<< (52 - n.log2)) (n.log2 - 52) (canonical_natural hn hlt).pos := by
  have hc := canonical_natural hn hlt
  have hlog : n.log2 < 53 := (Nat.log2_lt hn.ne').mpr hlt
  have ht : Format.binary64.targetExponent (totalExponent n 0) = n.log2 - 52 := by
    rw [targetExponent_eq, totalExponent]
    omega
  have hk : (0 - ((n.log2 : Int) - 52)).toNat = 52 - n.log2 := by omega
  have he : (0 : Int) - (52 - n.log2 : Nat) = n.log2 - 52 := by omega
  have hround := @Canonical.round_eq _ _ hc.pos hc s 0
  rw [Nat.pow_zero, Nat.mul_one, Nat.cast_zero, Int.sub_zero] at hround
  unfold UnpackedFloat.round decreaseExponent
  dsimp only
  rw [ht, hk, he, hround]

def naturalKey (n : Nat) : Int :=
  ((n.log2 : Int) - 52 + 1074) * 2 ^ 52 + (n <<< (52 - n.log2) : Nat)

theorem keyed_toUInt64 (hn : 0 < n) (hlt : n < 2 ^ 53) :
    Keyed n.toUInt64.toFloat.toModel.unpack (naturalKey n) := by
  have hn64 : n.toUInt64.toNat = n := Nat.mod_eq_of_lt (by omega)
  have hpos : compare (n : Int) 0 = .gt := Int.compare_eq_gt.mpr (by omega)
  change Keyed (Float.Model.pack
    (UnpackedFloat.normalize .binary64 (n.toUInt64.toNat : Int) 0 .positive)).unpack _
  rw [hn64]
  apply Keyed.pack
  unfold UnpackedFloat.normalize
  rw [hpos]
  dsimp only
  rw [Int.toNat_natCast, round_natural_eq hn hlt]
  exact .finite .positive (canonical_natural hn hlt)

theorem keyed_ofNat (hn : 0 < n) (hlt : n < 2 ^ 53) :
    Keyed (Float.ofNat n).toModel.unpack (naturalKey n) := by
  change Keyed (Float.ofScientific n false 0).toModel.unpack _
  unfold Float.ofScientific
  rw [dif_pos ⟨hlt, by decide⟩]
  change Keyed (Float.Model.pack (UnpackedFloat.mul .binary64 n.toUInt64.toFloat.toModel.unpack
    (1 : Float).toModel.unpack)).unpack _
  rw [mul_comm, unpack_one, (keyed_toUInt64 hn hlt).one_mul]
  exact (keyed_toUInt64 hn hlt).pack

theorem keyed_pack_of_large {hm : 0 < m} (he : 971 < e) :
    Keyed (Float.Model.pack (.finite s m e hm)).unpack (s.apply (2047 * 2 ^ 52)) := by
  have hbias : Format.binary64.exponentBias = 1023 := rfl
  have hinf : (Float.Model.pack (.finite s m e hm)).unpack = .infinity s := by
    change UnpackedFloat.unpack .binary64 (UnpackedFloat.pack .binary64 _) = _
    unfold UnpackedFloat.pack
    dsimp only
    rw [hbias, if_pos (by omega)]
    exact (unpack_packComponents s _ 0).trans (decode_infinity s)
  rw [hinf]
  exact .infinity s

theorem naturalKey_lt {m : Nat} (hm : 0 < m) (hmn : m < n) (hlt : n < 2 ^ 53) :
    naturalKey m < naturalKey n := by
  have hn := hm.trans hmn
  have hlog : m.log2 ≤ n.log2 := by
    rw [Nat.log2_eq_log_two, Nat.log2_eq_log_two]
    exact Nat.log_mono_right hmn.le
  refine ((canonical_natural hm (hmn.trans hlt)).key_lt_iff (canonical_natural hn hlt)).mpr ?_
  rcases hlog.lt_or_eq with hlog | hlog
  · exact .inl (by omega)
  · refine .inr ⟨by omega, ?_⟩
    rw [hlog, Nat.shiftLeft_eq, Nat.shiftLeft_eq]
    exact Nat.mul_lt_mul_of_pos_right hmn (Nat.two_pow_pos _)

theorem exists_keyed_ofNat_of_ge (hn : 2 ^ 53 ≤ n) :
    ∃ k, 1076 * 2 ^ 52 ≤ k ∧ Keyed (Float.ofNat n).toModel.unpack k := by
  have hlog : 53 ≤ n.log2 := (Nat.le_log2 (by omega)).mpr hn
  have hshift := log2_shiftLeft (show n ≠ 0 by omega) 53
  have hbits : Format.binary64.mantissaBits = 53 := rfl
  change ∃ k, 1076 * 2 ^ 52 ≤ k ∧ Keyed (Float.ofScientific n false 0).toModel.unpack k
  unfold Float.ofScientific
  rw [dif_neg fun h => hn.not_gt h.1]
  change ∃ k, 1076 * 2 ^ 52 ≤ k ∧
    Keyed (Float.Model.pack (UnpackedFloat.ofScientific .binary64 n 0)).unpack k
  unfold UnpackedFloat.ofScientific
  rw [dif_neg (by omega), if_neg (by decide), if_neg (by simp), if_pos (by decide)]
  have hm : (n <<< 53 * 10 ^ (0 : Int).toNat).log2 = n.log2 + 53 := by
    rw [Int.toNat_zero, Nat.pow_zero, Nat.mul_one, hshift]
  obtain ⟨m', e', hm', hround, hlog', hle⟩ := round_atLeast (s := .positive * .positive)
    (m := n <<< 53 * 10 ^ (0 : Int).toNat) (e := -(53 : Nat) + 0) (by omega) (by omega) .exact
  have hfull : 2 ^ 52 ≤ m' := (Nat.le_log2 hm'.ne').mp (by omega)
  unfold UnpackedFloat.mul
  dsimp only
  rw [hbits]
  rw [hround]
  by_cases he : e' ≤ 971
  · have hc : Canonical m' e' :=
      ⟨hm', (Nat.log2_lt hm'.ne').mp (by omega), by omega, he, .inl hfull⟩
    refine ⟨_, ?_, (Keyed.finite .positive hc).pack⟩
    dsimp only [Sign.apply]
    omega
  · exact ⟨_, by decide, keyed_pack_of_large (by omega)⟩

theorem keyed_ofNat_zero : Keyed (Float.ofNat 0).toModel.unpack 0 := keyed_zero

/-- As long as the smaller one has no more than 53 bits, natural numbers compare as doubles as they
do. -/
theorem exists_keyed_ofNat_lt {m : Nat} (hmn : m < n) (hm : m < 2 ^ 53) :
    ∃ k l, k < l ∧ Keyed (Float.ofNat m).toModel.unpack k ∧
      Keyed (Float.ofNat n).toModel.unpack l := by
  have hn := Nat.zero_lt_of_lt hmn
  by_cases hlt : n < 2 ^ 53
  · rcases Nat.eq_zero_or_pos m with rfl | hpos
    · exact ⟨_, _, (canonical_natural hn hlt).key_pos, keyed_ofNat_zero, keyed_ofNat hn hlt⟩
    · exact ⟨_, _, naturalKey_lt hpos hmn hlt, keyed_ofNat hpos hm, keyed_ofNat hn hlt⟩
  · obtain ⟨l, hl, hkn⟩ := exists_keyed_ofNat_of_ge (Nat.not_lt.mp hlt)
    rcases Nat.eq_zero_or_pos m with rfl | hpos
    · exact ⟨_, l, by omega, keyed_ofNat_zero, hkn⟩
    · refine ⟨_, l, lt_of_lt_of_le ?_ hl, keyed_ofNat hpos hm, hkn⟩
      have hlog : m.log2 < 53 := (Nat.log2_lt hpos.ne').mpr hm
      have := (canonical_natural hpos hm).lt
      unfold naturalKey
      omega

end Naturals

end Binary64

end Liveness
