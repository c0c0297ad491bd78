import Mathlib
import Liveness.Proofs.Weight.Finite
import Liveness.Weight.Binary64

/-! # Doubles as words

The word of a double grows with its size, apart from the sign bit. So doubles that are numbers
compare as the words of their sizes do, each with the sign of its double: this is the key of the
double. Zeros of both signs have the same key.
-/

namespace Liveness

namespace Binary64

open Float.Model Float.Model.UnpackedFloat

variable {u v : UnpackedFloat} {k l : Int} {m m' : Nat} {e e' : Int} {s : Sign}

/-- A mantissa and an exponent as doubles have them. -/
structure Canonical (m : Nat) (e : Int) : Prop where
  pos : 0 < m
  lt : m < 2 ^ 53
  low : -1074 ≤ e
  high : e ≤ 971
  full : 2 ^ 52 ≤ m ∨ e = -1074

/-- The number and the word of its size, with its sign. -/
inductive Keyed : UnpackedFloat → Int → Prop
  | zero (s : Sign) : Keyed (.zero s) 0
  | finite {m : Nat} {e : Int} (s : Sign) {hm : 0 < m} (hc : Canonical m e) :
      Keyed (.finite s m e hm) (s.apply ((e + 1074) * 2 ^ 52 + m))
  | infinity (s : Sign) : Keyed (.infinity s) (s.apply (2047 * 2 ^ 52))

theorem Canonical.key_pos (h : Canonical m e) : 0 < (e + 1074) * 2 ^ 52 + m := by
  have := h.pos
  have := h.low
  omega

theorem Canonical.key_lt (h : Canonical m e) : (e + 1074) * 2 ^ 52 + m < 2047 * 2 ^ 52 := by
  have := h.lt
  have := h.high
  omega

theorem Canonical.key_lt_iff (h : Canonical m e) (h' : Canonical m' e') :
    (e + 1074) * 2 ^ 52 + m < (e' + 1074) * 2 ^ 52 + m' ↔ e < e' ∨ e = e' ∧ m < m' := by
  have := h.lt
  have := h'.lt
  have := h.low
  have := h'.low
  have := h.full
  have := h'.full
  omega

theorem Canonical.cmp_key (h : Canonical m e) (h' : Canonical m' e') :
    (compare e e').then (compare m m') =
      cmp ((e + 1074) * 2 ^ 52 + m) ((e' + 1074) * 2 ^ 52 + m') := by
  have hlt := h.key_lt_iff h'
  have hgt := h'.key_lt_iff h
  rw [← cmp_eq_compare, ← cmp_eq_compare]
  rcases lt_trichotomy e e' with he | rfl | he
  · rw [he.cmp_eq_lt, (hlt.mpr (.inl he)).cmp_eq_lt]
    rfl
  · rw [cmp_self_eq_eq]
    rcases lt_trichotomy m m' with hm | rfl | hm
    · rw [hm.cmp_eq_lt, (hlt.mpr (.inr ⟨rfl, hm⟩)).cmp_eq_lt]
      rfl
    · rw [cmp_self_eq_eq, cmp_self_eq_eq]
      rfl
    · rw [hm.cmp_eq_gt, (hgt.mpr (.inr ⟨rfl, hm⟩)).cmp_eq_gt]
      rfl
  · rw [he.cmp_eq_gt, (hgt.mpr (.inl he)).cmp_eq_gt]
    rfl

theorem Canonical.apply_lt (h : Canonical m e) (s : Sign) :
    -(2047 * 2 ^ 52) < s.apply ((e + 1074) * 2 ^ 52 + m) ∧
      s.apply ((e + 1074) * 2 ^ 52 + m) < 2047 * 2 ^ 52 := by
  have := h.key_pos
  have := h.key_lt
  cases s <;> dsimp only [Sign.apply] <;> omega

theorem Keyed.compare (hu : Keyed u k) (hv : Keyed v l) : u.compare v = some (cmp k l) := by
  have hlt : ∀ {i j : Int}, i < j → some Ordering.lt = some (cmp i j) := fun h =>
    congrArg some h.cmp_eq_lt.symm
  have hgt : ∀ {i j : Int}, j < i → some Ordering.gt = some (cmp i j) := fun h =>
    congrArg some h.cmp_eq_gt.symm
  cases hu with
  | zero s =>
    cases hv with
    | zero t => exact congrArg some (cmp_self_eq_eq _).symm
    | finite t hc =>
      have hpos := hc.key_pos
      cases t with
      | negative => exact hgt (Int.neg_neg_of_pos hpos)
      | positive => exact hlt hpos
    | infinity t => cases t <;> rfl
  | finite s hc =>
    have hpos := hc.key_pos
    cases hv with
    | zero t =>
      cases s with
      | negative => exact hlt (Int.neg_neg_of_pos hpos)
      | positive => exact hgt hpos
    | finite t hc' =>
      have hpos' := hc'.key_pos
      cases s with
      | negative =>
        cases t with
        | negative =>
          -- below zero both orders are turned round
          refine congrArg some ?_
          rw [hc.cmp_key hc', cmp_swap]
          exact (StrictAnti.cmp_map_eq (fun _ _ => Int.neg_lt_neg) _ _).symm
        | positive => exact hlt ((Int.neg_neg_of_pos hpos).trans hpos')
      | positive =>
        cases t with
        | negative => exact hgt ((Int.neg_neg_of_pos hpos').trans hpos)
        | positive => exact congrArg some (hc.cmp_key hc')
    | infinity t =>
      have hb := hc.apply_lt s
      cases t with
      | negative => cases s <;> exact hgt hb.1
      | positive => cases s <;> exact hlt hb.2
  | infinity s =>
    cases hv with
    | zero t => cases s <;> rfl
    | finite t hc =>
      have hb := hc.apply_lt t
      cases s with
      | negative => exact hlt hb.1
      | positive => exact hgt hb.2
    | infinity t => cases s <;> cases t <;> rfl

theorem compare_eq_none (h : u.isNaN = true ∨ v.isNaN = true) : u.compare v = none := by
  cases u with
  | notANumber => rfl
  | infinity s | zero s | finite s m e hm =>
    cases v with
    | notANumber => cases s <;> rfl
    | infinity t | zero t | finite t m e hm => rcases h with h | h <;> cases h

theorem Keyed.unique (h : Keyed u k) (h' : Keyed u l) : k = l := by
  have hkl := h.compare h'
  rw [h.compare h, cmp_self_eq_eq, Option.some.injEq] at hkl
  exact (cmp_eq_eq_iff k l).mp hkl.symm

theorem apply_neg (s : Sign) (n : Int) : (-s).apply n = -s.apply n := by
  cases s with
  | negative => exact (Int.neg_neg n).symm
  | positive => rfl

theorem Keyed.neg (hu : Keyed u k) : Keyed u.neg (-k) := by
  cases hu with
  | zero s => exact .zero _
  | finite s hc =>
    rw [← apply_neg]
    exact .finite _ hc
  | infinity s =>
    rw [← apply_neg]
    exact .infinity _

section Fields

variable (w : BitVec 64)

theorem toNat_unpackMantissa :
    (@unpackMantissa .binary64 w).toNat = w.toNat % 2 ^ 52 := by
  simp [unpackMantissa]

theorem toNat_unpackExponent :
    (@unpackExponent .binary64 w).toNat = w.toNat / 2 ^ 52 % 2 ^ 11 := by
  simp [unpackExponent, Nat.shiftRight_eq_div_pow]

theorem toNat_unpackSign : (@unpackSign .binary64 w).toNat = w.toNat / 2 ^ 63 := by
  have := w.isLt
  simp [unpackSign, Nat.shiftRight_eq_div_pow]
  omega

end Fields

def keyOf (w : BitVec 64) : Int := if w.toNat < 2 ^ 63 then w.toNat else 2 ^ 63 - w.toNat

theorem sign_apply_unpackSign (w : BitVec 64) :
    (Sign.ofBitVec (@unpackSign .binary64 w)).apply ((w.toNat % 2 ^ 63 : Nat) : Int) =
      keyOf w := by
  have hs := toNat_unpackSign w
  have hw := w.isLt
  unfold Sign.ofBitVec keyOf
  by_cases hlt : w.toNat < 2 ^ 63
  · have h0 : @unpackSign .binary64 w = 0#1 := by
      apply BitVec.eq_of_toNat_eq
      rw [hs, Nat.div_eq_of_lt hlt]
      rfl
    rw [if_pos h0, if_pos hlt, Nat.mod_eq_of_lt hlt]
    rfl
  · have h1 : @unpackSign .binary64 w ≠ 0#1 := by
      intro h0
      rw [h0, BitVec.toNat_zero] at hs
      omega
    rw [if_neg h1, if_neg hlt]
    dsimp only [Sign.apply]
    omega

theorem toNat_mod_eq (w : BitVec 64) : w.toNat % 2 ^ 63 =
    (@unpackExponent .binary64 w).toNat * 2 ^ 52 +
      (@unpackMantissa .binary64 w).toNat := by
  rw [toNat_unpackExponent, toNat_unpackMantissa]
  omega

theorem toNat_lt_of_ne {x : BitVec 11} (hx : x ≠ -1#11) : x.toNat < 2047 := by
  refine lt_of_le_of_ne (Nat.le_of_lt_succ x.isLt) fun he => hx ?_
  exact BitVec.eq_of_toNat_eq (he.trans (by decide))

theorem toNat_pos_of_ne {n : Nat} {x : BitVec n} (hx : x ≠ 0#n) : 0 < x.toNat :=
  Nat.pos_of_ne_zero fun h => hx (BitVec.eq_of_toNat_eq h)

theorem Keyed.of_key {hm : 0 < m} (hc : Canonical m e) (hk : (e + 1074) * 2 ^ 52 + m = k) :
    Keyed (.finite s m e hm) (s.apply k) :=
  hk ▸ .finite s hc

theorem toNat_one_append (y : BitVec 52) : (1#1 ++ y).toNat = 2 ^ 52 + y.toNat := by
  have h := Nat.two_pow_add_eq_or_of_lt y.isLt 1
  rw [Nat.mul_one] at h
  rw [BitVec.toNat_append, Nat.shiftLeft_eq, show (1#1).toNat = 1 from rfl, Nat.one_mul, h]

/-- The number with a given sign and given bits of exponent and mantissa. -/
def decode (s : Sign) (x : BitVec 11) (y : BitVec 52) : UnpackedFloat :=
  let e : Int := x.toNat - ((1023 : Nat) + (52 : Nat))
  if x = -1#11 then
    if y = 0#52 then .infinity s else .notANumber
  else if x = 0#11 then
    if h : y = 0#52 then .zero s else .finite s y.toNat (e + 1) (toNat_pos_of_ne h)
  else .finite s (1#1 ++ y).toNat e (by rw [toNat_one_append]; omega)

theorem unpack_eq_decode (w : BitVec 64) : UnpackedFloat.unpack .binary64 w =
    decode (Sign.ofBitVec (@unpackSign .binary64 w)) (@unpackExponent .binary64 w)
      (@unpackMantissa .binary64 w) := rfl

theorem unpack_packComponents (s : Sign) (x : BitVec 11) (y : BitVec 52) :
    UnpackedFloat.unpack .binary64 (packComponents .binary64 s x y) = decode s x y := by
  rw [unpack_eq_decode, unpackSign_packComponents, unpackExponent_packComponents,
    unpackMantissa_packComponents, Sign.ofBitVec_toBitVec]

theorem decode_zero (s : Sign) : decode s 0#11 0#52 = .zero s := rfl

theorem decode_infinity (s : Sign) : decode s (-1#11) 0#52 = .infinity s := rfl

theorem keyed_decode {x : BitVec 11} {y : BitVec 52} (hn : (decode s x y).isNaN = false) :
    Keyed (decode s x y) (s.apply ((x.toNat * 2 ^ 52 + y.toNat : Nat) : Int)) := by
  have hy := y.isLt
  unfold decode at hn ⊢
  dsimp only at hn ⊢
  by_cases hmax : x = -1#11
  · by_cases hy0 : y = 0#52
    · rw [if_pos hmax, if_pos hy0, hmax, hy0]
      exact .infinity s
    · rw [if_pos hmax, if_neg hy0] at hn
      cases hn
  · have hx := toNat_lt_of_ne hmax
    rw [if_neg hmax]
    by_cases hx0 : x = 0#11
    · subst hx0
      rw [if_pos rfl]
      by_cases hy0 : y = 0#52
      · subst hy0
        have h0 : (0#11).toNat * 2 ^ 52 + (0#52).toNat = 0 := by simp
        rw [dif_pos rfl, h0]
        cases s <;> exact .zero _
      · -- without a leading bit the exponent is that of the smallest numbers with one
        have hpos := toNat_pos_of_ne hy0
        rw [dif_neg hy0]
        have he : ((0#11).toNat : Int) - ((1023 : Nat) + (52 : Nat)) + 1 = -1074 := rfl
        exact .of_key ⟨hpos, by omega, by omega, by omega, .inr he⟩ (by omega)
    · have hpos := toNat_pos_of_ne hx0
      have hm := toNat_one_append y
      rw [if_neg hx0]
      exact .of_key ⟨by omega, by omega, by omega, by omega, .inl (by omega)⟩ (by omega)

theorem keyed_unpack {w : BitVec 64} (hn : (UnpackedFloat.unpack .binary64 w).isNaN = false) :
    Keyed (UnpackedFloat.unpack .binary64 w) (keyOf w) := by
  rw [← sign_apply_unpackSign, toNat_mod_eq]
  rw [unpack_eq_decode] at hn ⊢
  exact keyed_decode hn

theorem pack_decode {s : Sign} {x : BitVec 11} {y : BitVec 52} (hn : (decode s x y).isNaN = false) :
    UnpackedFloat.pack .binary64 (decode s x y) = packComponents .binary64 s x y := by
  have hnumber : ¬ @isNaNBits .binary64 (packComponents .binary64 s x y) = true := by
    rw [isNaNBits, unpackExponent_packComponents, unpackMantissa_packComponents,
      decide_eq_true_iff]
    rintro ⟨hx, hy⟩
    rw [decode, if_pos hx, if_neg hy] at hn
    cases hn
  have hp := pack_unpack (packComponents .binary64 s x y)
  rwa [unpack_packComponents, if_neg hnumber] at hp

theorem neg_decode (x : BitVec 11) (y : BitVec 52) :
    (decode .positive x y).neg = decode .negative x y := by
  unfold decode
  dsimp only
  split
  · split <;> rfl
  · split
    · split <;> rfl
    · rfl

theorem isNaN_decode (s t : Sign) (x : BitVec 11) (y : BitVec 52) :
    (decode s x y).isNaN = (decode t x y).isNaN := by
  unfold decode
  dsimp only
  split
  · split <;> rfl
  · split
    · split <;> rfl
    · rfl

theorem exists_decode {x : Float} (hn : x.isNaN = false) : ∃ s e m,
    (decode s e m).isNaN = false ∧ Float.ofModel (Float.Model.pack (decode s e m)) = x :=
  ⟨_, _, _, hn, Float.toBits_inj.mp (UInt64.toBitVec_inj.mp
    (pack_unpack_of_valid x.toModel.valid))⟩

theorem decode_normal {hm : 0 < m} (hc : Canonical m e) (hle : 2 ^ 52 ≤ m) :
    decode s (BitVec.ofNat 11 (e + 1075).toNat) (BitVec.ofNat 52 m) = .finite s m e hm := by
  obtain ⟨-, hlt, hlow, hhigh, -⟩ := hc
  have hx : (BitVec.ofNat 11 (e + 1075).toNat).toNat = (e + 1075).toNat := by
    rw [BitVec.toNat_ofNat, Nat.mod_eq_of_lt (by omega)]
  have hy : (BitVec.ofNat 52 m).toNat = m % 2 ^ 52 := BitVec.toNat_ofNat ..
  have hmax : BitVec.ofNat 11 (e + 1075).toNat ≠ -1#11 := by
    intro he
    rw [he] at hx
    have : (-1#11 : BitVec 11).toNat = 2047 := rfl
    omega
  have h0 : BitVec.ofNat 11 (e + 1075).toNat ≠ 0#11 := by
    intro he
    rw [he, BitVec.toNat_zero] at hx
    omega
  unfold decode
  simp only [if_neg hmax, if_neg h0, toNat_one_append, hx, hy, UnpackedFloat.finite.injEq, true_and]
  omega

theorem decode_subnormal {hm : 0 < m} (hlt : m < 2 ^ 52) :
    decode s 0#11 (BitVec.ofNat 52 m) = .finite s m (-1074) hm := by
  have hy : (BitVec.ofNat 52 m).toNat = m := by
    rw [BitVec.toNat_ofNat, Nat.mod_eq_of_lt hlt]
  have h0 : BitVec.ofNat 52 m ≠ 0#52 := by
    intro he
    rw [he, BitVec.toNat_zero] at hy
    omega
  unfold decode
  simp [h0, hy]

theorem Keyed.not_isNaN (h : Keyed u k) : u.isNaN = false := by
  cases h <;> rfl

theorem Keyed.eq_decode (h : Keyed u k) : ∃ s x y, decode s x y = u := by
  cases h with
  | zero s => exact ⟨s, _, _, decode_zero s⟩
  | infinity s => exact ⟨s, _, _, decode_infinity s⟩
  | @finite m e s hm hc =>
    rcases hc.full with hle | rfl
    · exact ⟨s, _, _, decode_normal hc hle⟩
    · rcases Nat.lt_or_ge m (2 ^ 52) with hlt | hle
      · exact ⟨s, _, _, decode_subnormal hlt⟩
      · exact ⟨s, _, _, decode_normal hc hle⟩

/-- Packing loses nothing of a number in the form of doubles. -/
theorem Keyed.unpack_pack (h : Keyed u k) :
    UnpackedFloat.unpack .binary64 (UnpackedFloat.pack .binary64 u) = u := by
  obtain ⟨s, x, y, rfl⟩ := h.eq_decode
  rw [pack_decode h.not_isNaN, unpack_packComponents]

section Floats

variable {x y : Float}

def key (x : Float) : Int := keyOf x.toBits.toBitVec

theorem keyed_of_not_isNaN (hx : x.isNaN = false) : Keyed x.toModel.unpack (key x) :=
  keyed_unpack hx

theorem Keyed.pack (h : Keyed u k) : Keyed (Float.Model.pack u).unpack k := by
  have hu : (Float.Model.pack u).unpack = u := h.unpack_pack
  rwa [hu]

theorem Keyed.neg_float (hx : Keyed x.toModel.unpack k) : Keyed (-x).toModel.unpack (-k) :=
  hx.neg.pack

theorem lt_iff_compare : x < y ↔ x.toModel.unpack.compare y.toModel.unpack = some .lt := by
  change Float.lt x y = true ↔ _
  unfold Float.lt
  rw [decide_eq_true_iff]
  exact beq_iff_eq

theorem beq_iff_compare :
    (x == y) = true ↔ x.toModel.unpack.compare y.toModel.unpack = some .eq := by
  change UnpackedFloat.beq _ _ = true ↔ _
  exact beq_iff_eq

theorem le_iff_compare :
    x ≤ y ↔ (x.toModel.unpack.compare y.toModel.unpack).any Ordering.isLE = true := by
  change Float.le x y = true ↔ _
  unfold Float.le
  rw [decide_eq_true_iff]
  rfl

theorem isNaN_of_le (h : x ≤ y) : x.isNaN = false ∧ y.isNaN = false := by
  by_contra hn
  have hnan : x.isNaN = true ∨ y.isNaN = true := by
    rwa [not_and_or, Bool.not_eq_false, Bool.not_eq_false] at hn
  rw [le_iff_compare, compare_eq_none hnan] at h
  cases h

theorem Keyed.le_iff (hx : Keyed x.toModel.unpack k) (hy : Keyed y.toModel.unpack l) :
    x ≤ y ↔ k ≤ l := by
  rw [le_iff_compare, hx.compare hy, Option.any_some, Ordering.isLE_iff_ne_gt,
    (cmp_eq_gt_iff k l).not, not_lt]

theorem Keyed.lt_iff (hx : Keyed x.toModel.unpack k) (hy : Keyed y.toModel.unpack l) :
    x < y ↔ k < l := by
  rw [lt_iff_compare, hx.compare hy, Option.some.injEq, cmp_eq_lt_iff]

theorem Keyed.beq_iff (hx : Keyed x.toModel.unpack k) (hy : Keyed y.toModel.unpack l) :
    (x == y) = true ↔ k = l := by
  rw [beq_iff_compare, hx.compare hy, Option.some.injEq, cmp_eq_eq_iff]

theorem Keyed.compare?_eq (hx : Keyed x.toModel.unpack k) (hy : Keyed y.toModel.unpack l) :
    compare? x y = some (cmp k l) := by
  unfold compare?
  rcases lt_trichotomy k l with h | rfl | h
  · rw [if_pos ((hx.lt_iff hy).mpr h), h.cmp_eq_lt]
  · rw [if_neg ((hx.lt_iff hy).not.mpr (lt_irrefl _)), if_pos ((hx.beq_iff hy).mpr rfl),
      cmp_self_eq_eq]
  · rw [if_neg ((hx.lt_iff hy).not.mpr h.not_gt), if_neg ((hx.beq_iff hy).not.mpr h.ne'),
      if_pos ((hy.lt_iff hx).mpr h), h.cmp_eq_gt]

theorem keyed_zero : Keyed (0 : Float).toModel.unpack 0 := by
  have h : (0 : Float).toModel.unpack = .zero .positive := rfl
  rw [h]
  exact .zero _

end Floats

end Binary64

end Liveness
