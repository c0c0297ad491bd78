import Mathlib.Data.Finset.Card
import Mathlib.Data.Finset.Image
import Liveness.Graph.Group
import Liveness.Proofs.Weight.Words

/-! # Distinct priorities

Priorities are put in the order that tells all doubles apart, and of those that are equal as
numbers the first is kept. The two orders agree but for zeros, where the negative one comes first.
So a priority finds as many kept ones before its own as there are distinct values below it, unless
it is a positive zero: with a negative zero kept in its place it is not found.
-/

namespace Liveness

open Binary64

namespace Decimal.Signed

variable {p q : Signed}

structure IsNumber (p : Signed) : Prop where
  not_isNaN : p.magnitude.isNaN = false
  unsigned : p.magnitude.toBits.toNat < 2 ^ 63

/-- The word of the magnitude, with the sign of the number. -/
def value (p : Signed) : Int :=
  if p.negative then -p.magnitude.toBits.toNat else p.magnitude.toBits.toNat

theorem rank_eq (p : Signed) : p.rank = if p.negative then p.value - 1 else p.value := by
  unfold rank value
  cases p.negative <;> rfl

theorem value_nonpos (hp : p.negative = true) : p.value ≤ 0 := by
  unfold value
  rw [if_pos hp]
  omega

theorem value_nonneg (hp : p.negative = false) : 0 ≤ p.value := by
  unfold value
  rw [if_neg (by rw [hp]; decide)]
  omega

theorem rank_lt_rank (h : p.value < q.value) : p.rank < q.rank := by
  rw [rank_eq, rank_eq]
  cases hp : p.negative with
  | true =>
    cases hq : q.negative with
    | true => exact Int.sub_lt_sub_right h 1
    | false => exact (Int.sub_lt_self _ (by decide)).trans h
  | false =>
    cases hq : q.negative with
    | true => exact absurd (h.trans_le (value_nonpos hq)) (value_nonneg hp).not_gt
    | false => exact h

theorem value_le_value (h : p.rank ≤ q.rank) : p.value ≤ q.value :=
  Int.not_lt.mp fun hlt => (rank_lt_rank hlt).not_ge h

/-- Of equal numbers only the zeros have different ranks. -/
theorem rank_lt_iff_of_value_eq (h : p.value = q.value) :
    p.rank < q.rank ↔ p.negative = true ∧ q.negative = false ∧ q.value = 0 := by
  rw [rank_eq, rank_eq]
  cases hp : p.negative with
  | true =>
    have := value_nonpos hp
    cases hq : q.negative with
    | true => simp [h]
    | false =>
      have := value_nonneg hq
      simp
      omega
  | false =>
    have := value_nonneg hp
    cases hq : q.negative with
    | true =>
      have := value_nonpos hq
      simp
      omega
    | false => simp [h]

theorem IsNumber.keyed (hp : p.IsNumber) : Keyed p.toFloat.toModel.unpack p.value := by
  have hkey : key p.magnitude = p.magnitude.toBits.toNat := if_pos hp.unsigned
  have hm := keyed_of_not_isNaN hp.not_isNaN
  rw [hkey] at hm
  unfold toFloat value
  cases p.negative with
  | true => exact hm.neg_float
  | false => exact hm

theorem IsNumber.lt_iff (hp : p.IsNumber) (hq : q.IsNumber) :
    p.toFloat < q.toFloat ↔ p.value < q.value := hp.keyed.lt_iff hq.keyed

theorem IsNumber.same_iff (hp : p.IsNumber) (hq : q.IsNumber) :
    p.same q = true ↔ p.value = q.value := hp.keyed.beq_iff hq.keyed

theorem IsNumber.isZero_iff (hp : p.IsNumber) : (p.toFloat == 0) = true ↔ p.value = 0 :=
  hp.keyed.beq_iff keyed_zero

section Doubles

open Float.Model Float.Model.UnpackedFloat

theorem exists_isNumber {x : Float} (hx : x.isNaN = false) :
    ∃ p : Signed, p.IsNumber ∧ p.toFloat = x := by
  obtain ⟨s, e, m, hn, rfl⟩ := exists_decode hx
  have hn' : (decode .positive e m).isNaN = false := (isNaN_decode .positive s e m).trans hn
  have hu : (Float.Model.pack (decode .positive e m)).unpack = decode .positive e m :=
    (keyed_decode hn').unpack_pack
  have hnumber : ∀ negative, IsNumber ⟨negative, .ofModel (.pack (decode .positive e m))⟩ := by
    refine fun negative => ⟨(congrArg UnpackedFloat.isNaN hu).trans hn', ?_⟩
    have hs := toNat_unpackSign (packComponents .binary64 .positive e m)
    rw [unpackSign_packComponents, ← pack_decode hn'] at hs
    exact Nat.lt_of_div_eq_zero (by decide) hs.symm
  cases s with
  | positive => exact ⟨_, hnumber false, rfl⟩
  | negative =>
    refine ⟨_, hnumber true, ?_⟩
    change Float.ofModel (.pack (UnpackedFloat.neg (Float.Model.pack _).unpack)) = _
    rw [hu, neg_decode]

theorem exists_isNumbers {xs : List Float} (hx : ∀ x ∈ xs, x.isNaN = false) :
    ∃ ps : List Signed, ps.map Signed.toFloat = xs ∧ ∀ p ∈ ps, p.IsNumber := by
  induction xs with
  | nil => exact ⟨[], rfl, List.forall_mem_nil _⟩
  | cons x xs ih =>
    obtain ⟨hx, hxs⟩ := List.forall_mem_cons.mp hx
    obtain ⟨p, hp, rfl⟩ := exists_isNumber hx
    obtain ⟨ps, rfl, hps⟩ := ih hxs
    exact ⟨p :: ps, rfl, List.forall_mem_cons.mpr ⟨hp, hps⟩⟩

end Doubles

end Decimal.Signed

namespace Attraction

open Decimal (Signed)

variable {p q d x : Signed} {ps ds xs ys : List Signed}

section Sorting

theorem place_perm (x : Signed) (ys : List Signed) : (place x ys).Perm (x :: ys) := by
  induction ys with
  | nil => exact List.Perm.refl _
  | cons y ys ih =>
    unfold place
    split
    · exact List.Perm.refl _
    · exact (ih.cons y).trans (List.Perm.swap x y ys)

theorem place_pairwise (h : ys.Pairwise (·.rank ≤ ·.rank)) :
    (place x ys).Pairwise (·.rank ≤ ·.rank) := by
  induction ys with
  | nil => exact List.pairwise_singleton _ _
  | cons y ys ih =>
    obtain ⟨hy, hys⟩ := List.pairwise_cons.mp h
    unfold place
    split
    · next hlt =>
      refine List.pairwise_cons.mpr ⟨fun z hz => ?_, h⟩
      rcases List.mem_cons.mp hz with rfl | hz
      · exact hlt.le
      · exact hlt.le.trans (hy z hz)
    · next hnot =>
      refine List.pairwise_cons.mpr ⟨fun z hz => ?_, ih hys⟩
      rcases List.mem_cons.mp ((place_perm x ys).mem_iff.mp hz) with rfl | hz
      · exact Int.not_lt.mp hnot
      · exact hy z hz

theorem foldl_place (xs : List Signed) (hy : ys.Pairwise (·.rank ≤ ·.rank)) :
    (xs.foldl (fun sorted x => place x sorted) ys).Perm (xs ++ ys) ∧
      (xs.foldl (fun sorted x => place x sorted) ys).Pairwise (·.rank ≤ ·.rank) := by
  induction xs generalizing ys with
  | nil => exact ⟨List.Perm.refl _, hy⟩
  | cons x xs ih =>
    obtain ⟨hp, hs⟩ := ih (place_pairwise (x := x) hy)
    exact ⟨hp.trans (((place_perm x ys).append_left xs).trans List.perm_middle), hs⟩

end Sorting

/-- The values of a list in ascending order, each by its first in the order of all doubles. -/
structure Values (ds ps : List Signed) : Prop where
  mem : ∀ d ∈ ds, d ∈ ps
  ascending : ds.Pairwise (·.value < ·.value)
  first : ∀ p ∈ ps, ∃ d ∈ ds, d.value = p.value ∧ d.rank ≤ p.rank

theorem Values.cons (h : Values ds ps) (hx : ∀ d ∈ ds, x.value < d.value) :
    Values (x :: ds) (x :: ps) where
  mem := List.forall_mem_cons.mpr
    ⟨List.mem_cons_self, fun d hd => List.mem_cons_of_mem x (h.mem d hd)⟩
  ascending := List.pairwise_cons.mpr ⟨hx, h.ascending⟩
  first := by
    refine List.forall_mem_cons.mpr ⟨⟨x, List.mem_cons_self, rfl, le_rfl⟩, fun p hp => ?_⟩
    obtain ⟨d, hd, he, hle⟩ := h.first p hp
    exact ⟨d, List.mem_cons_of_mem x hd, he, hle⟩

theorem Values.repeated (h : Values ds (x :: ps)) (hv : p.value = x.value) (hr : x.rank ≤ p.rank) :
    Values ds (x :: p :: ps) where
  mem d hd := ((List.sublist_cons_self p ps).cons_cons x).subset (h.mem d hd)
  ascending := h.ascending
  first := by
    obtain ⟨hx, hps⟩ := List.forall_mem_cons.mp h.first
    obtain ⟨d, hd, he, hle⟩ := hx
    exact List.forall_mem_cons.mpr ⟨⟨d, hd, he, hle⟩,
      List.forall_mem_cons.mpr ⟨⟨d, hd, he.trans hv.symm, hle.trans hr⟩, hps⟩⟩

theorem values_dropRepeats (hs : (x :: xs).Pairwise (·.rank ≤ ·.rank))
    (hn : ∀ p ∈ x :: xs, p.IsNumber) : Values (x :: dropRepeats x xs) (x :: xs) := by
  induction xs generalizing x with
  | nil => exact ⟨fun d hd => hd, List.pairwise_singleton _ _, fun p hp => ⟨p, hp, rfl, le_rfl⟩⟩
  | cons y ys ih =>
    obtain ⟨hx, hys⟩ := List.pairwise_cons.mp hs
    obtain ⟨hnx, hn⟩ := List.forall_mem_cons.mp hn
    obtain ⟨hny, hnys⟩ := List.forall_mem_cons.mp hn
    have hxy := hx y List.mem_cons_self
    unfold dropRepeats
    split
    · next h =>
      have hv := ih (hs.sublist ((List.sublist_cons_self y ys).cons_cons x))
        (List.forall_mem_cons.mpr ⟨hnx, hnys⟩)
      exact hv.repeated ((hny.same_iff hnx).mp h) hxy
    · next h =>
      have hlt : x.value < y.value := lt_of_le_of_ne (Signed.value_le_value hxy) fun he =>
        h ((hny.same_iff hnx).mpr he.symm)
      have hv := ih hys hn
      refine hv.cons (List.forall_mem_cons.mpr ⟨hlt, fun d hd => hlt.trans ?_⟩)
      exact (List.pairwise_cons.mp hv.ascending).1 d hd

theorem Values.of_perm (h : Values ds ps) (hp : ps.Perm xs) : Values ds xs :=
  ⟨fun d hd => hp.mem_iff.mp (h.mem d hd), h.ascending, fun p hm => h.first p (hp.mem_iff.mpr hm)⟩

theorem values_distinct (hn : ∀ p ∈ ps, p.IsNumber) : Values (distinct ps) ps := by
  obtain ⟨hp, hs⟩ := foldl_place ps List.Pairwise.nil
  rw [List.append_nil] at hp
  unfold distinct
  generalize ps.foldl (fun sorted x => place x sorted) [] = sorted at *
  refine Values.of_perm ?_ hp
  cases sorted with
  | nil => exact ⟨fun d hd => hd, List.Pairwise.nil, fun p hp => absurd hp List.not_mem_nil⟩
  | cons x xs => exact values_dropRepeats hs fun p hm => hn p (hp.mem_iff.mp hm)

section Counting

def valuesBelow (xs : List Float) (x : Float) : Nat := (xs.filter fun y => y < x).eraseDups.length

/-- A positive zero is overlooked among priorities with a negative zero. -/
def overlooked (ps : List Signed) (p : Signed) : Bool :=
  !p.negative && p.toFloat == 0 && ps.any fun q => q.negative && q.toFloat == 0

theorem length_eraseDups {α β : Type} [BEq β] {f : α → β} {value : α → Int} {xs : List α}
    (hv : ∀ x ∈ xs, ∀ y ∈ xs, (f x == f y) = true ↔ value x = value y) :
    (xs.map f).eraseDups.length = (xs.map value).toFinset.card := by
  -- What equals the first is taken out before the rest is looked at, so the induction is on length.
  induction hlen : xs.length using Nat.strong_induction_on generalizing xs with
  | _ n ih =>
    cases xs with
    | nil => rfl
    | cons x xs =>
      obtain ⟨rest, hrest⟩ : ∃ rest, rest = xs.filter fun y => !f y == f x := ⟨_, rfl⟩
      have hsub : ∀ y ∈ rest, y ∈ x :: xs := fun y hy =>
        List.mem_cons_of_mem x (List.mem_of_mem_filter (hrest ▸ hy))
      have hlt : rest.length < n := hlen ▸ hrest ▸ Nat.lt_succ_of_le (List.length_filter_le _ xs)
      have hmem : ∀ {y}, y ∈ rest ↔ y ∈ xs ∧ value y ≠ value x := by
        intro y
        rw [hrest, List.mem_filter, Bool.not_eq_true', ← Bool.not_eq_true]
        exact and_congr_right fun hy =>
          not_congr (hv y (List.mem_cons_of_mem x hy) x List.mem_cons_self)
      have heq : ((x :: xs).map value).toFinset = insert (value x) (rest.map value).toFinset := by
        ext v
        simp only [List.mem_toFinset, List.mem_map, Finset.mem_insert, List.mem_cons, hmem]
        constructor
        · rintro ⟨y, rfl | hy, rfl⟩
          · exact .inl rfl
          · by_cases hyx : value y = value x
            · exact .inl hyx
            · exact .inr ⟨y, ⟨hy, hyx⟩, rfl⟩
        · rintro (rfl | ⟨y, ⟨hy, -⟩, rfl⟩)
          · exact ⟨x, .inl rfl, rfl⟩
          · exact ⟨y, .inr hy, rfl⟩
      have hnew : value x ∉ (rest.map value).toFinset := by
        intro hm
        obtain ⟨y, hy, he⟩ := List.mem_map.mp (List.mem_toFinset.mp hm)
        exact (hmem.mp hy).2 he
      have hmap : (xs.map f).filter (fun y => !y == f x) = rest.map f := by
        rw [hrest, List.filter_map]
        rfl
      rw [List.map_cons, List.eraseDups_cons, List.length_cons, hmap,
        ih _ hlt (fun y hy z hz => hv y (hsub y hy) z (hsub z hz)) rfl, heq,
        Finset.card_insert_of_notMem hnew]

def valueSet (ps : List Signed) : Finset Int := (ps.map Signed.value).toFinset

theorem mem_valueSet {v : Int} : v ∈ valueSet ps ↔ ∃ p ∈ ps, p.value = v := by
  rw [valueSet, List.mem_toFinset, List.mem_map]

theorem valuesBelow_eq_card (hn : ∀ p ∈ ps, p.IsNumber) (hp : p.IsNumber) :
    valuesBelow (ps.map Signed.toFloat) p.toFloat = ((valueSet ps).filter (· < p.value)).card := by
  have hmap : (ps.map Signed.toFloat).filter (fun y => y < p.toFloat) =
      (ps.filter fun q => q.toFloat < p.toFloat).map Signed.toFloat := by
    rw [List.filter_map]
    rfl
  rw [valuesBelow, hmap, length_eraseDups fun q hq r hr =>
    (hn q (List.mem_of_mem_filter hq)).same_iff (hn r (List.mem_of_mem_filter hr))]
  congr 1
  ext v
  simp only [List.mem_toFinset, List.mem_map, Finset.mem_filter, mem_valueSet, List.mem_filter,
    decide_eq_true_iff]
  constructor
  · rintro ⟨q, ⟨hq, hlt⟩, rfl⟩
    exact ⟨⟨q, hq, rfl⟩, ((hn q hq).lt_iff hp).mp hlt⟩
  · rintro ⟨⟨q, hq, rfl⟩, hlt⟩
    exact ⟨q, ⟨hq, ((hn q hq).lt_iff hp).mpr hlt⟩, rfl⟩

theorem Values.nodup (h : Values ds ps) : (ds.map Signed.value).Nodup :=
  List.pairwise_map.mpr (h.ascending.imp ne_of_lt)

theorem Values.length_eq_card (h : Values ds ps) {before after : List Signed}
    (hd : ds = before ++ d :: after) :
    before.length = ((valueSet ps).filter (· < d.value)).card := by
  have ha := h.ascending
  rw [hd] at ha
  obtain ⟨hbefore, hafter, hb⟩ := List.pairwise_append.mp ha
  have hset : (before.map Signed.value).toFinset = (valueSet ps).filter (· < d.value) := by
    ext v
    rw [List.mem_toFinset, List.mem_map, Finset.mem_filter, mem_valueSet]
    constructor
    · rintro ⟨b, hm, rfl⟩
      exact ⟨⟨b, h.mem b (hd ▸ List.mem_append_left _ hm), rfl⟩, hb b hm d List.mem_cons_self⟩
    · rintro ⟨⟨p, hp, rfl⟩, hlt⟩
      obtain ⟨b, hm, he, -⟩ := h.first p hp
      rw [hd, List.mem_append, List.mem_cons] at hm
      rcases hm with hm | rfl | hm
      · exact ⟨b, hm, he⟩
      · exact absurd he hlt.ne'
      · have := (List.pairwise_cons.mp hafter).1 b hm
        omega
  have hnodup : (before.map Signed.value).Nodup := List.pairwise_map.mpr (hbefore.imp ne_of_lt)
  rw [← hset, List.toFinset_card_of_nodup hnodup, List.length_map]

/-- The first priority of a value has the rank of another one unless that one is overlooked. -/
theorem Values.rank_eq_iff (h : Values ds ps) (hn : ∀ p ∈ ps, p.IsNumber) (hd : d ∈ ds)
    (hp : p ∈ ps) (he : d.value = p.value) (hle : d.rank ≤ p.rank) :
    d.rank = p.rank ↔ overlooked ps p = false := by
  have hlt := Signed.rank_lt_iff_of_value_eq he
  have hzero := fun q hq => (hn q hq).isZero_iff
  have hover : overlooked ps p = true ↔ d.rank < p.rank := by
    simp only [overlooked, Bool.and_eq_true, Bool.not_eq_true', List.any_eq_true]
    constructor
    · rintro ⟨⟨hs, hz⟩, q, hq, hqs, hqz⟩
      have hp0 := (hzero p hp).mp hz
      have hqp : q.value = p.value := ((hzero q hq).mp hqz).trans hp0.symm
      -- the negative zero is not before the first of its value, which is also that of `p`
      obtain ⟨c, hc, hcq, hrank⟩ := h.first q hq
      obtain rfl : c = d := List.inj_on_of_nodup_map h.nodup hc hd (hcq.trans (hqp.trans he.symm))
      exact hrank.trans_lt ((Signed.rank_lt_iff_of_value_eq hqp).mpr ⟨hqs, hs, hp0⟩)
    · intro hrank
      obtain ⟨hds, hs, h0⟩ := hlt.mp hrank
      refine ⟨⟨hs, (hzero p hp).mpr h0⟩, d, h.mem d hd, hds, ?_⟩
      exact (hzero d (h.mem d hd)).mpr (he.trans h0)
  rw [← Bool.not_eq_true, hover]
  omega

theorem Values.indexAmong_eq (h : Values ds ps) (hn : ∀ p ∈ ps, p.IsNumber) (hp : p ∈ ps) :
    indexAmong ds p =
      if overlooked ps p then 0 else valuesBelow (ps.map Signed.toFloat) p.toFloat := by
  obtain ⟨d, hd, he, hle⟩ := h.first p hp
  have hrank := h.rank_eq_iff hn hd hp he hle
  obtain ⟨before, after, hsplit⟩ := List.append_of_mem hd
  have hlength := h.length_eq_card hsplit
  have ha := h.ascending
  rw [hsplit] at ha
  obtain ⟨-, hafter, hb⟩ := List.pairwise_append.mp ha
  have hbefore : ∀ b ∈ before, decide (b.rank ≤ p.rank) = true := fun b hm =>
    decide_eq_true (((Signed.rank_lt_rank (hb b hm d List.mem_cons_self)).le).trans hle)
  have htail : after.takeWhile (fun x => x.rank ≤ p.rank) = [] := by
    cases after with
    | nil => rfl
    | cons b bs =>
      have hlt := (List.pairwise_cons.mp hafter).1 b List.mem_cons_self
      have hnot := (Signed.rank_lt_rank (he ▸ hlt)).not_ge
      exact List.takeWhile_cons_of_neg (by simpa using hnot)
  have hupTo : ds.takeWhile (fun x => x.rank ≤ p.rank) = before ++ [d] := by
    rw [hsplit, List.takeWhile_append_of_pos hbefore, List.takeWhile_cons,
      if_pos (by simpa using hle), htail]
  unfold indexAmong
  rw [hupTo]
  dsimp only
  rw [List.getLast?_concat]
  dsimp only
  rw [valuesBelow_eq_card hn (hn p hp), ← he, ← hlength, List.length_append, List.length_singleton,
    Nat.add_sub_cancel]
  by_cases ho : overlooked ps p = true
  · rw [if_pos ho, if_neg fun hr => by simp [hrank.mp hr] at ho]
  · rw [if_neg ho, if_pos (hrank.mpr (Bool.not_eq_true _ ▸ ho))]

section Order

variable (hn : ∀ p ∈ ps, p.IsNumber) (hp : p ∈ ps) (hq : q ∈ ps)

include hn hp hq in
theorem valuesBelow_congr (h : (p.toFloat == q.toFloat) = true) :
    valuesBelow (ps.map Signed.toFloat) p.toFloat =
      valuesBelow (ps.map Signed.toFloat) q.toFloat := by
  rw [valuesBelow_eq_card hn (hn p hp), valuesBelow_eq_card hn (hn q hq),
    ((hn p hp).same_iff (hn q hq)).mp h]

include hn hp hq in
theorem valuesBelow_lt (h : p.toFloat < q.toFloat) :
    valuesBelow (ps.map Signed.toFloat) p.toFloat <
      valuesBelow (ps.map Signed.toFloat) q.toFloat := by
  have hlt := ((hn p hp).lt_iff (hn q hq)).mp h
  rw [valuesBelow_eq_card hn (hn p hp), valuesBelow_eq_card hn (hn q hq)]
  have hsub : (valueSet ps).filter (· < p.value) ⊆ (valueSet ps).filter (· < q.value) :=
    Finset.monotone_filter_right _ fun v _ hv => hv.trans hlt
  have hmem : p.value ∈ (valueSet ps).filter (· < q.value) :=
    Finset.mem_filter.mpr ⟨mem_valueSet.mpr ⟨p, hp, rfl⟩, hlt⟩
  refine Finset.card_lt_card ((Finset.ssubset_iff_of_subset hsub).mpr ⟨p.value, hmem, fun hv => ?_⟩)
  exact lt_irrefl _ (Finset.mem_filter.mp hv).2

include hn hp in
theorem valuesBelow_eq_zero : valuesBelow (ps.map Signed.toFloat) p.toFloat = 0 ↔
    ∀ q ∈ ps, ¬ q.toFloat < p.toFloat := by
  rw [valuesBelow_eq_card hn (hn p hp), Finset.card_eq_zero, Finset.filter_eq_empty_iff]
  constructor
  · intro h q hq hlt
    exact h (mem_valueSet.mpr ⟨q, hq, rfl⟩) (((hn q hq).lt_iff (hn p hp)).mp hlt)
  · intro h v hv hlt
    obtain ⟨q, hq, rfl⟩ := mem_valueSet.mp hv
    exact h q hq (((hn q hq).lt_iff (hn p hp)).mpr hlt)

include hn hp in
theorem Values.valuesBelow_eq_zero (h : Values ds ps) (hl : ds.length ≤ 1) :
    valuesBelow (ps.map Signed.toFloat) p.toFloat = 0 := by
  obtain ⟨d, hd, he, -⟩ := h.first p hp
  obtain ⟨before, after, hsplit⟩ := List.append_of_mem hd
  rw [valuesBelow_eq_card hn (hn p hp), ← he, ← h.length_eq_card hsplit]
  rw [hsplit, List.length_append, List.length_cons] at hl
  omega

end Order

end Counting

end Attraction

end Liveness
