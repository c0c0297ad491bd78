import Mathlib.Data.Finset.Card
import Mathlib.Order.Interval.Finset.Nat
import Liveness.Proofs.Schedule.Settled
import Liveness.Proofs.Schedule.Undisturbed

/-! # Schedules with little room

When no single Op has room for more than one place, every Op is held by constraints with
its neighbours on both sides. So an Op that was undisturbed since a search for it found
nothing still has the same Ops before it, and the search would again find nothing.
-/

namespace Liveness

/-- A number keeps its place under an injective map that keeps what is below it below and
what is above it above. -/
theorem apply_eq_self {f : Nat → Nat} {n q : Nat} (hq : q < n)
    (hinj : ∀ i < n, ∀ j < n, f i = f j → i = j) (hlt : ∀ i < n, f i < n)
    (hbelow : ∀ i < q, f i < f q) (habove : ∀ j, q < j → j < n → f q < f j) : f q = q := by
  -- what is below has different images below, so there must be room for them; so it is above
  have hlow : q ≤ f q := by
    have hcard := Finset.card_le_card_of_injOn (s := Finset.range q) (t := Finset.range (f q)) f
      (fun i hi => by simpa using hbelow i (by simpa using hi))
      fun i hi j hj he => hinj i (by simp at hi; omega) j (by simp at hj; omega) he
    simpa using hcard
  have hhigh : n - (q + 1) ≤ n - (f q + 1) := by
    have hcard := Finset.card_le_card_of_injOn (s := Finset.Ico (q + 1) n)
      (t := Finset.Ico (f q + 1) n) f
      (fun j hj => by
        simp only [Finset.coe_Ico, Set.mem_Ico] at hj ⊢
        exact ⟨habove j (by omega) hj.2, hlt j hj.2⟩)
      fun i hi j hj he => by
        simp only [Finset.coe_Ico, Set.mem_Ico] at hi hj
        exact hinj i hi.2 j hj.2 he
    simpa using hcard
  have := hlt q hq
  omega

namespace Schedule

variable {W : Type} {s t : Schedule W} {g : Graph W} {a b c n p q u v x z : Nat}

/-- No window of size `n` has room for more than `n` places. -/
def Cramped (s : Schedule W) (n : Nat) : Prop :=
  ∀ i, i + n ≤ s.opCount → s.roomAheadAt n i ≤ n ∧ s.roomBackAt n i ≤ n

variable [Weight W]

section Cramped

variable (h : s.Cramped 1) (hs : s.Coherent)

include h hs

theorem Cramped.blocks (hab : a < b) (hbc : b < c) (hc : c ≤ s.opCount)
    (hi : s.Independent a b c) : b - a = 1 ∧ c - b = 1 := by
  have hahead : c - b ≤ s.roomAheadAt 1 (b - 1) := by
    rw [hs.le_roomAheadAt_iff_independent (by omega), show b - 1 + 1 = b by omega,
      show b + (c - b) = c by omega]
    exact ⟨hc, fun x y hxy hx => hi hxy (by omega)⟩
  have hback : b - a ≤ s.roomBackAt 1 b := by
    rw [hs.le_roomBackAt_iff_independent (by omega), show b - (b - a) = a by omega]
    refine ⟨by omega, fun x y hxy hx hx' hy => ?_⟩
    have := hi hxy hx hx' hy
    omega
  have := (h (b - 1) (by omega)).1
  have := (h b (by omega)).2
  omega

theorem Cramped.exists_after (hp : p + 2 < s.opCount) :
    ∃ x y, y ∈ (s.graph.op x).outs ∧ s.placeOf x = p ∧ p < s.placeOf y ∧ s.placeOf y ≤ p + 2 := by
  have hroom := (h p (by omega)).1
  have hw : p + 1 ≤ s.opCount := by omega
  have hk : ¬ 2 ≤ s.roomAheadAt 1 p := by omega
  rw [hs.le_roomAheadAt_iff_independent hw] at hk
  simp only [Independent, not_and, not_forall, Nat.not_le] at hk
  obtain ⟨x, y, hxy, hx, hx', hy, hy'⟩ := hk (by omega)
  exact ⟨x, y, hxy, by omega, by omega, by omega⟩

theorem Cramped.exists_before (hp : p + 2 < s.opCount) :
    ∃ x y, y ∈ (s.graph.op x).outs ∧ p ≤ s.placeOf x ∧ s.placeOf x < p + 2 ∧
      s.placeOf y = p + 2 := by
  have hroom := (h (p + 2) (by omega)).2
  have hw : p + 2 + 1 ≤ s.opCount := by omega
  have hk : ¬ 2 ≤ s.roomBackAt 1 (p + 2) := by omega
  rw [hs.le_roomBackAt_iff_independent hw] at hk
  simp only [Independent, not_and, not_forall, Nat.not_le] at hk
  obtain ⟨x, y, hxy, hx, hx', hy, hy'⟩ := hk (by omega)
  exact ⟨x, y, hxy, by omega, by omega, by omega⟩

/-- What holds of an Op before a place when it holds of the Ops there that come after it holds
of all Ops before the place. -/
theorem Cramped.induction_below {P : Nat → Prop} (hq : q + 1 < s.opCount)
    (hstep : ∀ {z y}, y ∈ (s.graph.op z).outs → s.placeOf z < q → s.placeOf y ≤ s.placeOf z + 2 →
      (s.placeOf y < q → P y) → P z) (hz : z < s.opCount) (hzq : s.placeOf z < q) : P z := by
  induction hk : q - s.placeOf z using Nat.strong_induction_on generalizing z with
  | _ k ih =>
    obtain ⟨x, y, hxy, hx, hy, hy'⟩ := h.exists_after hs (p := s.placeOf z) (by omega)
    obtain rfl := hs.placeOf_inj (Graph.lt_of_mem_outs hxy) hz hx
    exact hstep hxy hzq hy' fun hyq =>
      ih (q - s.placeOf y) (by omega) (hs.wellFormed.outs_lt hxy) hyq rfl

theorem Cramped.induction_above {P : Nat → Prop} (hq : 0 < q)
    (hstep : ∀ {y z}, z ∈ (s.graph.op y).outs → q < s.placeOf z → s.placeOf z ≤ s.placeOf y + 2 →
      (q < s.placeOf y → P y) → P z) (hz : z < s.opCount) (hzq : q < s.placeOf z) : P z := by
  induction hk : s.placeOf z using Nat.strong_induction_on generalizing z with
  | _ k ih =>
    have hlt := hs.placeOf_lt hz
    obtain ⟨y, x, hyx, hy, hy', hx⟩ := h.exists_before hs (p := s.placeOf z - 2) (by omega)
    obtain rfl := hs.placeOf_inj (hs.wellFormed.outs_lt hyx) hz (by omega)
    exact hstep hyx hzq (by omega) fun hyq =>
      ih (s.placeOf y) (by omega) (Graph.lt_of_mem_outs hyx) hyq rfl

end Cramped

section Neighbours

structure SameAround (s t : Schedule W) (q : Nat) : Prop where
  below : ∀ {z}, z < t.opCount → (s.placeOf z < q ↔ t.placeOf z < q)
  first : ∀ {z}, z < t.opCount → (s.placeOf z = q ↔ t.placeOf z = q)
  second : ∀ {z}, z < t.opCount → (s.placeOf z = q + 1 ↔ t.placeOf z = q + 1)
  above : ∀ {z}, z < t.opCount → (q + 1 < s.placeOf z ↔ q + 1 < t.placeOf z)

variable (hs : s.Coherent) (ht : t.Coherent) (hg : s.graph = t.graph)

include hs ht hg

/-- An Op is at the same place in both schedules when what is before it in one is before it in the
other, and what is behind it is behind it. -/
theorem Coherent.placeOf_eq_of_around (hu : u < t.opCount)
    (hbelow : ∀ z < t.opCount, t.placeOf z < t.placeOf u → s.placeOf z < s.placeOf u)
    (habove : ∀ z < t.opCount, t.placeOf u < t.placeOf z → s.placeOf u < s.placeOf z) :
    s.placeOf u = t.placeOf u := by
  have hc : s.opCount = t.opCount := congrArg Graph.opCount hg
  have hinj : ∀ i < t.opCount, ∀ j < t.opCount, s.placeOf (t.opAt i) = s.placeOf (t.opAt j) →
      i = j := by
    intro i hi j hj he
    exact ht.opAt_inj hi hj (hs.placeOf_inj (hc ▸ ht.opAt_lt hi) (hc ▸ ht.opAt_lt hj) he)
  have hlt : ∀ i < t.opCount, s.placeOf (t.opAt i) < t.opCount := fun i hi =>
    hc ▸ hs.placeOf_lt (hc ▸ ht.opAt_lt hi)
  have h := apply_eq_self (f := fun i => s.placeOf (t.opAt i)) (ht.placeOf_lt hu) hinj hlt
  simp only [ht.opAt_placeOf hu] at h
  refine h (fun i hi => ?_) fun j hj hj' => ?_
  · have hi' := hi.trans (ht.placeOf_lt hu)
    exact hbelow _ (ht.opAt_lt hi') ((ht.placeOf_opAt hi').symm ▸ hi)
  · exact habove _ (ht.opAt_lt hj') ((ht.placeOf_opAt hj').symm ▸ hj)

/-- The same Ops before the first neighbour, and the same Ops behind the second one, put
both at the same places. -/
theorem Coherent.sameAround (hu : u < t.opCount) (hv : v < t.opCount)
    (hut : t.placeOf u = q) (hvt : t.placeOf v = q + 1)
    (hbelow : ∀ z < t.opCount, t.placeOf z < q → s.placeOf z < s.placeOf u)
    (huv : s.placeOf u < s.placeOf v)
    (habove : ∀ z < t.opCount, q + 1 < t.placeOf z → s.placeOf v < s.placeOf z) :
    SameAround s t q := by
  have hsu : s.placeOf u = q := by
    refine (hs.placeOf_eq_of_around ht hg hu (hut ▸ hbelow) fun z hz hzq => ?_).trans hut
    rw [hut] at hzq
    rcases Nat.lt_or_eq_of_le (Nat.succ_le_of_lt hzq) with hzq | hzq
    · exact huv.trans (habove z hz hzq)
    · rwa [ht.placeOf_inj hz hv (hzq.symm.trans hvt.symm)]
  have hsv : s.placeOf v = q + 1 := by
    refine (hs.placeOf_eq_of_around ht hg hv (fun z hz hzq => ?_) (hvt ▸ habove)).trans hvt
    rw [hvt] at hzq
    rcases Nat.lt_or_eq_of_le (Nat.le_of_lt_succ hzq) with hzq | hzq
    · exact (hbelow z hz hzq).trans huv
    · rwa [ht.placeOf_inj hz hu (hzq.trans hut.symm)]
  have hone : ∀ z < t.opCount, (t.placeOf z < q → s.placeOf z < q) ∧
      (t.placeOf z = q → s.placeOf z = q) ∧ (t.placeOf z = q + 1 → s.placeOf z = q + 1) ∧
      (q + 1 < t.placeOf z → q + 1 < s.placeOf z) := by
    intro z hz
    refine ⟨fun h => hsu ▸ hbelow z hz h, fun h => ?_, fun h => ?_, fun h => hsv ▸ habove z hz h⟩
    · rw [ht.placeOf_inj hz hu (h.trans hut.symm), hsu]
    · rw [ht.placeOf_inj hz hv (h.trans hvt.symm), hsv]
  constructor
  all_goals
    intro z hz
    have := hone z hz
    omega

section Undisturbed

variable (hl : s.Legal) (hcr : t.Cramped 1) (hu : u < t.opCount) (hv : v < t.opCount)
  (hut : t.placeOf u = q) (hvt : t.placeOf v = q + 1) (hi : t.Independent q (q + 1) (q + 2))

include hl hcr hu hv hut hvt hi

/-- Independent neighbours with an Op behind them that the first one has to be before. -/
theorem Cramped.sameAround_of_first (hq : q + 2 < t.opCount)
    (hun : Undisturbed t.graph s t u) : SameAround s t q := by
  obtain ⟨x, w, huw, hx, hw, hw'⟩ := hcr.exists_after ht hq
  obtain rfl := ht.placeOf_inj (Graph.lt_of_mem_outs huw) hu (hx.trans hut.symm)
  have hwlt := ht.wellFormed.outs_lt huw
  have hwq := hi huw (by omega) (by omega) (by omega)
  have hnear : t.graph.Near x w := .inr (.inr huw)
  -- the second Op is between two that are near the first one, and so stayed between them
  have hxv : s.placeOf x < s.placeOf v ∧ s.placeOf v < s.placeOf w := by
    rcases hun v hv with h | ⟨-, h | h⟩
    · exact ⟨(h x (.inl rfl)).2.mpr (by omega), (h w hnear).1.mpr (by omega)⟩
    · have := h x (.inl rfl)
      omega
    · have := h w hnear
      omega
  refine hs.sameAround ht hg hu hv hut hvt (fun z hz hzq => ?_) hxv.1
    fun z hz hzq => ?_
  · refine hcr.induction_below ht (P := fun z => s.placeOf z < s.placeOf x) (by omega)
      (fun {z y} hzy hzq hy ih => ?_) hz hzq
    have hylt := ht.wellFormed.outs_lt hzy
    have hsy : s.placeOf z < s.placeOf y := hl.before (hg ▸ hzy)
    rcases Nat.lt_trichotomy (t.placeOf y) q with hyq | hyq | hyq
    · exact Nat.lt_trans hsy (ih hyq)
    · exact ht.placeOf_inj hylt hu (hyq.trans hut.symm) ▸ hsy
    · obtain rfl := ht.placeOf_inj hylt hv (by omega)
      rcases hun z (Graph.lt_of_mem_outs hzy) with h | ⟨h | h, -⟩
      · exact (h x (.inl rfl)).1.mpr (by omega)
      · exact h x (.inl rfl)
      · have := h w hnear
        omega
  · refine hcr.induction_above ht (P := fun z => s.placeOf v < s.placeOf z) (Nat.succ_pos q)
      (fun {y z} hyz hzq hy ih => ?_) hz hzq
    have hylt := Graph.lt_of_mem_outs hyz
    have hsy : s.placeOf y < s.placeOf z := hl.before (hg ▸ hyz)
    rcases Nat.lt_trichotomy (t.placeOf y) (q + 1) with hyq | hyq | hyq
    · exact ht.placeOf_inj (ht.wellFormed.outs_lt hyz) hwlt (by omega) ▸ hxv.2
    · exact ht.placeOf_inj hylt hv (hyq.trans hvt.symm) ▸ hsy
    · exact Nat.lt_trans (ih hyq) hsy

theorem Cramped.sameAround_of_second (hq : q + 2 = t.opCount) (hq0 : 0 < q)
    (hun : Undisturbed t.graph s t v) : SameAround s t q := by
  obtain ⟨w, x, hwx, hw, hw', hx⟩ := hcr.exists_before ht (p := q - 1) (by omega)
  obtain rfl := ht.placeOf_inj (ht.wellFormed.outs_lt hwx) hv (by omega)
  have hwlt := Graph.lt_of_mem_outs hwx
  have hwq : t.placeOf w ≠ q := fun he => by
    have := hi hwx (by omega) (by omega) (by omega)
    omega
  have hnear : t.graph.Near x w := .inr (.inl (ht.wellFormed.mem_ins.mpr hwx))
  have hwu : s.placeOf w < s.placeOf u ∧ s.placeOf u < s.placeOf x := by
    rcases hun u hu with h | ⟨-, h | h⟩
    · exact ⟨(h w hnear).2.mpr (by omega), (h x (.inl rfl)).1.mpr (by omega)⟩
    · have := h w hnear
      omega
    · have := h x (.inl rfl)
      omega
  refine hs.sameAround ht hg hu hv hut hvt (fun z hz hzq => ?_) hwu.2
    fun z hz hzq => ?_
  · refine hcr.induction_below ht (P := fun z => s.placeOf z < s.placeOf u) (by omega)
      (fun {z y} hzy hzq hy ih => ?_) hz hzq
    have hylt := ht.wellFormed.outs_lt hzy
    have hsy : s.placeOf z < s.placeOf y := hl.before (hg ▸ hzy)
    by_cases hzw : t.placeOf z + 1 = q
    · exact ht.placeOf_inj (Graph.lt_of_mem_outs hzy) hwlt (by omega) ▸ hwu.1
    · rcases Nat.lt_or_eq_of_le (show t.placeOf y ≤ q by omega) with hyq | hyq
      · exact Nat.lt_trans hsy (ih hyq)
      · exact ht.placeOf_inj hylt hu (hyq.trans hut.symm) ▸ hsy
  · have := ht.placeOf_lt hz
    omega

end Undisturbed

end Neighbours

end Schedule

end Liveness
