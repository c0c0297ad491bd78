import Liveness.Proofs.Schedule.Pull

/-! # Sweeps price every destination

At each step of a sweep the price is the sum of what all Allocs add to the total
liveness, and the growth is the sum of what the next step adds. What the sweep knows of
an Alloc that it has not touched is right, as nothing changes for such an Alloc.
-/

namespace Liveness

namespace Scratch

variable {W : Type} {c : Scratch W} {n r : Nat} {rs : List Nat} {f : Nat → Ripple W}

structure Tidy (c : Scratch W) (n : Nat) : Prop where
  size : c.ripples.size = n
  listed : ∀ {r}, c.find? r ≠ none → r ∈ c.touched

theorem find?_clean : (clean n : Scratch W).find? r = none := by
  simp only [clean, find?, Array.getD_eq_getD_getElem?, Array.getElem?_replicate]
  split <;> rfl

theorem clean_tidy : (clean n : Scratch W).Tidy n :=
  ⟨by simp [clean], fun h => absurd find?_clean h⟩

theorem find?_enter {ripple : Ripple W} {r' : Nat} (hr : r < c.ripples.size) :
    (c.enter r ripple).find? r' = if r' = r then some ripple else c.find? r' := by
  simp only [enter, find?, Array.getD_eq_getD_getElem?, Array.getElem?_setIfInBounds]
  grind

theorem Tidy.enter (h : c.Tidy n) (hr : r < n) (ripple : Ripple W) : (c.enter r ripple).Tidy n := by
  refine ⟨by simp [Scratch.enter, h.size], fun {r'} hf => ?_⟩
  rw [find?_enter (h.size.symm ▸ hr)] at hf
  have hl : r' = r ∨ r' ∈ c.touched := by
    split at hf
    · next he => exact .inl he
    · exact .inr (h.listed hf)
  unfold Scratch.enter
  dsimp only
  split
  · exact List.mem_cons.mpr hl
  · next hs =>
    rcases hl with rfl | hl
    · exact h.listed fun hn => hs (by rw [hn]; rfl)
    · exact hl

theorem Tidy.clear_eq (h : c.Tidy n) : c.clear = clean n := by
  refine congrArg (Scratch.mk · []) ?_
  refine Writes.writeAll_eq_of_forall (f := fun _ => none) (by simpa using h.size)
    (fun r hr => Array.getElem_replicate hr) fun r hr hn => ?_
  have hf : c.find? r = none := Classical.byContradiction fun hf => hn (h.listed hf)
  rwa [find?, Array.getD, dif_pos hr] at hf

def enterAll (c : Scratch W) (f : Nat → Ripple W) (rs : List Nat) : Scratch W :=
  rs.foldl (fun c r => c.enter r (f r)) c

theorem Tidy.enterAll (h : c.Tidy n) (hrs : ∀ r ∈ rs, r < n) : (c.enterAll f rs).Tidy n := by
  induction rs generalizing c with
  | nil => exact h
  | cons r rs ih =>
    exact ih (h.enter (hrs r List.mem_cons_self) (f r)) fun r hr => hrs r (List.mem_cons_of_mem _ hr)

theorem find?_enterAll (h : c.Tidy n) (hrs : ∀ r ∈ rs, r < n) :
    (c.enterAll f rs).find? r = if r ∈ rs then some (f r) else c.find? r := by
  induction rs generalizing c with
  | nil => simp [enterAll]
  | cons r' rs ih =>
    have hr' := hrs r' List.mem_cons_self
    refine (ih (h.enter hr' (f r')) fun r hr => hrs r (List.mem_cons_of_mem _ hr)).trans ?_
    rw [find?_enter (h.size.symm ▸ hr')]
    grind

section Value

variable [Weight W] [ExactWeight W]

/-- What the ripple of an Alloc has come to at a step. -/
def spent (c : Scratch W) (k r : Nat) : W :=
  match c.find? r with
  | none => 0
  | some ripple => ripple.price + ((k : Int) - ripple.step) • ripple.growth

def rate (c : Scratch W) (r : Nat) : W :=
  match c.find? r with
  | none => 0
  | some ripple => ripple.growth

theorem spent_succ (c : Scratch W) (k r : Nat) : c.spent (k + 1) r = c.spent k r + c.rate r := by
  unfold spent rate
  split
  · rw [add_zero]
  · push_cast
    module

theorem spent_clean (k : Nat) : (clean n : Scratch W).spent k r = 0 := by
  rw [spent, find?_clean]

omit [ExactWeight W] in
theorem rate_clean : (clean n : Scratch W).rate r = 0 := by
  rw [rate, find?_clean]

theorem spent_enterAll {k : Nat} (h : c.Tidy n) (hrs : ∀ r ∈ rs, r < n)
    (hf : ∀ r, (f r).step = k) :
    (c.enterAll f rs).spent k r = if r ∈ rs then (f r).price else c.spent k r := by
  rw [spent, find?_enterAll h hrs]
  split_ifs with hr
  · simp [hf]
  · rfl

omit [ExactWeight W] in
theorem rate_enterAll (h : c.Tidy n) (hrs : ∀ r ∈ rs, r < n) :
    (c.enterAll f rs).rate r = if r ∈ rs then (f r).growth else c.rate r := by
  rw [rate, find?_enterAll h hrs]
  split_ifs with hr
  · rfl
  · rfl

end Value

end Scratch

section Folds

variable {W : Type} [Weight W] [ExactWeight W] {s : Schedule W} {w : Wave W} {k : Nat}
  {rs : List Nat}

theorem Schedule.settleRipple_eq (w : Wave W) (k r : Nat) :
    Schedule.settleRipple (k + 1) w r =
      ⟨w.scratch, w.price - w.scratch.spent k r, w.growth - w.scratch.rate r⟩ := by
  unfold settleRipple Scratch.spent Scratch.rate
  cases w.scratch.find? r with
  | none => rw [sub_zero, sub_zero]
  | some ripple =>
    dsimp only
    rw [ExactWeight.scale_eq_smul]
    congr 1
    push_cast
    module

theorem Schedule.foldl_settleRipple (w : Wave W) (k : Nat) (rs : List Nat) :
    rs.foldl (Schedule.settleRipple (k + 1)) w = ⟨w.scratch,
      w.price - (rs.map (w.scratch.spent k)).sum, w.growth - (rs.map w.scratch.rate).sum⟩ := by
  induction rs generalizing w with
  | nil => simp
  | cons r rs ih =>
    rw [List.foldl_cons, ih, settleRipple_eq]
    simp only [List.map_cons, List.sum_cons]
    congr 1
    · abel
    · abel

def Wave.enter (f : Nat → Ripple W) (w : Wave W) (r : Nat) : Wave W :=
  ⟨w.scratch.enter r (f r), w.price + (f r).price, w.growth + (f r).growth⟩

theorem Wave.foldl_enter (f : Nat → Ripple W) (w : Wave W) (rs : List Nat) :
    rs.foldl (Wave.enter f) w = ⟨w.scratch.enterAll f rs,
      w.price + (rs.map fun r => (f r).price).sum,
      w.growth + (rs.map fun r => (f r).growth).sum⟩ := by
  induction rs generalizing w with
  | nil => simp [Scratch.enterAll]
  | cons r rs ih =>
    rw [List.foldl_cons, ih]
    simp only [List.map_cons, List.sum_cons, Wave.enter, Scratch.enterAll, List.foldl_cons]
    congr 1
    · abel
    · abel

theorem sum_map_eq (f : Nat → W) {n : Nat} (hd : rs.Nodup) (hrs : ∀ r ∈ rs, r < n) :
    (rs.map f).sum = ∑ r ∈ Finset.range n, if r ∈ rs then f r else 0 := by
  rw [← List.sum_toFinset f hd, ← Finset.sum_filter]
  refine Finset.sum_congr (Finset.ext fun r => ?_) fun _ _ => rfl
  simp only [List.mem_toFinset, Finset.mem_filter, Finset.mem_range]
  exact ⟨fun h => ⟨hrs r h, h⟩, fun h => h.2⟩

end Folds

namespace Schedule

variable {W : Type} [Weight W] {s : Schedule W} {start n k r i : Nat} {direction : Direction}
  {w : Wave W}

def Reach (s : Schedule W) (start n : Nat) (direction : Direction) (k : Nat) : Prop :=
  start + n ≤ s.opCount ∧ match direction with
    | .backward => k ≤ start
    | .forward => start + n + k ≤ s.opCount

omit [Weight W] in
theorem Reach.of_le {j : Nat} (h : s.Reach start n direction k) (hj : j ≤ k) :
    s.Reach start n direction j := by
  refine ⟨h.1, ?_⟩
  have := h.2
  cases direction with
  | backward => exact Nat.le_trans hj this
  | forward =>
    dsimp only at this ⊢
    omega

omit [Weight W] in
/-- The blocks that change places when the window moves that far. -/
theorem Reach.bounds (hr : s.Reach start n direction k) (hk : 0 < k) :
    ∃ a b c, (⟨start, targetOf start direction k, n⟩ : Move).bounds = (a, b, c) ∧
      a ≤ b ∧ b ≤ c ∧ c ≤ s.opCount ∧
      ∀ ps, sweepGrowth start n direction k ps = spanGrowth a b c ps := by
  have hw := hr.1
  have hin := hr.2
  cases direction with
  | backward =>
    dsimp only at hin
    have hb : (⟨start, start - k, n⟩ : Move).bounds = (start - k, start, start + n) :=
      Move.bounds_backward (by dsimp only; omega)
    exact ⟨_, _, _, hb, by omega, by omega, hw, fun _ => rfl⟩
  | forward =>
    dsimp only at hin
    have hb : (⟨start, start + k, n⟩ : Move).bounds = (start, start + n, start + n + k) := by
      rw [Move.bounds_forward (Nat.le_add_right ..)]
      dsimp only
      rw [Nat.add_right_comm]
    exact ⟨_, _, _, hb, by omega, by omega, hin, fun _ => rfl⟩

theorem Coherent.mem_allocsAt (h : s.Coherent) (hi : i < s.opCount) :
    r ∈ s.allocsAt i ↔ i ∈ s.placesOfAlloc r := by
  rw [h.allocsAt_eq hi, h.mem_placesOfAlloc, h.wellFormed.mem_allocs]
  constructor
  · intro ho
    exact ⟨_, ho, h.placeOf_opAt hi⟩
  · rintro ⟨a, ha, rfl⟩
    rwa [h.opAt_placeOf (h.wellFormed.ops_lt ha)]

theorem Coherent.mem_allocsBetween (h : s.Coherent) (hw : start + n ≤ s.opCount) :
    r ∈ s.allocsBetween start (start + n) ↔
      ∃ p ∈ s.placesOfAlloc r, start ≤ p ∧ p < start + n := by
  rw [Schedule.mem_allocsBetween]
  constructor
  · rintro ⟨i, hi, hr⟩
    exact ⟨i, (h.mem_allocsAt (by omega)).mp hr, hi⟩
  · rintro ⟨p, hp, hi⟩
    exact ⟨p, hi, (h.mem_allocsAt (by omega)).mpr hp⟩

theorem Coherent.lt_of_mem_allocsBetween (h : s.Coherent) (hw : start + n ≤ s.opCount)
    (hr : r ∈ s.allocsBetween start (start + n)) : r < s.allocCount := by
  obtain ⟨i, hi, hr⟩ := Schedule.mem_allocsBetween.mp hr
  rw [h.allocsAt_eq (by omega)] at hr
  exact h.wellFormed.lt_of_mem_allocs hr

variable [ExactWeight W]

def change (s : Schedule W) (start n : Nat) (direction : Direction) (k r : Nat) : W :=
  sweepGrowth start n direction k (s.placesOfAlloc r) • (s.graph.alloc r).weight

/-- What the next step adds by an Alloc that no Op jumped over needs. -/
def nextChange (s : Schedule W) (start n : Nat) (direction : Direction) (k r : Nat) : W :=
  pull start n direction k (s.placesOfAlloc r) • (s.graph.alloc r).weight

/-- What a sweep knows after a number of steps is right. -/
structure Swept (s : Schedule W) (start n : Nat) (direction : Direction) (k : Nat)
    (w : Wave W) : Prop where
  tidy : w.scratch.Tidy s.allocCount
  spent : ∀ r, w.scratch.spent k r = s.change start n direction k r
  rate : ∀ r, w.scratch.rate r = s.nextChange start n direction k r
  price : w.price = ∑ r ∈ Finset.range s.allocCount, s.change start n direction k r
  growth : w.growth = ∑ r ∈ Finset.range s.allocCount, s.nextChange start n direction k r

def jumpRipple (s : Schedule W) (start n : Nat) (direction : Direction) (k r : Nat) : Ripple W :=
  ⟨k, s.change start n direction k r, s.nextChange start n direction k r⟩

omit [Weight W] [ExactWeight W] in
theorem find?_window {ps : List Nat} (hs : ps.Pairwise (· ≤ ·)) (start n : Nat) :
    (match ps.find? fun p => start ≤ p with
      | some p => decide (p - start < n)
      | none => false) = ps.any fun p => start ≤ p && p < start + n := by
  rw [Bool.eq_iff_iff, List.any_eq_true]
  split
  · next p hp =>
    obtain ⟨hm, hle, hmin⟩ := Ascending.find?_le hs hp
    constructor
    · intro hlt
      refine ⟨p, hm, ?_⟩
      grind
    · rintro ⟨q, hq, hw⟩
      have := hmin q hq
      grind
  · next hn =>
    refine iff_of_false Bool.false_ne_true ?_
    rintro ⟨q, hq, hw⟩
    have := List.find?_eq_none.mp hn q hq
    grind

theorem Coherent.enterJumped_eq (h : s.Coherent) (hr : s.Reach start n direction (k + 1))
    (hm : jumpedPlace start n direction (k + 1) ∈ s.placesOfAlloc r) (w : Wave W) :
    s.enterJumped start n (targetOf start direction (k + 1))
      (jumpedPlace start n direction (k + 1)) direction (k + 1) w r =
      w.enter (s.jumpRipple start n direction (k + 1)) r := by
  have hs := h.placesOfAlloc_sorted r
  have hprice : s.shiftCost start (targetOf start direction (k + 1)) n r =
      s.change start n direction (k + 1) r := by
    obtain ⟨a, b, c, hb, hab, hbc, -, hg⟩ := hr.bounds (Nat.succ_pos k)
    rw [h.shiftCost_eq hb hab hbc, change, hg]
  have hgrowth : (if (match (s.placesOfAlloc r).find? fun p => start ≤ p with
        | some p => decide (p - start < n)
        | none => false) && outermost? direction (s.placesOfAlloc r) ==
          some (jumpedPlace start n direction (k + 1)) then (s.graph.alloc r).weight else 0) =
      s.nextChange start n direction (k + 1) r := by
    have hk : direction = .backward → k < start := by
      rintro rfl
      exact hr.2
    rw [nextChange, pull_of_jumped hs hk hm, find?_window hs, ite_smul, one_smul, zero_smul]
  unfold enterJumped Wave.enter jumpRipple
  dsimp only
  rw [hprice, ← hgrowth]
  rfl

theorem swept_of_enterAll {c : Scratch W} {rs : List Nat} {price growth : W}
    (hc : c.Tidy s.allocCount) (hlt : ∀ r ∈ rs, r < s.allocCount)
    (hspent : ∀ r, r ∉ rs → c.spent k r = s.change start n direction k r)
    (hrate : ∀ r, r ∉ rs → c.rate r = s.nextChange start n direction k r)
    (hprice : price = ∑ r ∈ Finset.range s.allocCount, s.change start n direction k r)
    (hgrowth : growth = ∑ r ∈ Finset.range s.allocCount, s.nextChange start n direction k r) :
    s.Swept start n direction k
      ⟨c.enterAll (s.jumpRipple start n direction k) rs, price, growth⟩ where
  tidy := hc.enterAll hlt
  spent := by
    intro r
    have hstep : ∀ r, (s.jumpRipple start n direction k r).step = k := fun _ => rfl
    refine (Scratch.spent_enterAll hc hlt hstep).trans ?_
    split_ifs with hr
    · rfl
    · exact hspent r hr
  rate := by
    intro r
    refine (Scratch.rate_enterAll hc hlt).trans ?_
    split_ifs with hr
    · rfl
    · exact hrate r hr
  price := hprice
  growth := hgrowth

/-- When some Allocs are priced anew and all others go on as they did, all prices are right
after a further step. -/
theorem swept_of_jumped {jumped : List Nat} (hw : s.Swept start n direction k w)
    (hnodup : jumped.Nodup) (hlt : ∀ r ∈ jumped, r < s.allocCount)
    (hchange : ∀ r, r ∉ jumped → s.change start n direction (k + 1) r =
      s.change start n direction k r + s.nextChange start n direction k r)
    (hnext : ∀ r, r ∉ jumped →
      s.nextChange start n direction (k + 1) r = s.nextChange start n direction k r) :
    s.Swept start n direction (k + 1)
      ⟨w.scratch.enterAll (s.jumpRipple start n direction (k + 1)) jumped,
        w.price - (jumped.map (w.scratch.spent k)).sum +
            (w.growth - (jumped.map w.scratch.rate).sum) +
          (jumped.map fun r => (s.jumpRipple start n direction (k + 1) r).price).sum,
        w.growth - (jumped.map w.scratch.rate).sum +
          (jumped.map fun r => (s.jumpRipple start n direction (k + 1) r).growth).sum⟩ := by
  refine swept_of_enterAll hw.tidy hlt (fun r hr => ?_) (fun r hr => ?_) ?_ ?_
  · rw [Scratch.spent_succ, hw.spent, hw.rate, hchange r hr]
  · rw [hw.rate, hnext r hr]
  · rw [hw.price, hw.growth, sum_map_eq _ hnodup hlt, sum_map_eq _ hnodup hlt,
      sum_map_eq _ hnodup hlt, ← Finset.sum_sub_distrib, ← Finset.sum_sub_distrib,
      ← Finset.sum_add_distrib, ← Finset.sum_add_distrib]
    refine Finset.sum_congr rfl fun r _ => ?_
    by_cases hm : r ∈ jumped
    · rw [if_pos hm, if_pos hm, if_pos hm, hw.spent, hw.rate, sub_self, sub_self, add_zero,
        zero_add]
      rfl
    · rw [if_neg hm, if_neg hm, if_neg hm, sub_zero, sub_zero, add_zero, hchange r hm]
  · rw [hw.growth, sum_map_eq _ hnodup hlt, sum_map_eq _ hnodup hlt, ← Finset.sum_sub_distrib,
      ← Finset.sum_add_distrib]
    refine Finset.sum_congr rfl fun r _ => ?_
    by_cases hm : r ∈ jumped
    · rw [if_pos hm, if_pos hm, hw.rate, sub_self, zero_add]
      rfl
    · rw [if_neg hm, if_neg hm, sub_zero, add_zero, hnext r hm]

theorem Coherent.advance_swept (h : s.Coherent) (hr : s.Reach start n direction (k + 1))
    (hw : s.Swept start n direction k w) :
    s.Swept start n direction (k + 1) (s.advance start n direction w (k + 1)) := by
  have hk : direction = .backward → k < start := by
    rintro rfl
    exact hr.2
  have hplace : jumpedPlace start n direction (k + 1) < s.opCount := by
    have hr' := hr.2
    have := hr.1
    cases direction with
    | backward =>
      dsimp only [jumpedPlace] at hr' ⊢
      omega
    | forward =>
      dsimp only [jumpedPlace] at hr' ⊢
      omega
  have hmem : ∀ r, r ∈ s.allocsAt (jumpedPlace start n direction (k + 1)) ↔
      jumpedPlace start n direction (k + 1) ∈ s.placesOfAlloc r := fun r => h.mem_allocsAt hplace
  have hnodup : (s.allocsAt (jumpedPlace start n direction (k + 1))).Nodup := by
    rw [h.allocsAt_eq hplace]
    exact h.wellFormed.nodup_allocs _
  have hlt : ∀ r ∈ s.allocsAt (jumpedPlace start n direction (k + 1)), r < s.allocCount := by
    rw [h.allocsAt_eq hplace]
    exact fun r hr => h.wellFormed.lt_of_mem_allocs hr
  -- what is not at the place that is jumped goes on with the pull that it has
  have hjump := swept_of_jumped hw hnodup hlt (fun r hn => ?_) fun r hn => ?_
  · unfold advance
    dsimp only
    rw [foldl_settleRipple, List.foldl_ext _ (Wave.enter (s.jumpRipple start n direction (k + 1))) _
      fun w r hm => h.enterJumped_eq hr ((hmem r).mp hm) w, Wave.foldl_enter]
    exact hjump
  · rw [change, sweepGrowth_succ hk (mt (hmem r).mpr hn), add_smul]
    rfl
  · rw [nextChange, pull_succ hk (mt (hmem r).mpr hn)]
    rfl

theorem change_zero : s.change start n direction 0 r = 0 := by
  rw [change, sweepGrowth_zero, zero_smul]

theorem Coherent.nextChange_of_not_mem (h : s.Coherent) (hw : start + n ≤ s.opCount)
    (hr : r ∉ s.allocsBetween start (start + n)) : s.nextChange start n direction 0 r = 0 := by
  rw [nextChange, pull_of_outside, zero_smul]
  intro p hp
  by_contra hc
  exact hr ((h.mem_allocsBetween hw).mpr ⟨p, hp, by omega⟩)

theorem Coherent.enterWindow_eq (h : s.Coherent) (hw : start + n ≤ s.opCount)
    (hr : r ∈ s.allocsBetween start (start + n)) (w : Wave W) :
    s.enterWindow start n direction.sign w r = w.enter (s.jumpRipple start n direction 0) r := by
  have hnext : s.nextChange start n direction 0 r = _ :=
    congrArg (· • (s.graph.alloc r).weight) (pull_zero ((h.mem_allocsBetween hw).mp hr))
  unfold enterWindow Wave.enter jumpRipple
  dsimp only
  rw [hnext, change_zero, add_zero]
  rfl

theorem Coherent.start_swept (h : s.Coherent) (hw : start + n ≤ s.opCount) :
    s.Swept start n direction 0 ((s.allocsBetween start (start + n)).foldl
      (s.enterWindow start n direction.sign) ⟨Scratch.clean s.allocCount, 0, 0⟩) := by
  have hnodup : (s.allocsBetween start (start + n)).Nodup := Ascending.ofList_nodup _
  have hlt : ∀ r ∈ s.allocsBetween start (start + n), r < s.allocCount :=
    fun r => h.lt_of_mem_allocsBetween hw
  rw [List.foldl_ext _ (Wave.enter (s.jumpRipple start n direction 0)) _
    fun w r hr => h.enterWindow_eq hw hr w, Wave.foldl_enter]
  refine swept_of_enterAll Scratch.clean_tidy hlt (fun r _ => ?_) (fun r hr => ?_) ?_ ?_
  · rw [Scratch.spent_clean, change_zero]
  · rw [Scratch.rate_clean, h.nextChange_of_not_mem hw hr]
  · simp [jumpRipple, change_zero]
  · rw [zero_add, sum_map_eq _ hnodup hlt]
    refine Finset.sum_congr rfl fun r _ => ?_
    split_ifs with hr
    · rfl
    · rw [h.nextChange_of_not_mem hw hr]

def totalChange (s : Schedule W) (start n : Nat) (direction : Direction) (k : Nat) : W :=
  ∑ r ∈ Finset.range s.allocCount, s.change start n direction k r

theorem Coherent.advanceAll_swept (h : s.Coherent) {steps : Nat}
    (hr : s.Reach start n direction (k + steps)) (hw : s.Swept start n direction k w) :
    s.Swept start n direction (k + steps)
        (s.advanceAll start n direction w (List.range' (k + 1) steps)).1 ∧
      (s.advanceAll start n direction w (List.range' (k + 1) steps)).2 =
        (List.range' (k + 1) steps).map (s.totalChange start n direction) := by
  induction steps generalizing k w with
  | zero => exact ⟨hw, rfl⟩
  | succ steps ih =>
    have hw' := h.advance_swept (hr.of_le (by omega)) hw
    have hr' : s.Reach start n direction (k + 1 + steps) := by
      rwa [show k + 1 + steps = k + (steps + 1) by omega]
    obtain ⟨hlast, hprices⟩ := ih hr' hw'
    rw [List.range'_succ]
    unfold advanceAll
    dsimp only
    rw [show k + (steps + 1) = k + 1 + steps by omega, List.map_cons, hprices]
    exact ⟨hlast, congrArg (· :: _) hw'.price⟩

/-- A sweep gives what every number of steps adds to the total liveness, and leaves no
ripples behind. -/
theorem Coherent.sweep_eq (h : s.Coherent) {steps : Nat} (hr : s.Reach start n direction steps) :
    s.sweep (Scratch.clean s.allocCount) start n direction steps =
      ((List.range' 1 steps).map (s.totalChange start n direction),
        Scratch.clean s.allocCount) := by
  have hstart : s.Swept start n direction 0 _ := h.start_swept hr.1
  obtain ⟨hlast, hprices⟩ := h.advanceAll_swept (by rwa [Nat.zero_add]) hstart
  unfold sweep
  dsimp only
  rw [hprices, hlast.tidy.clear_eq]

theorem Reach.totalChange_eq (hr : s.Reach start n direction k) (hk : 0 < k) :
    ∃ a b c, (⟨start, targetOf start direction k, n⟩ : Move).bounds = (a, b, c) ∧
      a ≤ b ∧ b ≤ c ∧ c ≤ s.opCount ∧
      s.totalChange start n direction k = s.exchangePrice a b c := by
  obtain ⟨a, b, c, hb, hab, hbc, hc, hg⟩ := hr.bounds hk
  refine ⟨a, b, c, hb, hab, hbc, hc, Finset.sum_congr rfl fun r _ => ?_⟩
  rw [change, hg]

theorem Coherent.total_apply_sub (h : s.Coherent) (hr : s.Reach start n direction k)
    (hk : 0 < k) : (s.apply ⟨start, targetOf start direction k, n⟩).total - s.total =
      s.totalChange start n direction k := by
  obtain ⟨a, b, c, hb, hab, hbc, hc, ht⟩ := hr.totalChange_eq hk
  rw [ht]
  exact (h.exchanged_apply hb hab hbc hc).total_sub h

end Schedule

end Liveness
