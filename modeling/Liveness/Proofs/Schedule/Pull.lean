import Liveness.Proofs.Schedule.Span
import Liveness.Schedule.Sweep

/-! # Spans during a sweep

While a window passes Ops that do not need an Alloc, the span of the Alloc grows or
shrinks by the same amount with every step. Which amount it is depends on whether the
Alloc has places in the window, behind it and beyond it.
-/

namespace Liveness

def oneIfAny (test : Nat → Bool) (ps : List Nat) : Int := if ps.any test then 1 else 0

section OneIfAny

variable {P Q : Nat → Bool} {ps : List Nat}

theorem oneIfAny_congr (h : ∀ p ∈ ps, P p = Q p) : oneIfAny P ps = oneIfAny Q ps := by
  have he : ps.any P = ps.any Q := by
    rw [Bool.eq_iff_iff, List.any_eq_true, List.any_eq_true]
    exact exists_congr fun p => and_congr_right fun hp => by rw [h p hp]
  rw [oneIfAny, oneIfAny, he]

theorem oneIfAny_map (f : Nat → Nat) :
    oneIfAny P (ps.map f) = oneIfAny (fun p => P (f p)) ps := by
  rw [oneIfAny, oneIfAny, List.any_map]
  rfl

theorem oneIfAny_pos (h : ∃ p ∈ ps, P p = true) : oneIfAny P ps = 1 :=
  if_pos (List.any_eq_true.mpr h)

theorem oneIfAny_neg (h : ∀ p ∈ ps, P p = false) : oneIfAny P ps = 0 :=
  if_neg (by simpa using h)

theorem oneIfAny_lt {low high k : Nat} (h : Ends ps low high) :
    oneIfAny (fun p => p < k) ps = if low < k then 1 else 0 := by
  split
  · next hk => exact oneIfAny_pos ⟨low, h.low_mem, decide_eq_true hk⟩
  · next hk =>
    refine oneIfAny_neg fun p hp => decide_eq_false fun hlt => hk ?_
    exact Nat.lt_of_le_of_lt (h.between p hp).1 hlt

theorem oneIfAny_ge {low high k : Nat} (h : Ends ps low high) :
    oneIfAny (fun p => k ≤ p) ps = if k ≤ high then 1 else 0 := by
  split
  · next hk => exact oneIfAny_pos ⟨high, h.high_mem, decide_eq_true hk⟩
  · next hk =>
    refine oneIfAny_neg fun p hp => decide_eq_false fun hle => hk ?_
    exact Nat.le_trans hle (h.between p hp).2

end OneIfAny

def nudge (low high p : Nat) : Nat := if low ≤ p ∧ p < high then p + 1 else p

/-- When a block of places moves on by one, a span with a place in the block grows if it
has a place before the block and shrinks if it has one behind it. -/
theorem spanOf_nudge {ps : List Nat} {high : Nat} (low : Nat) (hn : high ∉ ps) :
    (spanOf (ps.map (nudge low high)) : Int) - spanOf ps =
      oneIfAny (fun p => low ≤ p && p < high) ps *
        (oneIfAny (fun p => p < low) ps - oneIfAny (fun p => high ≤ p) ps) := by
  by_cases hw : ∃ p ∈ ps, (decide (low ≤ p) && decide (p < high)) = true
  · rw [oneIfAny_pos hw, one_mul]
    obtain ⟨w, hwm, hw⟩ := hw
    obtain ⟨first, last, he⟩ := Ends.exists_of_ne_nil (List.ne_nil_of_mem hwm)
    have hne : ∀ p ∈ ps, p ≠ high := fun p hp h => hn (h ▸ hp)
    have hf : ∀ p ∈ ps, nudge low high first ≤ nudge low high p ∧
        nudge low high p ≤ nudge low high last := by
      intro p hp
      have := he.between p hp
      have := hne p hp
      have := hne first he.low_mem
      unfold nudge
      grind
    have hlow := hne first he.low_mem
    have hhigh := hne last he.high_mem
    have hfw := he.between w hwm
    simp only [Bool.and_eq_true, decide_eq_true_eq] at hw
    rw [he.spanOf_map_sub he.low_mem he.high_mem hf, oneIfAny_lt he, oneIfAny_ge he]
    unfold nudge
    grind
  · rw [oneIfAny_neg fun p hp => Bool.eq_false_iff.mpr fun h => hw ⟨p, hp, h⟩, zero_mul]
    have hm : ps.map (nudge low high) = ps := by
      refine (List.map_congr_left fun p hp => ?_).trans (List.map_id ps)
      refine if_neg fun h => hw ⟨p, hp, ?_⟩
      simp [h]
    rw [hm, sub_self]

theorem spanOf_map_nudge {ps : List Nat} {f g : Nat → Nat} {P Q R : Nat → Bool} (low high : Nat)
    (h : ∀ p ∈ ps, f p ≠ high ∧ g p = nudge low high (f p) ∧
      P p = (low ≤ f p && f p < high : Bool) ∧ Q p = decide (f p < low) ∧
      R p = decide (high ≤ f p)) :
    (spanOf (ps.map g) : Int) - spanOf (ps.map f) =
      oneIfAny P ps * (oneIfAny Q ps - oneIfAny R ps) := by
  have hn : high ∉ ps.map f := by
    intro hm
    obtain ⟨p, hp, he⟩ := List.mem_map.mp hm
    exact (h p hp).1 he
  have hm : ps.map g = (ps.map f).map (nudge low high) := by
    rw [List.map_map]
    exact List.map_congr_left fun p hp => (h p hp).2.1
  rw [hm, spanOf_nudge low hn, oneIfAny_map, oneIfAny_map, oneIfAny_map,
    oneIfAny_congr fun p hp => (h p hp).2.2.1, oneIfAny_congr fun p hp => (h p hp).2.2.2.1,
    oneIfAny_congr fun p hp => (h p hp).2.2.2.2]

namespace Schedule

variable {start n k p : Nat} {direction : Direction} {ps : List Nat}

/-- Whether a place is behind a window after some steps, as it was from the start or as
the window jumped over it. -/
def isBehind (start n : Nat) (direction : Direction) (k p : Nat) : Bool :=
  match direction with
  | .backward => start + n ≤ p || (start ≤ p + k && p < start)
  | .forward => p < start || (start + n ≤ p && p < start + n + k)

def isBeyond (start n : Nat) (direction : Direction) (k p : Nat) : Bool :=
  match direction with
  | .backward => p + k < start
  | .forward => start + n + k ≤ p

/-- What the next step adds to the span of an Alloc that no Op jumped over needs. -/
def pull (start n : Nat) (direction : Direction) (k : Nat) (ps : List Nat) : Int :=
  oneIfAny (fun p => start ≤ p && p < start + n) ps *
    (oneIfAny (isBehind start n direction k) ps - oneIfAny (isBeyond start n direction k) ps)

def sweepGrowth (start n : Nat) (direction : Direction) (k : Nat) (ps : List Nat) : Int :=
  match direction with
  | .backward => spanGrowth (start - k) start (start + n) ps
  | .forward => spanGrowth start (start + n) (start + n + k) ps

theorem sweepGrowth_zero : sweepGrowth start n direction 0 ps = 0 := by
  have hid : ∀ {a b c : Nat}, (∀ p ∈ ps, Move.landing a b c p = p) → spanGrowth a b c ps = 0 := by
    intro a b c h
    rw [spanGrowth, (List.map_congr_left h).trans (List.map_id ps), sub_self]
  cases direction with
  | backward => exact hid fun p _ => by grind [Move.landing]
  | forward => exact hid fun p _ => by grind [Move.landing]

theorem sweepGrowth_succ (hk : direction = .backward → k < start)
    (hn : jumpedPlace start n direction (k + 1) ∉ ps) :
    sweepGrowth start n direction (k + 1) ps =
      sweepGrowth start n direction k ps + pull start n direction k ps := by
  have hne : ∀ p ∈ ps, p ≠ jumpedPlace start n direction (k + 1) := fun p hp h => hn (h ▸ hp)
  cases direction with
  | backward =>
    have hk := hk rfl
    have hstep := spanOf_map_nudge (f := Move.landing (start - (k + 1)) start (start + n))
      (g := Move.landing (start - k) start (start + n))
      (P := fun p => start ≤ p && p < start + n) (Q := isBeyond start n .backward k)
      (R := isBehind start n .backward k) (start - (k + 1)) (start + n - (k + 1)) fun p hp => by
        have := hne p hp
        grind [Move.landing, nudge, jumpedPlace, isBehind, isBeyond]
    dsimp only [sweepGrowth, spanGrowth, pull]
    grind
  | forward =>
    have hstep := spanOf_map_nudge (f := Move.landing start (start + n) (start + n + k))
      (g := Move.landing start (start + n) (start + n + (k + 1)))
      (P := fun p => start ≤ p && p < start + n) (Q := isBehind start n .forward k)
      (R := isBeyond start n .forward k) (start + k) (start + n + k) fun p hp => by
        have := hne p hp
        grind [Move.landing, nudge, jumpedPlace, isBehind, isBeyond]
    dsimp only [sweepGrowth, spanGrowth, pull]
    grind

theorem pull_succ (hk : direction = .backward → k < start)
    (hn : jumpedPlace start n direction (k + 1) ∉ ps) :
    pull start n direction (k + 1) ps = pull start n direction k ps := by
  have hne : ∀ p ∈ ps, p ≠ jumpedPlace start n direction (k + 1) := fun p hp h => hn (h ▸ hp)
  have hbehind : oneIfAny (isBehind start n direction (k + 1)) ps =
      oneIfAny (isBehind start n direction k) ps := by
    refine oneIfAny_congr fun p hp => ?_
    have := hne p hp
    cases direction <;> grind [isBehind, jumpedPlace]
  have hbeyond : oneIfAny (isBeyond start n direction (k + 1)) ps =
      oneIfAny (isBeyond start n direction k) ps := by
    refine oneIfAny_congr fun p hp => ?_
    have := hne p hp
    cases direction <;> grind [isBeyond, jumpedPlace]
  rw [pull, pull, hbehind, hbeyond]

theorem pull_of_outside (h : ∀ p ∈ ps, p < start ∨ start + n ≤ p) :
    pull start n direction k ps = 0 := by
  rw [pull, oneIfAny_neg fun p hp => ?_, zero_mul]
  have := h p hp
  grind

theorem pull_zero (h : ∃ p ∈ ps, start ≤ p ∧ p < start + n) :
    pull start n direction 0 ps = direction.sign *
      (oneIfAny (fun p => p < start) ps - oneIfAny (fun p => start + n ≤ p) ps) := by
  rw [pull, oneIfAny_pos (by simpa using h), one_mul]
  cases direction with
  | backward =>
    have hbehind : oneIfAny (isBehind start n .backward 0) ps =
        oneIfAny (fun p => start + n ≤ p) ps := oneIfAny_congr fun p _ => by grind [isBehind]
    have hbeyond : oneIfAny (isBeyond start n .backward 0) ps =
        oneIfAny (fun p => p < start) ps := oneIfAny_congr fun p _ => by grind [isBeyond]
    rw [hbehind, hbeyond, Direction.sign]
    omega
  | forward =>
    have hbehind : oneIfAny (isBehind start n .forward 0) ps =
        oneIfAny (fun p => p < start) ps := oneIfAny_congr fun p _ => by grind [isBehind]
    have hbeyond : oneIfAny (isBeyond start n .forward 0) ps =
        oneIfAny (fun p => start + n ≤ p) ps := oneIfAny_congr fun p _ => by grind [isBeyond]
    rw [hbehind, hbeyond, Direction.sign]
    omega

def outermost? (direction : Direction) (ps : List Nat) : Option Nat :=
  match direction with
  | .backward => ps.head?
  | .forward => ps.getLast?

theorem pull_of_jumped (hs : ps.Pairwise (· ≤ ·)) (hk : direction = .backward → k < start)
    (hm : jumpedPlace start n direction (k + 1) ∈ ps) :
    pull start n direction (k + 1) ps =
      if (ps.any fun p => start ≤ p && p < start + n) &&
        outermost? direction ps == some (jumpedPlace start n direction (k + 1)) then 1 else 0 := by
  obtain ⟨low, high, he⟩ := Ends.exists_of_ne_nil (List.ne_nil_of_mem hm)
  have hb := he.between _ hm
  have hbehind : oneIfAny (isBehind start n direction (k + 1)) ps = 1 := by
    refine oneIfAny_pos ⟨_, hm, ?_⟩
    cases direction <;> grind [isBehind, jumpedPlace]
  have hbeyond : oneIfAny (isBeyond start n direction (k + 1)) ps =
      if outermost? direction ps == some (jumpedPlace start n direction (k + 1)) then 0 else 1 := by
    cases direction with
    | backward =>
      have hlt := oneIfAny_lt (k := start - (k + 1)) he
      have hc : oneIfAny (isBeyond start n .backward (k + 1)) ps =
          oneIfAny (fun p => p < start - (k + 1)) ps :=
        oneIfAny_congr fun p _ => by grind [isBeyond]
      rw [hc, hlt, outermost?, he.head?_eq hs]
      grind [jumpedPlace]
    | forward =>
      have hge := oneIfAny_ge (k := start + n + (k + 1)) he
      have hc : oneIfAny (isBeyond start n .forward (k + 1)) ps =
          oneIfAny (fun p => start + n + (k + 1) ≤ p) ps := rfl
      rw [hc, hge, outermost?, he.getLast?_eq hs]
      grind [jumpedPlace]
  rw [pull, hbehind, hbeyond, oneIfAny]
  grind

end Schedule

end Liveness
