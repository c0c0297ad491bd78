import Liveness.Proofs.Schedule.Sweep
import Liveness.Proofs.Schedule.Admissible

/-! # The two searches agree

The simple search tries the destinations from the farthest one back to the farthest one
ahead, and so does the ripple search with the prices of its two sweeps. Since both find
the same change of the total liveness for each of them, they choose the same shift.
-/

namespace Liveness.Schedule

variable {W : Type} [Weight W] {s : Schedule W} {start target n : Nat}

section Places

variable {a b c : Nat}

theorem Coherent.place_restore (h : s.Coherent) (hab : a ≤ b) (hbc : b ≤ c) (hc : c ≤ s.opCount) :
    place s.ops a c (place (Move.exchange s.ops a b c) a c s.places) = s.places := by
  have hof : ∀ {x i}, i < c → s.opAt i = x → i = s.placeOf x := by
    rintro x i hi rfl
    exact (h.placeOf_opAt (by omega)).symm
  have hget : ∀ x, x < s.opCount →
      (place s.ops a c (place (Move.exchange s.ops a b c) a c s.places)).getD x 0 =
        s.placeOf x := by
    intro x hx
    by_cases hm : a ≤ s.placeOf x ∧ s.placeOf x < c
    · refine getD_place_of_mem ?_ hm.1 hm.2 (h.opAt_placeOf hx) fun j _ hj he => hof hj he
      rwa [size_place, h.size_places]
    · rw [getD_place_of_ne fun i hi hi' he => hm ?_, getD_place_of_ne fun i hi hi' he => hm ?_]
      · rfl
      · rw [Move.getD_exchange hab hbc (h.size_ops.symm ▸ hc)] at he
        have hs := Move.source_mem hab hbc hi hi'
        rwa [← hof hs.2 he]
      · rw [← hof hi' he]
        exact ⟨hi, hi'⟩
  refine Array.ext (by simp) fun x hx hx' => ?_
  have hg := hget x (h.size_places ▸ hx')
  simp only [placeOf, Array.getD, dif_pos hx, dif_pos hx'] at hg
  exact hg

end Places

variable [ExactWeight W]

def priceAt (s : Schedule W) (start n target : Nat) : W :=
  if target < start then s.totalChange start n .backward (start - target)
  else s.totalChange start n .forward (target - start)

def priced (s : Schedule W) (start n : Nat) (targets : List Nat) : List (Int × W) :=
  targets.map fun target : Nat => ((target : Int) - start, s.priceAt start n target)

theorem backwardShifts_eq {back : Nat} (hb : back ≤ start) :
    backwardShifts ((List.range' 1 back).map (s.totalChange start n .backward)) =
      s.priced start n (List.range' (start - back) back) := by
  refine List.ext_getElem (by simp [backwardShifts, priced]) fun i hi _ => ?_
  have hi' : i < back := by simpa [backwardShifts] using hi
  simp only [backwardShifts, priced, List.getElem_reverse, List.getElem_map, List.getElem_zipIdx,
    List.getElem_range', List.length_map, List.length_zipIdx, List.length_range', priceAt]
  rw [if_pos (by omega), show start - (start - back + 1 * i) = 1 + 1 * (back - 1 - i) by omega]
  refine Prod.ext ?_ rfl
  dsimp only
  omega

theorem forwardShifts_eq {ahead : Nat} :
    forwardShifts ((List.range' 1 ahead).map (s.totalChange start n .forward)) =
      s.priced start n (List.range' (start + 1) ahead) := by
  refine List.ext_getElem (by simp [forwardShifts, priced]) fun i hi _ => ?_
  simp only [forwardShifts, priced, List.getElem_map, List.getElem_zipIdx, List.getElem_range',
    priceAt]
  rw [if_neg (by omega), show start + 1 + 1 * i - start = 1 + 1 * i by omega]
  refine Prod.ext ?_ rfl
  dsimp only
  omega

omit [Weight W] [ExactWeight W] in
theorem filter_targets {back ahead : Nat} (hb : back ≤ start) :
    (targets start n back ahead).filter (fun target => target ≠ start) =
      (if n ≤ back then List.range' (start - back) back else []) ++
        if n ≤ ahead then List.range' (start + 1) ahead else [] := by
  have hlow : (List.range' (start - back) back).filter (fun target => target ≠ start) =
      List.range' (start - back) back := by
    refine List.filter_eq_self.mpr fun t ht => decide_eq_true ?_
    have := List.mem_range'_1.mp ht
    omega
  have hhigh : (List.range' start (ahead + 1)).filter (fun target => target ≠ start) =
      List.range' (start + 1) ahead := by
    rw [List.range'_succ, List.filter_cons_of_neg (by simp)]
    refine List.filter_eq_self.mpr fun t ht => decide_eq_true ?_
    have := List.mem_range'_1.mp ht
    omega
  unfold targets
  dsimp only
  -- one row of targets runs over the start where there is room on both sides
  by_cases hback : n ≤ back
  · rw [if_neg (by omega), if_pos hback]
    by_cases hahead : n ≤ ahead
    · have hsplit : List.range' (start - back) (start + ahead + 1 - (start - back)) =
          List.range' (start - back) back ++ List.range' start (ahead + 1) := by
        have h := List.range'_append_1 (s := start - back) (m := back) (n := ahead + 1)
        rw [show start - back + back = start by omega] at h
        rw [h, show start + ahead + 1 - (start - back) = back + (ahead + 1) by omega]
      rw [if_neg (by omega), if_pos hahead, hsplit, List.filter_append, hlow, hhigh]
    · rw [if_pos (by omega), if_neg hahead, show start - (start - back) = back by omega, hlow,
        List.append_nil]
  · rw [if_pos (by omega), if_neg hback, List.nil_append]
    by_cases hahead : n ≤ ahead
    · rw [if_neg (by omega), if_pos hahead, show start + ahead + 1 - start = ahead + 1 by omega,
        hhigh]
    · rw [if_pos (by omega), if_neg hahead, Nat.sub_self]
      rfl

theorem priceAt_eq (hw : start + n ≤ s.opCount) (ht : target + n ≤ s.opCount)
    (hne : target ≠ start) :
    ∃ a b c, (⟨start, target, n⟩ : Move).bounds = (a, b, c) ∧ a ≤ b ∧ b ≤ c ∧ c ≤ s.opCount ∧
      s.priceAt start n target = s.exchangePrice a b c := by
  unfold priceAt
  split
  · next hlt =>
    have hr : s.Reach start n .backward (start - target) := ⟨hw, Nat.sub_le ..⟩
    have he : targetOf start .backward (start - target) = target := by
      dsimp only [targetOf]
      omega
    have hp := hr.totalChange_eq (by omega)
    rwa [he] at hp
  · next hge =>
    have hr : s.Reach start n .forward (target - start) := by
      refine ⟨hw, ?_⟩
      dsimp only
      omega
    have he : targetOf start .forward (target - start) = target := by
      dsimp only [targetOf]
      omega
    have hp := hr.totalChange_eq (by omega)
    rwa [he] at hp

/-- Trying a target compares its price with the best one so far, and leaves all places as
they were. -/
theorem Coherent.tryTarget_eq_better (h : s.Coherent) (hw : start + n ≤ s.opCount)
    (ht : target + n ≤ s.opCount) (hne : target ≠ start) (best : Shift W) :
    s.tryTarget start n ⟨⟨best.distance, best.cost + s.total⟩, s.places⟩ target =
      (let best := s.better start n best ((target : Int) - start, s.priceAt start n target)
      ⟨⟨best.distance, best.cost + s.total⟩, s.places⟩) := by
  obtain ⟨a, b, c, hb, hab, hbc, hc, hp⟩ := priceAt_eq hw ht hne
  have hprice := (exchanged_exchangeBlocks h hab hbc hc).total_sub h
  have htotal : (s.graph.totalLiveness fun op =>
      (place (Move.exchange s.ops a b c) a c s.places).getD op 0) =
      s.priceAt start n target + s.total := by
    rw [hp, ← hprice, sub_add_cancel]
    rfl
  rw [tryTarget_eq hne hb]
  dsimp only
  rw [h.place_restore hab hbc hc, htotal]
  unfold better
  dsimp only
  rw [show (start : Int) + ((target : Int) - start) = target by omega, Int.toNat_natCast,
    ← ExactWeight.lt_sub_iff (c := s.total), add_sub_cancel_right, add_sub_cancel_right]
  split <;> rfl

/-- Both searches go through the same destinations. -/
def bestOf (s : Schedule W) (start n : Nat) : Shift W :=
  (s.priced start n ((targets start n (s.back start) (s.ahead start)).filter
    fun target => target ≠ start)).foldl (s.better start n) Shift.stay

omit [ExactWeight W] in
theorem UpToDate.room_eq (h : s.UpToDate n) (hw : start + n ≤ s.opCount) :
    s.ahead start = s.roomAheadAt n start ∧ s.back start = s.roomBackAt n start ∧
      s.back start ≤ start ∧ start + n + s.ahead start ≤ s.opCount := by
  have hi : start < s.windowCount n := by
    unfold windowCount
    omega
  have hahead := h.ahead_eq hi
  have hback := h.back_eq hi
  refine ⟨hahead, hback, ?_, ?_⟩
  · exact (h.toCoherent.le_roomBackAt_iff.mp (Nat.le_of_eq hback)).1
  · exact ((h.toCoherent.le_roomAheadAt_iff hw).mp (Nat.le_of_eq hahead)).1

theorem Coherent.sweep_if_eq (h : s.Coherent) {direction : Direction} {room : Nat}
    (hr : s.Reach start n direction room) :
    (if n ≤ room then s.sweep (Scratch.clean s.allocCount) start n direction room
      else ([], Scratch.clean s.allocCount)) =
      (if n ≤ room then (List.range' 1 room).map (s.totalChange start n direction) else [],
        Scratch.clean s.allocCount) := by
  split
  · exact h.sweep_eq hr
  · rfl

theorem UpToDate.bestRipple_eq (h : s.UpToDate n) (hw : start + n ≤ s.opCount) :
    s.bestRipple (Scratch.clean s.allocCount) start n =
      (s.bestOf start n, Scratch.clean s.allocCount) := by
  obtain ⟨-, -, hback, hahead⟩ := h.room_eq hw
  have hb : s.Reach start n .backward (s.back start) := ⟨hw, hback⟩
  have ha : s.Reach start n .forward (s.ahead start) := ⟨hw, hahead⟩
  have hbs : backwardShifts (if n ≤ s.back start then
      (List.range' 1 (s.back start)).map (s.totalChange start n .backward) else []) =
      s.priced start n (if n ≤ s.back start then
        List.range' (start - s.back start) (s.back start) else []) := by
    split
    · exact backwardShifts_eq hback
    · rfl
  have has : forwardShifts (if n ≤ s.ahead start then
      (List.range' 1 (s.ahead start)).map (s.totalChange start n .forward) else []) =
      s.priced start n (if n ≤ s.ahead start then
        List.range' (start + 1) (s.ahead start) else []) := by
    split
    · exact forwardShifts_eq
    · rfl
  unfold bestRipple
  dsimp only
  rw [h.toCoherent.sweep_if_eq hb]
  dsimp only
  rw [h.toCoherent.sweep_if_eq ha]
  dsimp only
  rw [hbs, has, bestOf, filter_targets hback, priced, priced, priced, List.map_append,
    List.foldl_append]

theorem Coherent.foldl_tryTarget (h : s.Coherent) (hw : start + n ≤ s.opCount) {ts : List Nat}
    (hts : ∀ t ∈ ts, t + n ≤ s.opCount) (best : Shift W) :
    ts.foldl (s.tryTarget start n) ⟨⟨best.distance, best.cost + s.total⟩, s.places⟩ =
      (let best := (s.priced start n (ts.filter fun target => target ≠ start)).foldl
        (s.better start n) best
      ⟨⟨best.distance, best.cost + s.total⟩, s.places⟩) := by
  induction ts generalizing best with
  | nil => rfl
  | cons t ts ih =>
    have hts' : ∀ t ∈ ts, t + n ≤ s.opCount := fun t ht => hts t (List.mem_cons_of_mem _ ht)
    rw [List.foldl_cons]
    by_cases hne : t = start
    · rw [tryTarget, if_pos hne, ih hts', List.filter_cons_of_neg (by simp [hne])]
    · rw [h.tryTarget_eq_better hw (hts t List.mem_cons_self) hne,
        List.filter_cons_of_pos (by simp [hne])]
      exact ih hts' _

theorem UpToDate.bestSimple_eq (h : s.UpToDate n) (hw : start + n ≤ s.opCount) :
    s.bestSimple start n = .ok (s.bestOf start n) := by
  obtain ⟨hahead, hback, -, hin⟩ := h.room_eq hw
  have hts : ∀ t ∈ targets start n (s.back start) (s.ahead start), t + n ≤ s.opCount := by
    intro t ht
    have := (mem_targets ht).2
    omega
  have hfold := h.toCoherent.foldl_tryTarget hw hts Shift.stay
  rw [show (Shift.stay : Shift W).cost + s.total = s.total from zero_add _] at hfold
  unfold bestSimple
  rw [if_neg (by simp [hahead, hback])]
  dsimp only
  rw [← hback, ← hahead]
  refine congrArg Except.ok ?_
  refine (congrArg (fun t : Trial W => (⟨t.best.distance, t.best.cost - s.total⟩ : Shift W))
    hfold).trans ?_
  dsimp only
  rw [add_sub_cancel_right]
  rfl

theorem UpToDate.bestOf_admissible (h : s.UpToDate n) (hw : start + n ≤ s.opCount) :
    s.Admissible (moveBy start n (s.bestOf start n).distance) :=
  bestSimple_admissible hw (h.bestSimple_eq hw)

section Calls

structure Call (W : Type) where
  schedule : Schedule W
  start : Nat
  size : Nat

structure Call.Valid (call : Call W) (allocs : Nat) : Prop where
  upToDate : call.schedule.UpToDate call.size
  inRange : call.start + call.size ≤ call.schedule.opCount
  allocCount : call.schedule.allocCount = allocs

/-- One ripple search after the other, each with the scratch data that the last one left. -/
def ripples (scratch : Scratch W) : List (Call W) → List (Shift W) × Scratch W
  | [] => ([], scratch)
  | call :: calls =>
    let (best, scratch) := call.schedule.bestRipple scratch call.start call.size
    let (rest, scratch) := ripples scratch calls
    (best :: rest, scratch)

theorem ripples_eq {calls : List (Call W)} {allocs : Nat} (h : ∀ call ∈ calls, call.Valid allocs) :
    (ripples (Scratch.clean allocs) calls).2 = Scratch.clean allocs ∧
      calls.mapM (fun call => call.schedule.bestSimple call.start call.size) =
        .ok (ripples (Scratch.clean allocs) calls).1 := by
  induction calls with
  | nil => exact ⟨rfl, rfl⟩
  | cons call calls ih =>
    obtain ⟨hu, hw, rfl⟩ := h call List.mem_cons_self
    obtain ⟨hclean, hrest⟩ := ih fun c hc => h c (List.mem_cons_of_mem _ hc)
    unfold ripples
    dsimp only
    rw [hu.bestRipple_eq hw]
    refine ⟨hclean, ?_⟩
    rw [List.mapM_cons, hu.bestSimple_eq hw, hrest]
    rfl

end Calls

end Liveness.Schedule
