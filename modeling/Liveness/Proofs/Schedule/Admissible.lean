import Liveness.Proofs.Schedule.Legal
import Liveness.Proofs.Success
import Liveness.Schedule.Improvement

/-! # What the searches can find

A search only finds moves that the rooms of the window allow and that keep all links.
So whatever the weights are, carrying out what it found keeps a schedule legal.
-/

namespace Liveness.Schedule

open Success

variable {W R : Type} [Weight W] {s : Schedule W} {start target n : Nat}

/-- A move that the rooms of its window allow. One that goes anywhere keeps all links. -/
structure Admissible (s : Schedule W) (m : Move) : Prop where
  inRange : m.start + m.size ≤ s.opCount
  ahead : m.target ≤ m.start + s.roomAheadAt m.size m.start
  back : m.start ≤ m.target + s.roomBackAt m.size m.start
  links : m.target ≠ m.start → s.keepsLinksEitherWay m.start m.target m.size = true

def moveBy (start n : Nat) (distance : Int) : Move := ⟨start, ((start : Int) + distance).toNat, n⟩

namespace Admissible

variable {m : Move}

theorem move_inRange (h : s.Admissible m) (hs : s.Coherent) : m.InRange s.opCount := by
  have hr := ((hs.le_roomAheadAt_iff h.inRange).mp (Nat.le_refl _)).1
  have := h.ahead
  exact ⟨h.inRange, by omega⟩

theorem independent (h : s.Admissible m) (hs : s.Coherent) {a b c : Nat}
    (hb : m.bounds = (a, b, c)) : s.Independent a b c := by
  rcases Move.bounds_cases hb with ⟨hle, rfl, rfl, rfl⟩ | ⟨hlt, rfl, rfl, rfl⟩
  · have hk : m.target - m.start ≤ s.roomAheadAt m.size m.start := by
      have := h.ahead
      omega
    have hi := ((hs.le_roomAheadAt_iff_independent h.inRange).mp hk).2
    rwa [show m.start + m.size + (m.target - m.start) = m.target + m.size by omega] at hi
  · have hk : m.start - m.target ≤ s.roomBackAt m.size m.start := by
      have := h.back
      omega
    have hi := ((hs.le_roomBackAt_iff_independent h.inRange).mp hk).2
    rwa [show m.start - (m.start - m.target) = m.target by omega] at hi

theorem legal (h : s.Admissible m) (hs : s.Coherent) (hl : s.Legal) (hn : 0 < m.size) :
    (s.apply m).Legal := by
  obtain ⟨a, b, c, hb, hab, hbc, hc⟩ := Move.bounds_inRange (h.move_inRange hs)
  have e := hs.exchanged_apply hb hab hbc hc
  have hcases := Move.bounds_cases hb
  by_cases ht : m.target = m.start
  · obtain rfl : b = c := by omega
    have hp : ∀ {x}, x < s.opCount → (s.apply m).placeOf x = s.placeOf x := by
      intro x hx
      rw [e.placeOf hx]
      unfold Move.landing
      grind
    constructor
    · intro x y hxy
      rw [graph_apply] at hxy
      rw [hp (Graph.lt_of_mem_outs hxy), hp (hs.wellFormed.outs_lt hxy)]
      exact hl.before hxy
    · intro x y hxy
      rw [graph_apply] at hxy
      rw [hp (Graph.lt_of_fwdLink hxy), hp (hs.wellFormed.link_lt hxy)]
      exact hl.linked hxy
  · have hu := (keepsLinksEitherWay_iff hb (Ne.symm ht)).mp (h.links ht)
    exact e.legal hs hl (by omega) (by omega) (h.independent hs hb) hu

omit [Weight W] in
theorem stay (hw : start + n ≤ s.opCount) : s.Admissible (moveBy start n 0) := by
  refine ⟨hw, ?_, ?_, fun hne => absurd ?_ hne⟩ <;> simp [moveBy]

end Admissible

section Ripple

theorem length_advanceAll (direction : Direction) (w : Wave W) (steps : List Nat) :
    (s.advanceAll start n direction w steps).2.length = steps.length := by
  induction steps generalizing w with
  | nil => rfl
  | cons step steps ih => exact congrArg (· + 1) (ih _)

@[simp]
theorem length_sweep (scratch : Scratch W) (direction : Direction) (steps : Nat) :
    (s.sweep scratch start n direction steps).1.length = steps := by
  exact (length_advanceAll direction _ _).trans List.length_range'

omit [Weight W] in
theorem mem_backwardShifts {prices : List W} {p : Int × W} (h : p ∈ backwardShifts prices) :
    ∃ k < prices.length, p.1 = -(k + 1 : Int) := by
  obtain ⟨⟨w, k⟩, hm, rfl⟩ := List.mem_map.mp (List.mem_reverse.mp h)
  exact ⟨k, (List.mem_zipIdx' hm).1, rfl⟩

omit [Weight W] in
theorem mem_forwardShifts {prices : List W} {p : Int × W} (h : p ∈ forwardShifts prices) :
    ∃ k < prices.length, p.1 = (k + 1 : Int) := by
  obtain ⟨⟨w, k⟩, hm, rfl⟩ := List.mem_map.mp h
  exact ⟨k, (List.mem_zipIdx' hm).1, rfl⟩

theorem better_admissible {best : Shift W} {p : Int × W} (hw : start + n ≤ s.opCount)
    (hb : s.Admissible (moveBy start n best.distance))
    (ha : (moveBy start n p.1).target ≤ start + s.roomAheadAt n start)
    (hk : start ≤ (moveBy start n p.1).target + s.roomBackAt n start) :
    s.Admissible (moveBy start n (s.better start n best p).distance) := by
  unfold better
  dsimp only
  split
  · next h =>
    rw [Bool.and_eq_true] at h
    exact ⟨hw, ha, hk, fun _ => h.2⟩
  · exact hb

theorem bestRipple_admissible (h : s.UpToDate n) (hw : start + n ≤ s.opCount)
    (scratch : Scratch W) :
    s.Admissible (moveBy start n (s.bestRipple scratch start n).1.distance) := by
  have hi : start < s.windowCount n := by
    unfold windowCount
    omega
  have hahead := h.ahead_eq hi
  have hback := h.back_eq hi
  have hroom : s.roomBackAt n start ≤ start :=
    (h.toCoherent.le_roomBackAt_iff.mp (Nat.le_refl _)).1
  unfold bestRipple
  dsimp only
  refine List.foldlRecOn (motive := fun b : Shift W => s.Admissible (moveBy start n b.distance))
    _ _ ?_ fun b hb p hp => ?_
  · refine List.foldlRecOn (motive := fun b : Shift W => s.Admissible (moveBy start n b.distance))
      _ _ (.stay hw) fun b hb p hp => ?_
    obtain ⟨k, hk, he⟩ := mem_backwardShifts hp
    have hk' : k < s.back start := by
      split at hk
      · simpa using hk
      · simp at hk
    refine better_admissible hw hb ?_ ?_ <;> simp only [moveBy, he] <;> omega
  · obtain ⟨k, hk, he⟩ := mem_forwardShifts hp
    have hk' : k < s.ahead start := by
      split at hk
      · simpa using hk
      · simp at hk
    refine better_admissible hw hb ?_ ?_ <;> simp only [moveBy, he] <;> omega

end Ripple

section Simple

theorem mem_targets {back ahead : Nat} (h : target ∈ targets start n back ahead) :
    start ≤ target + back ∧ target ≤ start + ahead := by
  unfold targets at h
  have hm := List.mem_range'_1.mp h
  split at hm <;> split at hm <;> omega

theorem tryTarget_eq {t : Trial W} {a b c : Nat} (hne : target ≠ start)
    (hb : (⟨start, target, n⟩ : Move).bounds = (a, b, c)) :
    let moved := place (Move.exchange s.ops a b c) a c t.places
    let total := s.graph.totalLiveness fun op => moved.getD op 0
    s.tryTarget start n t target =
      ⟨if Weight.lt total t.best.cost && s.keepsLinksEitherWay start target n then
        ⟨(target : Int) - start, total⟩ else t.best, place s.ops a c moved⟩ := by
  have he : (if start < target then (start, start + n, target + n)
      else (target, start, start + n)) = (a, b, c) := by
    rw [← hb]
    split
    · next h => exact (Move.bounds_forward (m := ⟨start, target, n⟩) (Nat.le_of_lt h)).symm
    · next h =>
      refine (Move.bounds_backward (m := ⟨start, target, n⟩) ?_).symm
      dsimp only
      omega
  unfold tryTarget
  rw [if_neg hne, he]
  dsimp only
  split <;> rfl

theorem tryTarget_admissible {t : Trial W} (hw : start + n ≤ s.opCount)
    (hb : s.Admissible (moveBy start n t.best.distance))
    (ha : target ≤ start + s.roomAheadAt n start) (hk : start ≤ target + s.roomBackAt n start) :
    s.Admissible (moveBy start n (s.tryTarget start n t target).best.distance) := by
  by_cases hne : target = start
  · rw [tryTarget, if_pos hne]
    exact hb
  · rw [tryTarget_eq hne rfl]
    dsimp only
    split
    · next h =>
      rw [Bool.and_eq_true] at h
      have ht : moveBy start n ((target : Int) - start) = ⟨start, target, n⟩ := by
        unfold moveBy
        rw [show (start : Int) + ((target : Int) - start) = target by omega, Int.toNat_natCast]
      rw [ht]
      exact ⟨hw, ha, hk, fun _ => h.2⟩
    · exact hb

theorem bestSimple_admissible {best : Shift W} (hw : start + n ≤ s.opCount)
    (h : s.bestSimple start n = .ok best) : s.Admissible (moveBy start n best.distance) := by
  unfold bestSimple at h
  dsimp only at h
  split at h
  · cases h
  · obtain rfl := Except.ok.inj h
    refine List.foldlRecOn
      (motive := fun t : Trial W => s.Admissible (moveBy start n t.best.distance))
      _ _ (.stay hw) fun t ht target hm => ?_
    obtain ⟨hback, hahead⟩ := mem_targets hm
    exact tryTarget_admissible hw ht hahead hback

end Simple

theorem bestShift_eq_ok {settings : SettingsOver R} {scratch : Scratch W}
    {p : Shift W × Scratch W} : s.bestShift settings scratch start n = .ok p ↔
      s.bestFound settings scratch start n = .ok p ∧ (settings.checked = true →
        ∃ reference, s.bestSimple start n = .ok reference ∧ p.1.agrees reference = true) := by
  unfold bestShift
  rw [bind_eq_ok]
  have hc : ∀ (q : Shift W × Scratch W) (reference : Shift W),
      (if !q.1.agrees reference then do
        throw (Error.costMismatch start n (s.mismatchText settings q.1 reference))
        pure q
      else pure q : Except Error (Shift W × Scratch W)) = .ok p ↔
        q.1.agrees reference = true ∧ q = p := by
    intro q reference
    rw [throwIf_bind_eq_ok, pure_eq_ok, Bool.not_eq_true', Bool.not_eq_false]
  constructor
  · rintro ⟨q, hq, h⟩
    dsimp only at h
    split at h
    · obtain ⟨reference, hr, h⟩ := bind_eq_ok.mp h
      obtain ⟨ha, rfl⟩ := (hc q reference).mp h
      exact ⟨hq, fun _ => ⟨reference, hr, ha⟩⟩
    · next hn =>
      obtain rfl := pure_eq_ok.mp h
      exact ⟨hq, fun hc => absurd hc hn⟩
  · rintro ⟨hp, h⟩
    refine ⟨p, hp, ?_⟩
    dsimp only
    split
    · next hs =>
      obtain ⟨reference, hr, ha⟩ := h hs
      exact bind_eq_ok.mpr ⟨reference, hr, (hc p reference).mpr ⟨ha, rfl⟩⟩
    · rfl

/-- Whatever the settings are, a search finds an admissible move. -/
theorem bestShift_admissible {settings : SettingsOver R} {scratch scratch' : Scratch W}
    {best : Shift W} (h : s.UpToDate n) (hw : start + n ≤ s.opCount)
    (hs : s.bestShift settings scratch start n = .ok (best, scratch')) :
    s.Admissible (moveBy start n best.distance) := by
  have hf := (bestShift_eq_ok.mp hs).1
  unfold bestFound at hf
  split at hf
  · have := bestRipple_admissible h hw scratch
    rwa [Except.ok.inj hf] at this
  · cases hb : s.bestSimple start n with
    | error e => rw [hb] at hf; cases hf
    | ok found =>
      rw [hb] at hf
      obtain ⟨rfl, -⟩ := Prod.mk.inj (Except.ok.inj hf)
      exact bestSimple_admissible hw hb

end Liveness.Schedule
