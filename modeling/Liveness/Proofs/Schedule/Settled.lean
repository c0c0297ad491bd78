import Liveness.Proofs.Schedule.Searches

/-! # Settled window sizes

A window size is settled when no window of this size can be moved past a block of at
least its own size so that the total liveness falls. A search that finds nothing for any
window of the size settles it.
-/

namespace Liveness.Schedule

variable {W : Type} [Weight W] [ExactWeight W] {s t : Schedule W} {start target n k : Nat}

/-- No exchange of a block of size `k` with one of at least this size lowers the total
liveness, if it keeps all constraints and links. -/
def Settled (s : Schedule W) (k : Nat) : Prop :=
  ∀ ⦃a b c⦄, a < b → b < c → c ≤ s.opCount → s.Independent a b c → s.Unlinked a b c →
    (b - a = k ∧ k ≤ c - b ∨ c - b = k ∧ k ≤ b - a) → Weight.lt (s.exchangePrice a b c) 0 = false

theorem Settled.congr (h : s.Settled k)
    (he : t = { s with
      liveness := t.liveness, roomAhead := t.roomAhead, roomBack := t.roomBack
      susceptible := t.susceptible, ending := t.ending, stats := t.stats }) : t.Settled k := by
  rw [he]
  intro a b c hab hbc hc hi hu hk
  exact h hab hbc hc hi ⟨hu.first, hu.before_mid, hu.mid, hu.last⟩ hk

section Fold

variable {best : Shift W} {p : Int × W}

theorem better_lt (hb : Weight.lt best.cost 0 = true) :
    Weight.lt (s.better start n best p).cost 0 = true := by
  unfold better
  dsimp only
  split
  · next h =>
    rw [Bool.and_eq_true] at h
    exact Weight.lt_trans h.1 hb
  · exact hb

theorem better_lt_of_candidate (hp : Weight.lt p.2 0 = true)
    (hl : s.keepsLinksEitherWay start ((start : Int) + p.1).toNat n = true) :
    Weight.lt (s.better start n best p).cost 0 = true := by
  unfold better
  dsimp only
  rw [hl, Bool.and_true]
  split
  · exact hp
  · next h => exact Weight.lt_of_le_of_lt (Weight.le_of_not_lt (by simpa using h)) hp

theorem foldl_better_lt {ps : List (Int × W)} (hb : Weight.lt best.cost 0 = true) :
    Weight.lt (ps.foldl (s.better start n) best).cost 0 = true :=
  List.foldlRecOn (motive := fun best : Shift W => Weight.lt best.cost 0 = true) ps _ hb
    fun _ hb _ _ => better_lt hb

theorem not_lt_of_foldl_better {ps : List (Int × W)}
    (hb : Weight.lt (ps.foldl (s.better start n) best).cost 0 = false) (hp : p ∈ ps)
    (hl : s.keepsLinksEitherWay start ((start : Int) + p.1).toNat n = true) :
    Weight.lt p.2 0 = false := by
  refine Bool.eq_false_iff.mpr fun hlt => ?_
  obtain ⟨before, after, rfl⟩ := List.append_of_mem hp
  rw [List.foldl_append, List.foldl_cons, foldl_better_lt (better_lt_of_candidate hlt hl)] at hb
  cases hb

end Fold

omit [Weight W] [ExactWeight W] in
theorem mem_targets_forward {back ahead : Nat} (hn : n ≤ ahead) (hs : start ≤ target)
    (ht : target ≤ start + ahead) : target ∈ targets start n back ahead := by
  unfold targets
  refine List.mem_range'_1.mpr ?_
  split <;> split <;> omega

omit [Weight W] [ExactWeight W] in
theorem mem_targets_backward {back ahead : Nat} (hn : n ≤ back) (hb : back ≤ start)
    (hs : target < start) (ht : start ≤ target + back) : target ∈ targets start n back ahead := by
  unfold targets
  refine List.mem_range'_1.mpr ?_
  split <;> split <;> omega

theorem not_lt_of_bestOf (hb : Weight.lt (s.bestOf start n).cost 0 = false)
    (ht : target ∈ targets start n (s.back start) (s.ahead start)) (hne : target ≠ start)
    (hl : s.keepsLinksEitherWay start target n = true) :
    Weight.lt (s.priceAt start n target) 0 = false := by
  have hp : ((target : Int) - start, s.priceAt start n target) ∈ s.priced start n
      ((targets start n (s.back start) (s.ahead start)).filter fun target => target ≠ start) :=
    List.mem_map.mpr ⟨target, List.mem_filter.mpr ⟨ht, decide_eq_true hne⟩, rfl⟩
  refine not_lt_of_foldl_better (p := ((target : Int) - start, s.priceAt start n target)) hb hp ?_
  rw [show ((start : Int) + ((target : Int) - start)).toNat = target by omega]
  exact hl

section Idle

variable {a b c : Nat} (h : s.UpToDate k) (hab : a < b) (hbc : b < c) (hc : c ≤ s.opCount)
  (hi : s.Independent a b c) (hu : s.Unlinked a b c)

include h hab hbc hc hi hu

/-- When the search for the first block finds nothing, moving it ahead past the second one
does not lower the liveness. -/
theorem UpToDate.not_lt_of_idle_ahead (hk : b - a = k) (hle : k ≤ c - b)
    (hb : Weight.lt (s.bestOf a k).cost 0 = false) : Weight.lt (s.exchangePrice a b c) 0 = false := by
  subst hk
  have hw : a + (b - a) ≤ s.opCount := by omega
  have ht : a + (c - b) + (b - a) ≤ s.opCount := by omega
  have hne : a + (c - b) ≠ a := by omega
  have hm : (⟨a, a + (c - b), b - a⟩ : Move).bounds = (a, b, c) := by
    rw [Move.bounds_forward (Nat.le_add_right ..)]
    dsimp only
    rw [show a + (b - a) = b by omega, show a + (c - b) + (b - a) = c by omega]
  obtain ⟨x, o, z, hb', -, -, -, hprice⟩ := priceAt_eq hw ht hne
  obtain ⟨rfl, rfl, rfl⟩ : a = x ∧ b = o ∧ c = z := by simpa using hm.symm.trans hb'
  have hroom : c - b ≤ s.ahead a := by
    rw [(h.room_eq hw).1, h.toCoherent.le_roomAheadAt_iff_independent hw]
    rw [show a + (b - a) = b by omega, show b + (c - b) = c by omega]
    exact ⟨hc, hi⟩
  rw [← hprice]
  exact not_lt_of_bestOf hb (mem_targets_forward (by omega) (by omega) (by omega)) hne
    ((keepsLinksEitherWay_iff hm hne.symm).mpr hu)

theorem UpToDate.not_lt_of_idle_back (hk : c - b = k) (hle : k ≤ b - a)
    (hb : Weight.lt (s.bestOf b k).cost 0 = false) : Weight.lt (s.exchangePrice a b c) 0 = false := by
  subst hk
  have hw : b + (c - b) ≤ s.opCount := by omega
  have ht : a + (c - b) ≤ s.opCount := by omega
  have hm : (⟨b, a, c - b⟩ : Move).bounds = (a, b, c) := by
    rw [Move.bounds_backward hab]
    dsimp only
    rw [show b + (c - b) = c by omega]
  obtain ⟨x, o, z, hb', -, -, -, hprice⟩ := priceAt_eq hw ht (Nat.ne_of_lt hab)
  obtain ⟨rfl, rfl, rfl⟩ : a = x ∧ b = o ∧ c = z := by simpa using hm.symm.trans hb'
  obtain ⟨-, hback, hbs, -⟩ := h.room_eq hw
  have hroom : b - a ≤ s.back b := by
    rw [hback, h.toCoherent.le_roomBackAt_iff_independent hw]
    rw [show b - (b - a) = a by omega, show b + (c - b) = c by omega]
    exact ⟨by omega, hi⟩
  rw [← hprice]
  exact not_lt_of_bestOf hb (mem_targets_backward (by omega) hbs hab (by omega))
    (Nat.ne_of_lt hab) ((keepsLinksEitherWay_iff hm (Nat.ne_of_gt hab)).mpr hu)

end Idle

/-- A size is settled when no search for one of its windows finds anything. -/
theorem UpToDate.settled (h : s.UpToDate k)
    (hb : ∀ start, start + k ≤ s.opCount → (s.graph.op (s.opAt start)).bwdLink = none →
      (s.graph.op (s.opAt (start + k - 1))).fwdLink = none →
      Weight.lt (s.bestOf start k).cost 0 = false) : s.Settled k := by
  rintro a b c hab hbc hc hi hu (⟨hk, hle⟩ | ⟨hk, hle⟩)
  · refine h.not_lt_of_idle_ahead hab hbc hc hi hu hk hle (hb a (by omega) hu.first ?_)
    rw [show a + k - 1 = b - 1 by omega]
    exact hu.before_mid
  · refine h.not_lt_of_idle_back hab hbc hc hi hu hk hle (hb b (by omega) hu.mid ?_)
    rw [show b + k - 1 = c - 1 by omega]
    exact hu.last

/-- Where all smaller sizes are settled and no window of size `n` has room for more than
`n` places, only an exchange of two blocks of size `n` can lower the total liveness. -/
theorem UpToDate.not_lt_of_settled (h : s.UpToDate n) (hs : ∀ k, 0 < k → k < n → s.Settled k)
    (hroom : ∀ i, i + n ≤ s.opCount → s.ahead i ≤ n ∧ s.back i ≤ n) {a b c : Nat} (hab : a < b)
    (hbc : b < c) (hc : c ≤ s.opCount) (hi : s.Independent a b c) (hu : s.Unlinked a b c)
    (hne : ¬ (b - a = n ∧ c - b = n)) : Weight.lt (s.exchangePrice a b c) 0 = false := by
  by_cases hmin : b - a < n ∨ c - b < n
  · by_cases hle : b - a ≤ c - b
    · exact hs (b - a) (by omega) (by omega) hab hbc hc hi hu (.inl ⟨rfl, hle⟩)
    · exact hs (c - b) (by omega) (by omega) hab hbc hc hi hu (.inr ⟨rfl, by omega⟩)
  · -- Otherwise a part of one block would have more room than any window has.
    exfalso
    by_cases hlong : n < c - b
    · have hw : b - n + n ≤ s.opCount := by omega
      have hle := (hroom (b - n) hw).1
      rw [(h.room_eq hw).1] at hle
      have hr : c - b ≤ s.roomAheadAt n (b - n) := by
        rw [h.toCoherent.le_roomAheadAt_iff_independent hw, show b - n + n = b by omega,
          show b + (c - b) = c by omega]
        exact ⟨hc, fun x y hxy hx => hi hxy (by omega)⟩
      omega
    · have hw : b + n ≤ s.opCount := by omega
      have hle := (hroom b hw).2
      rw [(h.room_eq hw).2.1] at hle
      have hr : b - a ≤ s.roomBackAt n b := by
        rw [h.toCoherent.le_roomBackAt_iff_independent hw, show b - (b - a) = a by omega]
        refine ⟨by omega, fun x y hxy hx hx' hy => ?_⟩
        have := hi hxy hx hx' hy
        omega
      omega

end Liveness.Schedule
