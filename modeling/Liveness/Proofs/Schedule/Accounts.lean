import Liveness.Proofs.Schedule.Liveness
import Liveness.Proofs.Schedule.Watched

/-! # Balanced accounts

The cost of a shift that lowers the liveness is the change of the total liveness. So through
a whole run the costs of all moves add up to the change of the total liveness, and the
books are closed without a difference.
-/

namespace Liveness

variable {W R : Type} [Weight W] [ExactWeight W] {g : Graph W} {initial : W} {n : Nat}

namespace Schedule

variable {s t : Schedule W} {start : Nat}

omit [ExactWeight W] in
theorem total_congr (hg : t.graph = s.graph) (hp : t.places = s.places) : t.total = s.total := by
  unfold total placeOf
  rw [hg, hp]

theorem UpToDate.total_apply_bestOf (h : s.UpToDate n) (hw : start + n ≤ s.opCount)
    (hlt : Weight.lt (s.bestOf start n).cost 0 = true) :
    (s.apply (moveBy start n (s.bestOf start n).distance)).total =
      s.total + (s.bestOf start n).cost := by
  rcases s.bestOf_cases start n with he | ⟨target, ht, hne, he⟩
  · rw [he, Shift.stay, Weight.lt_self] at hlt
    cases hlt
  · obtain ⟨hback, hahead⟩ := mem_targets ht
    obtain ⟨-, -, -, hin⟩ := h.room_eq hw
    have hm : moveBy start n (s.bestOf start n).distance = ⟨start, target, n⟩ := by
      rw [he, moveBy]
      dsimp only
      rw [show (start : Int) + ((target : Int) - start) = target by omega, Int.toNat_natCast]
    obtain ⟨a, b, c, hb, hab, hbc, hc, hprice⟩ := priceAt_eq hw (by omega) hne
    have hsub := (h.toCoherent.exchanged_apply hb hab hbc hc).total_sub h.toCoherent
    rw [hm, he, hprice, ← hsub, add_sub_cancel]

end Schedule

/-- The total liveness has changed from what is on record by the costs of all moves. -/
structure Round.Booked (initial : W) (r : Round W) : Prop where
  recorded : r.schedule.stats.initial = initial
  total : r.schedule.total = initial + r.accumulated

structure Phase.Booked (initial : W) (p : Phase W) : Prop where
  recorded : p.schedule.stats.initial = initial
  total : p.schedule.total = initial + p.accumulated

namespace Round

variable {settings : SettingsOver R} {touched : Array Bool} {r r' : Round W} {a : Nat}

theorem shifted_booked {start : Nat} (hs : r.schedule.UpToDate n)
    (hw : start + n ≤ r.schedule.opCount) (hb : r.Booked initial)
    (hlt : Weight.lt (r.schedule.bestOf start n).cost 0 = true) :
    (r.shifted start n (r.schedule.bestOf start n)).Booked initial := by
  constructor
  · exact (congrArg Stats.initial (Schedule.stats_apply _ _)).trans hb.recorded
  · dsimp only [shifted]
    rw [hs.total_apply_bestOf hw hlt, hb.total, add_assoc]

theorem visit_booked (hn : 0 < n) (hr : r.Ready g n) (hb : r.Booked initial)
    (h : visit settings touched n r a = .ok r') : r'.Booked initial := by
  rw [visit_eq hn hr] at h
  obtain rfl := Except.ok.inj h
  rcases visited_cases settings touched n r a with ⟨-, he⟩ | ⟨hc, hlt, he⟩
  · rwa [he]
  · rw [he]
    exact shifted_booked hr.intact.toUpToDate (Schedule.isCandidate_iff.mp hc).1 hb hlt

end Round

namespace Phase

variable {plan : Plan R} {p q : Phase W} {r : Round W}

theorem runRound_booked (hp : p.Ready g) (hb : p.Booked initial) (h : p.runRound plan = .ok r) :
    r.Booked initial :=
  runRound_keeps hp ⟨hb.recorded, hb.total⟩
    (fun _ _ _ hr hb hv => Round.visit_booked hp.pos hr hb hv) h

omit [ExactWeight W] in
theorem afterRound_booked (p : Phase W) (hr : r.Booked initial) :
    (p.afterRound r).Booked initial := by
  have hs := afterRound_schedule p r
  have hstats : (p.nextWindow r).schedule.stats.initial = r.schedule.stats.initial ∧
      (p.nextWindow r).accumulated = r.accumulated := by
    unfold nextWindow
    dsimp only
    split
    · exact ⟨rfl, rfl⟩
    · split <;> exact ⟨rfl, rfl⟩
  constructor
  · rw [hs]
    exact hstats.1.trans hr.recorded
  · have htotal : (p.afterRound r).schedule.total = r.schedule.total := by
      apply Schedule.total_congr <;> rw [hs]
    have hacc : (p.afterRound r).accumulated = r.accumulated := hstats.2
    rw [htotal, hacc, hr.total]

/-- Through a whole run the costs of the moves add up to the change of the total liveness. -/
theorem run_booked {rounds : Nat} (hp : p.Ready g) (hb : p.Booked initial)
    (h : Phase.run plan rounds p = .ok q) : q.Booked initial := by
  refine (run_keeps (P := fun p : Phase W => p.Ready g ∧ p.Booked initial) ⟨hp, hb⟩
    (fun p r hp hr => ?_) (fun p _ hp => ⟨hp.1.finish _, hp.2.recorded, hp.2.total⟩) h).2
  exact ⟨afterRound_ready hp.1 (runRound_ready hp.1 hr),
    afterRound_booked p (runRound_booked hp.1 hp.2 hr)⟩

end Phase

namespace Schedule

variable {s : Schedule W}

theorem beginPhase_booked (hs : s.Coherent) (hl : s.liveness = s.livenessOf) :
    s.beginPhase.Booked s.total := by
  have hsum : s.sumLiveness = s.total := by
    rw [sumLiveness, hl, hs.sum_livenessOf]
  obtain ⟨hg, hp, hi, ha⟩ : s.beginPhase.schedule.graph = s.graph ∧
      s.beginPhase.schedule.places = s.places ∧
      s.beginPhase.schedule.stats.initial = s.sumLiveness ∧ s.beginPhase.accumulated = 0 := by
    unfold beginPhase
    dsimp only
    split <;> exact ⟨rfl, rfl, rfl, rfl⟩
  exact ⟨hi.trans hsum, by rw [total_congr hg hp, ha, add_zero]⟩

end Schedule

end Liveness
