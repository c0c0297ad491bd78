import Liveness.Proofs.Schedule.Accounts
import Liveness.Proofs.Schedule.Again

/-! # Runs succeed

With exact weights no check of a run fails: the searches agree, every move leaves a schedule
that passes its check, and the books are balanced.
-/

namespace Liveness

open Success

variable {W R : Type} [Weight W] [ExactWeight W] {g : Graph W} {n : Nat}

namespace Phase

variable {p : Phase W}

theorem runRound_succeeds (hp : p.Ready g) (plan : Plan R) : ∃ r, p.runRound plan = .ok r := by
  have hvisit : ∀ a ∈ plan.visits, ∀ r : Round W, r.Ready g p.window →
      ∃ r', Round.visit plan.settings p.schedule.susceptible p.window r a = .ok r' ∧
        r'.Ready g p.window := by
    intro a _ r hr
    have hv : Round.visit plan.settings p.schedule.susceptible p.window r a = .ok _ :=
      Round.visit_eq hp.pos hr
    exact ⟨_, hv, Round.visit_ready hp.pos hr hv⟩
  obtain ⟨r, hr, -⟩ := foldlM_succeeds (startRound_ready hp) hvisit
  exact ⟨r, hr⟩

theorem run_succeeds (hp : p.Ready g) (plan : Plan R) (rounds : Nat) :
    ∃ q, Phase.run plan rounds p = .ok q := by
  refine run_total (P := fun p : Phase W => p.Ready g) hp (fun p hp => ?_) rounds
  obtain ⟨r, hr⟩ := runRound_succeeds hp plan
  exact ⟨r, hr, afterRound_ready hp (runRound_ready hp hr)⟩

end Phase

namespace Schedule

variable {s : Schedule W} {p : Phase W} {initial m : W}

theorem closeBooks_succeeds (hp : p.schedule.Coherent) (hb : p.Booked initial) :
    ∃ log, closeBooks m p = .ok (p.schedule.closed, log) := by
  apply closeBooks_eq_ok
  have hsum : p.schedule.refreshLiveness.sumLiveness = p.schedule.total := hp.sum_livenessOf
  rw [hsum, hb.recorded, hb.total, add_sub_cancel_left]
  exact ExactWeight.toExactLaws.agree_self _

theorem improve_succeeds [Priority R] (hs : s.Intact g 1) (hl : s.liveness = s.livenessOf)
    (plan : Plan R) : ∃ t log, s.improve plan = .ok (t, log) := by
  have hready := beginPhase_ready hs
  have hbooked := beginPhase_booked hs.toCoherent hl
  unfold improve
  dsimp only
  split
  · obtain ⟨log, hlog⟩ := closeBooks_succeeds (m := s.maxLiveness)
      (p := s.beginPhase.finish (endingOf plan.settings.budget))
      (hready.intact.congr rfl).toCoherent ⟨hbooked.recorded, hbooked.total⟩
    exact ⟨_, log, hlog⟩
  · obtain ⟨q, hq⟩ := Phase.run_succeeds hready plan (roundLimit s.opCount)
    obtain ⟨log, hlog⟩ := closeBooks_succeeds (m := s.maxLiveness)
      (Phase.run_intact hready.pos hready.intact hq).toCoherent (Phase.run_booked hready hbooked hq)
    rw [hq]
    exact ⟨_, log, hlog⟩

end Schedule

end Liveness
