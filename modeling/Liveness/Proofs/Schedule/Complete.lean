import Liveness.Proofs.Refinement.RoundSuccess
import Liveness.Proofs.Schedule.FirstOrder
import Liveness.Proofs.Schedule.Termination

/-! # Scheduling succeeds wherever there is a valid order

A run never fails and comes to an end. So a schedule is only missing where there is no valid
order, and then a cycle is reported.
-/

namespace Liveness

open Success

variable {W R : Type} [Weight W] [ExactWeight W] {g : Graph W}

namespace Graph

variable [FiniteWeight W] [Priority R] {settings : SettingsOver R}
  {source : Random.Source}

omit [FiniteWeight W] in
theorem schedule_of_firstOrder {refined : Graph W} {refining : Log W} {order : List Nat}
    (hg : g.Built) (hl : g.LinksHeld) (hr : g.refine settings.passes = .ok (refined, refining))
    (ho : refined.firstOrder source settings = .ok order) (timeUp : Nat → Bool) :
    ∃ s log, g.schedule source settings timeUp = .ok (s, log) := by
  have ht := refine_tightens hg.wellFormed hl hr
  have hi := Schedule.ofOrder_intact_of_validOrder ht.wellFormed
    (Kahn.validOrder_of_schedule ht.wellFormed.toOrdered ht.linksHeld ho)
  obtain ⟨s, improving, himp⟩ := Schedule.improve_succeeds hi rfl
    (Plan.ofSettings source settings refined.opCount timeUp)
  unfold schedule
  rw [hr]
  simp only [bind, Except.bind, ho, hi.check]
  rw [show (Schedule.ofOrder refined order).opCount = refined.opCount from rfl, himp]
  exact ⟨_, _, rfl⟩

section Built

variable (hg : g.Built) (hl : g.LinksHeld) (hp : ∀ p ∈ settings.priorities, p.1 < g.opCount)

include hg hl hp

theorem kind_of_schedule {timeUp : Nat → Bool} {e : Error}
    (h : g.schedule source settings timeUp = .error e) : e.kind = .cycle := by
  cases hr : g.refine settings.passes with
  | error e' =>
    unfold schedule at h
    rw [hr] at h
    obtain rfl := Except.error.inj h
    exact kind_of_refine hg.wellFormed hl hr
  | ok result =>
    obtain ⟨refined, refining⟩ := result
    have ht := refine_tightens hg.wellFormed hl hr
    cases ho : refined.firstOrder source settings with
    | error e' =>
      unfold schedule at h
      rw [hr] at h
      simp only [bind, Except.bind, ho] at h
      obtain rfl := Except.error.inj h
      exact Kahn.kind_of_schedule ht.wellFormed.toOrdered (ht.opCount ▸ hp) ho
    | ok order =>
      obtain ⟨s, log, hs⟩ := schedule_of_firstOrder hg hl hr ho timeUp
      cases hs.symm.trans h

omit hp [FiniteWeight W] in
/-- The run of a schedule is not cut off, and a limit that it names as the reason for its end has
been passed. -/
theorem schedule_stopped {timeUp : Nat → Bool} {s : Schedule W} {log : Log W}
    (h : g.schedule source settings timeUp = .ok (s, log))
    (hb : settings.budget.isExhausted = false) :
    s.stats.rounds ≤ (g.opCount + 1) * g.opCount.factorial ∧
      (s.ending = .swapLimited → settings.budget.swapLimit ≤ (s.stats.changes : Int)) ∧
      (s.ending = .timeLimited → timeUp s.stats.rounds = true) := by
  obtain ⟨refined, refining, order, improving, hr, ho, hc, hi⟩ := schedule_eq_ok h
  have ht := refine_tightens hg.wellFormed hl hr
  have hv := Kahn.validOrder_of_schedule ht.wellFormed.toOrdered ht.linksHeld ho
  obtain ⟨q, t, log', -, himp, rfl, hrounds, -, hstop⟩ :=
    Schedule.improve_ends (refine_built hg hr) hv (Plan.ofSettings source settings _ timeUp) hb
  obtain ⟨rfl, -⟩ := Prod.mk.inj (Except.ok.inj (hi.symm.trans himp))
  rw [ht.opCount] at hrounds
  unfold Phase.Stopped at hstop
  refine ⟨hrounds, fun he => ?_, fun he => ?_⟩
  · rw [show q.schedule.ending = .swapLimited from he] at hstop
    exact hstop
  · rw [show q.schedule.ending = .timeLimited from he] at hstop
    exact hstop

variable [LawfulPriority R]

/-- With exact and finite weights, and priorities for Ops that exist, a graph whose links all
have their constraints gets a schedule exactly when it has a valid order. Otherwise the
error is a cycle, and no run ever fails in another way. A run that starts is never cut off: its
rounds are bounded, and it only names a limit that has been passed. The values of the priorities
may be any doubles, also those that are no numbers. -/
theorem schedule_succeeds_iff (timeUp : Nat → Bool) :
    ((∃ s log, g.schedule source settings timeUp = .ok (s, log)) ↔ ∃ order, g.ValidOrder order) ∧
      ((¬ ∃ order, g.ValidOrder order) →
        ∃ e, g.schedule source settings timeUp = .error e ∧ e.kind = .cycle) ∧
      (∀ e, g.schedule source settings timeUp = .error e → e.kind ≠ .internal) ∧
      ∀ s log, g.schedule source settings timeUp = .ok (s, log) →
        settings.budget.isExhausted = false →
        s.stats.rounds ≤ (g.opCount + 1) * g.opCount.factorial ∧
          (s.ending = .swapLimited → settings.budget.swapLimit ≤ (s.stats.changes : Int)) ∧
          (s.ending = .timeLimited → timeUp s.stats.rounds = true) := by
  have hiff : (∃ s log, g.schedule source settings timeUp = .ok (s, log)) ↔
      ∃ order, g.ValidOrder order := by
    constructor
    · rintro ⟨s, log, h⟩
      obtain ⟨n, refined, ht, hs⟩ := schedule_intact hg.wellFormed hl h
      exact ⟨_, ht.toRefines.validOrder hs.validOrder⟩
    · intro hs
      obtain ⟨refined, refining, hr, hrs⟩ := refine_succeeds hg.wellFormed hl hs settings.passes
      have ht := refine_tightens hg.wellFormed hl hr
      obtain ⟨order, ho⟩ := Kahn.schedule_of_schedulable ht.wellFormed.toOrdered
        (fun s _ => source.below_lt s) (ht.opCount ▸ hp) hrs
      exact schedule_of_firstOrder hg hl hr ho timeUp
  refine ⟨hiff, fun hno => ?_, fun e he => ?_, fun s log h => schedule_stopped hg hl h⟩
  · cases h : g.schedule source settings timeUp with
    | error e => exact ⟨e, rfl, kind_of_schedule hg hl hp h⟩
    | ok result => exact absurd (hiff.mp ⟨_, _, h⟩) hno
  · rw [kind_of_schedule hg hl hp he]
    decide

end Built

section Chains

open Numbers

/-- The linked chains get a schedule, and the knotted ones a cycle. -/
theorem linkedChains_succeed_and_knottedChains_fail :
    (∃ s log, linkedChains.schedule Random.chaCha SettingsOver.firstReady
        (fun _ => false) = .ok (s, log)) ∧
      ∃ e, knottedChains.schedule Random.chaCha SettingsOver.firstReady
        (fun _ => false) = .error e ∧ e.kind = .cycle := by
  constructor
  · have hok : ∃ order, linkedChains.ValidOrder order := ⟨_, linkedChains_validOrder⟩
    exact (schedule_succeeds_iff linkedChains_built linkedChains_linksHeld (by decide) _).1.mpr hok
  · exact (schedule_succeeds_iff knottedChains_built knottedChains_linksHeld (by decide) _).2.1
      knottedChains_not_schedulable

end Chains

end Graph

end Liveness
