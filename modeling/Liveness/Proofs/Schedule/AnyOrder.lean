import Liveness.Proofs.Schedule.LiveWeights
import Liveness.Proofs.Schedule.Succeeds

/-! # Runs from any order

Searches and moves only need records that agree with the order of the Ops; the order need not
be valid. So from any order of all Ops a run that is not asked for checks ends, and whatever a
run ends with says what is live.
-/

namespace Liveness

open Success

variable {W R : Type} [Weight W] [ExactWeight W] {g : Graph W} {initial : W} {n : Nat}

namespace Round

variable {settings : SettingsOver R} {touched : Array Bool} {r r' : Round W} {a : Nat}

/-- A round with records that agree with the order, and with balanced books. -/
structure Tracked (g : Graph W) (initial : W) (n : Nat) (r : Round W) : Prop
    extends r.Booked initial where
  upToDate : r.schedule.UpToDate n
  graph_eq : r.schedule.graph = g
  scratch : r.scratch = Scratch.clean g.allocCount

namespace Tracked

theorem bestShift_eq {start : Nat} (hr : r.Tracked g initial n)
    (hw : start + n ≤ r.schedule.opCount) (settings : SettingsOver R) :
    r.schedule.bestShift settings r.scratch start n =
      .ok (r.schedule.bestOf start n, r.scratch) := by
  have hs : r.scratch = Scratch.clean r.schedule.allocCount := by
    rw [hr.scratch, Schedule.allocCount, hr.graph_eq]
  rw [hs]
  exact hr.upToDate.bestShift_eq hw settings

theorem shifted {start : Nat} (hr : r.Tracked g initial n) (hw : start + n ≤ r.schedule.opCount)
    (hlt : Weight.lt (r.schedule.bestOf start n).cost 0 = true) :
    (r.shifted start n (r.schedule.bestOf start n)).Tracked g initial n where
  toBooked := shifted_booked hr.upToDate hw hr.toBooked hlt
  upToDate := by
    have hadm := hr.upToDate.bestOf_admissible hw
    exact hr.upToDate.apply (hadm.move_inRange hr.upToDate.toCoherent)
  graph_eq := (Schedule.graph_apply _ _).trans hr.graph_eq
  scratch := hr.scratch

theorem visit (hr : r.Tracked g initial n)
    (h : Round.visit settings touched n r a = .ok r') : r'.Tracked g initial n := by
  rcases visit_cases h with ⟨-, rfl⟩ | ⟨hc, best, scratch, hb, hcase⟩
  · exact hr
  · have hw := (Schedule.isCandidate_iff.mp hc).1
    rw [hr.bestShift_eq hw] at hb
    obtain ⟨rfl, rfl⟩ := Prod.mk.inj (Except.ok.inj hb)
    rcases hcase with ⟨-, rfl⟩ | ⟨hlt, rfl⟩
    · exact hr
    · exact hr.shifted hw hlt

theorem visit_succeeds (hr : r.Tracked g initial n) (hc : settings.checked = false) :
    ∃ r', Round.visit settings touched n r a = .ok r' := by
  unfold Round.visit
  dsimp only
  split
  · exact ⟨_, rfl⟩
  · next hcand =>
    have hw := (Schedule.isCandidate_iff.mp (by simpa using hcand)).1
    rw [hr.bestShift_eq hw]
    simp only [orFail, bind, Except.bind]
    split
    · refine ⟨_, shift_eq_ok.mpr ⟨fun h => ?_, rfl⟩⟩
      cases hc.symm.trans h
    · exact ⟨_, rfl⟩

end Tracked

end Round

namespace Phase

variable {plan : Plan R} {p q : Phase W} {r : Round W}

/-- A phase with records that agree with the order, and with balanced books. -/
structure Tracked (g : Graph W) (initial : W) (p : Phase W) : Prop
    extends p.Booked initial where
  upToDate : p.schedule.UpToDate p.window
  graph_eq : p.schedule.graph = g
  scratch : p.scratch = Scratch.clean g.allocCount

namespace Tracked

omit [ExactWeight W]

theorem finish (hp : p.Tracked g initial) (ending : Ending) :
    (p.finish ending).Tracked g initial :=
  ⟨⟨hp.recorded, hp.total⟩, hp.upToDate.congr rfl, hp.graph_eq, hp.scratch⟩

theorem startRound (hp : p.Tracked g initial) : p.startRound.Tracked g initial p.window :=
  ⟨⟨hp.recorded, hp.total⟩, hp.upToDate.congr rfl, hp.graph_eq, hp.scratch⟩

theorem afterRound (p : Phase W) (hr : r.Tracked g initial p.window) :
    (p.afterRound r).Tracked g initial where
  toBooked := afterRound_booked p hr.toBooked
  upToDate := afterRound_upToDate hr.upToDate
  graph_eq := by
    rw [afterRound_schedule]
    exact hr.graph_eq
  scratch := (afterRound_scratch p r).trans hr.scratch

end Tracked

namespace Tracked

theorem runRound (hp : p.Tracked g initial) (h : p.runRound plan = .ok r) :
    r.Tracked g initial p.window := by
  rw [runRound_eq] at h
  exact foldlM_keeps (P := Round.Tracked g initial p.window) hp.startRound
    (fun a _ r r' hr h => hr.visit h) h

theorem runRound_succeeds (hp : p.Tracked g initial) (hc : plan.settings.checked = false) :
    ∃ r, p.runRound plan = .ok r := by
  rw [runRound_eq]
  have hvisit : ∀ a ∈ plan.visits, ∀ r : Round W, r.Tracked g initial p.window → ∃ r',
      Round.visit plan.settings p.schedule.susceptible p.window r a = .ok r' ∧
        r'.Tracked g initial p.window := fun a _ r hr => by
    obtain ⟨r', h⟩ := hr.visit_succeeds hc
    exact ⟨r', h, hr.visit h⟩
  obtain ⟨r, hr, -⟩ := foldlM_succeeds hp.startRound hvisit
  exact ⟨r, hr⟩

theorem run {rounds : Nat} (hp : p.Tracked g initial) (h : Phase.run plan rounds p = .ok q) :
    q.Tracked g initial :=
  run_keeps (P := fun p : Phase W => p.Tracked g initial) hp
    (fun p _ hp hr => .afterRound p (hp.runRound hr)) (fun _ ending hp => hp.finish ending) h

theorem run_succeeds (hp : p.Tracked g initial) (hc : plan.settings.checked = false)
    (rounds : Nat) : ∃ q, Phase.run plan rounds p = .ok q := by
  refine run_total (P := fun p : Phase W => p.Tracked g initial) hp (fun p hp => ?_) rounds
  obtain ⟨r, hr⟩ := hp.runRound_succeeds hc
  exact ⟨r, hr, .afterRound p (hp.runRound hr)⟩

end Tracked

end Phase

namespace Schedule

variable [Priority R] {s t : Schedule W} {plan : Plan R} {log : Log W} {order : List Nat}

theorem beginPhase_tracked (hs : s.UpToDate 1) (hl : s.liveness = s.livenessOf) :
    s.beginPhase.Tracked s.graph s.total where
  toBooked := beginPhase_booked hs.toCoherent hl
  upToDate := beginPhase_upToDate hs
  graph_eq := (beginPhase_spec s).1
  scratch := beginPhase_scratch s

theorem improve_measured (hs : s.UpToDate 1) (hl : s.liveness = s.livenessOf)
    (h : s.improve plan = .ok (t, log)) :
    t.graph = s.graph ∧ t.ops.toList.Perm (List.range s.opCount) ∧ t.Measured := by
  obtain ⟨p, hp, rfl⟩ := improve_eq_ok h
  have hbegin := beginPhase_tracked hs hl
  have hend : p.Tracked s.graph s.total := by
    split at hp
    · obtain rfl := pure_eq_ok.mp hp
      exact hbegin.finish _
    · exact hbegin.run hp
  have hco := (hend.upToDate.congr (t := p.schedule.closed) rfl).toCoherent
  refine ⟨hend.graph_eq, ?_, hco.measured rfl⟩
  rw [opCount, ← hend.graph_eq]
  exact hco.perm

/-- Without checks a run ends, whatever the order is. -/
theorem improve_unchecked (hs : s.UpToDate 1) (hl : s.liveness = s.livenessOf)
    (hc : plan.settings.checked = false) : ∃ t log, s.improve plan = .ok (t, log) := by
  have hbegin := beginPhase_tracked hs hl
  have hclose : ∀ p : Phase W, p.Tracked s.graph s.total →
      ∃ t log, closeBooks s.maxLiveness p = .ok (t, log) := fun p hp =>
    ⟨_, closeBooks_succeeds hp.upToDate.toCoherent hp.toBooked⟩
  unfold improve
  dsimp only
  split
  · exact hclose _ (hbegin.finish _)
  · obtain ⟨q, hq⟩ := hbegin.run_succeeds hc (roundLimit s.opCount)
    rw [hq]
    exact hclose q (hbegin.run hq)

/-- With exact weights, the liveness of the schedule of any order of all Ops says at each place
the weights of the Allocs that live there, and over all places the total liveness. So does that
of the schedule with which a run ends. A run fails for no order that is valid, and for no order
at all if it is not asked for checks. -/
theorem liveness_measures (hg : g.Built) (hp : order.Perm (List.range g.opCount)) :
    (ofOrder g order).Measured ∧
      (∀ (plan : Plan R) t log, (ofOrder g order).improve plan = .ok (t, log) →
        t.graph = g ∧ t.ops.toList.Perm (List.range g.opCount) ∧ t.Measured) ∧
      ∀ plan : Plan R, (plan.settings.checked = true → g.ValidOrder order) →
        ∃ t log, (ofOrder g order).improve plan = .ok (t, log) := by
  have hco := ofOrder_coherent hg.wellFormed hp
  have hs : (ofOrder g order).UpToDate 1 := ⟨hco, rfl, rfl⟩
  refine ⟨hco.measured rfl, fun plan t log h => improve_measured hs rfl h, fun plan hc => ?_⟩
  cases hchecked : plan.settings.checked with
  | false => exact improve_unchecked hs rfl hchecked
  | true =>
    exact improve_succeeds (ofOrder_intact_of_validOrder hg.wellFormed (hc hchecked)) rfl plan

section TwoChains

open Numbers

/-- The two chains backwards and mixed up. The first Alloc is live all the time, the second one
only between the Ops of its chain, and the third one from there to the end. -/
theorem twoChains_liveness_measures :
    (ofOrder Graph.twoChains [3, 1, 0, 2]).liveness.toList.map (·.tiers) =
        [10, 21, 21, 11].map (fun w : Int => (Tiered.onTier w 0).tiers) ∧
      (ofOrder Graph.twoChains [3, 1, 0, 2]).Measured ∧ ∃ t log,
        (ofOrder Graph.twoChains [3, 1, 0, 2]).improve
          (Plan.ofSettings Random.chaCha { SettingsOver.unrefined with checked := false }
            Graph.twoChains.opCount fun _ => false) = .ok (t, log) ∧ t.Measured := by
  have hp : [3, 1, 0, 2].Perm (List.range Graph.twoChains.opCount) := by decide
  obtain ⟨hbefore, hafter, hruns⟩ := liveness_measures (R := Nat) Graph.twoChains_built hp
  obtain ⟨t, log, h⟩ := hruns (Plan.ofSettings Random.chaCha { SettingsOver.unrefined with checked := false }
    Graph.twoChains.opCount fun _ => false) fun hc => absurd hc (by decide)
  exact ⟨by decide +kernel, hbefore, t, log, h, (hafter _ t log h).2.2⟩

end TwoChains

end Schedule

end Liveness
