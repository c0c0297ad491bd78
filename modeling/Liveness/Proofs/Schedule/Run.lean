import Liveness.Proofs.Schedule.Admissible
import Liveness.Proofs.Schedule.Resize

/-! # Runs keep schedules legal

One visit of a window changes nothing or carries out an admissible move. So every round,
every change of the window size and every whole run keeps a schedule up to date and legal.
-/

namespace Liveness

open Success

variable {W R : Type} [Weight W] {g : Graph W} {n : Nat}

namespace Schedule

variable {s t : Schedule W}

structure Intact (g : Graph W) (n : Nat) (s : Schedule W) : Prop
    extends s.UpToDate n, s.Legal where
  graph_eq : s.graph = g

theorem UpToDate.congr (h : s.UpToDate n)
    (he : t = { s with
      liveness := t.liveness, susceptible := t.susceptible, ending := t.ending
      stats := t.stats }) : t.UpToDate n := by
  rw [he]
  exact ⟨h.toCoherent.congr rfl rfl rfl rfl rfl rfl rfl, h.roomAhead, h.roomBack⟩

theorem Intact.congr (h : s.Intact g n)
    (he : t = { s with
      liveness := t.liveness, susceptible := t.susceptible, ending := t.ending
      stats := t.stats }) : t.Intact g n := by
  have hu := h.toUpToDate.congr he
  rw [he] at hu ⊢
  exact ⟨hu, ⟨h.before, h.linked⟩, h.graph_eq⟩

theorem Intact.setRoom (h : s.Intact g n) (m : Nat) : (s.setRoom m).Intact g m :=
  ⟨setRoom_upToDate h.toCoherent m, ⟨h.before, h.linked⟩, h.graph_eq⟩

omit [Weight W] in
theorem isCandidate_iff {settings : SettingsOver R} {touched : Array Bool} {a : Nat} :
    s.isCandidate settings touched n a = true ↔
      s.placeOf a + n ≤ s.opCount ∧ (s.graph.op a).bwdLink = none ∧
        (s.graph.op (s.opAt (s.placeOf a + n - 1))).fwdLink = none ∧
        (settings.onlySusceptible = true → ∃ i, s.placeOf a ≤ i ∧ i < s.placeOf a + n ∧
          touched.getD (s.opAt i) false = true) := by
  unfold isCandidate
  dsimp only
  split
  · next h => exact iff_of_false (by simp) fun hc => by omega
  · next h =>
    have hle : s.placeOf a + n ≤ s.opCount := by omega
    simp only [hle, true_and, Bool.and_eq_true, Bool.or_eq_true, Bool.not_eq_true',
      Op.hasBwdLink, Op.hasFwdLink, Option.isSome_eq_false_iff, Option.isNone_iff_eq_none,
      List.any_map, List.any_eq_true, List.mem_range'_1, Function.comp_apply, and_assoc]
    cases settings.onlySusceptible <;> simp

end Schedule

namespace Round

variable {settings : SettingsOver R} {touched : Array Bool} {r r' : Round W} {a : Nat}

omit [Weight W] in
theorem orFail_eq_ok {α : Type} {s : Schedule W} {x : Except Error α} {y : α} :
    orFail s x = .ok y ↔ x = .ok y := by
  cases x <;> simp [orFail]

def shifted (r : Round W) (start n : Nat) (best : Shift W) : Round W :=
  { r with
    schedule := r.schedule.apply (Schedule.moveBy start n best.distance)
    changes := r.changes + 1
    delta := r.delta + best.cost
    accumulated := r.accumulated + best.cost
    log := r.log ++ [.moved (Schedule.moveBy start n best.distance) best.cost] }

theorem shift_eq_ok {start : Nat} {best : Shift W} :
    r.shift settings start n best = .ok r' ↔
      (settings.checked = true → (r.shifted start n best).schedule.check = .ok ()) ∧
        r.shifted start n best = r' := by
  unfold shift
  dsimp only
  split
  · next hc =>
    rw [seq_eq_ok, orFail_eq_ok, pure_eq_ok]
    exact and_congr_left fun _ => ⟨fun h _ => h, fun h => h hc⟩
  · next hc =>
    rw [pure_eq_ok]
    exact (and_iff_right fun h => absurd h hc).symm

/-- A visit looks at no window, leaves one where it is, or moves one. -/
theorem visit_cases (h : visit settings touched n r a = .ok r') :
    r.schedule.isCandidate settings touched n a = false ∧ r' = r ∨
      r.schedule.isCandidate settings touched n a = true ∧ ∃ best scratch,
        r.schedule.bestShift settings r.scratch (r.schedule.placeOf a) n = .ok (best, scratch) ∧
        (Weight.lt best.cost 0 = false ∧ r' = { r with scratch := scratch } ∨
          Weight.lt best.cost 0 = true ∧
            r' = { r with scratch := scratch }.shifted (r.schedule.placeOf a) n best) := by
  unfold visit at h
  dsimp only at h
  split at h
  · next hc =>
    exact .inl ⟨by simpa using hc, (pure_eq_ok.mp h).symm⟩
  · next hc =>
    obtain ⟨⟨best, scratch⟩, hb, h⟩ := bind_eq_ok.mp h
    refine .inr ⟨by simpa using hc, best, scratch, orFail_eq_ok.mp hb, ?_⟩
    dsimp only at h
    split at h
    · next hlt => exact .inr ⟨hlt, (shift_eq_ok.mp h).2.symm⟩
    · next hlt => exact .inl ⟨by simpa using hlt, (pure_eq_ok.mp h).symm⟩

theorem shifted_intact {start : Nat} {best : Shift W} (hn : 0 < n) (hr : r.schedule.Intact g n)
    (ha : r.schedule.Admissible (Schedule.moveBy start n best.distance)) :
    (r.shifted start n best).schedule.Intact g n :=
  ⟨hr.toUpToDate.apply (ha.move_inRange hr.toCoherent), ha.legal hr.toCoherent hr.toLegal hn,
    (Schedule.graph_apply _ _).trans hr.graph_eq⟩

theorem visit_intact (hn : 0 < n) (hr : r.schedule.Intact g n)
    (h : visit settings touched n r a = .ok r') : r'.schedule.Intact g n := by
  rcases visit_cases h with ⟨-, rfl⟩ | ⟨hc, best, scratch, hb, ⟨-, rfl⟩ | ⟨-, rfl⟩⟩
  · exact hr
  · exact hr
  · have ha := Schedule.bestShift_admissible hr.toUpToDate (Schedule.isCandidate_iff.mp hc).1 hb
    exact shifted_intact hn hr ha

end Round

namespace Phase

variable {plan : Plan R} {p q : Phase W} {r : Round W}

def startRound (p : Phase W) : Round W :=
  let s := withStats p.schedule fun stats => { stats with rounds := stats.rounds + 1 }
  ⟨{ s with susceptible := Array.replicate s.opCount false }, p.scratch, 0, 0, p.accumulated, []⟩

theorem runRound_eq (p : Phase W) (plan : Plan R) :
    p.runRound plan = plan.visits.foldlM
      (Round.visit plan.settings p.schedule.susceptible p.window) p.startRound := rfl

theorem runRound_intact (hn : 0 < p.window) (hp : p.schedule.Intact g p.window)
    (h : p.runRound plan = .ok r) : r.schedule.Intact g p.window := by
  rw [runRound_eq] at h
  exact foldlM_keeps (P := fun r : Round W => r.schedule.Intact g p.window)
    (hp.congr rfl) (fun a _ r r' hr => Round.visit_intact hn hr) h

/-- The phase after a round, with rooms for windows of the next size. -/
def afterRound (p : Phase W) (r : Round W) : Phase W := (p.nextWindow r).settle p.window r

omit [Weight W] in
/-- The windows grow by one, start again at one, or keep their size. -/
theorem nextWindow_cases (p : Phase W) (r : Round W) :
    (r.changes = 0 ∧ p.quiet = true ∧ (p.nextWindow r).window = p.window + 1 ∧
      (p.nextWindow r).quiet = true) ∨
    (r.changes = 0 ∧ p.quiet = false ∧ (p.nextWindow r).window = 1 ∧
      (p.nextWindow r).quiet = true) ∨
    (r.changes ≠ 0 ∧ (p.nextWindow r).window = p.window ∧ (p.nextWindow r).quiet = false) := by
  unfold nextWindow
  dsimp only
  cases hq : p.quiet <;> by_cases hc : r.changes = 0 <;> simp [hc]

omit [Weight W] in
theorem nextWindow_schedule (p : Phase W) (r : Round W) :
    (p.nextWindow r).schedule = { r.schedule with
      susceptible := (p.nextWindow r).schedule.susceptible
      stats := (p.nextWindow r).schedule.stats } := by
  unfold nextWindow
  dsimp only
  split
  · rfl
  · split <;> rfl

omit [Weight W] in
theorem afterRound_window (p : Phase W) (r : Round W) :
    (p.afterRound r).window = (p.nextWindow r).window := rfl

omit [Weight W] in
theorem afterRound_schedule (p : Phase W) (r : Round W) :
    (p.afterRound r).schedule = { r.schedule with
      susceptible := (p.nextWindow r).schedule.susceptible
      stats := (p.nextWindow r).schedule.stats
      roomAhead := (p.afterRound r).schedule.roomAhead
      roomBack := (p.afterRound r).schedule.roomBack } := by
  have hn := nextWindow_schedule p r
  unfold afterRound settle Schedule.resize
  dsimp only
  split
  · rw [hn]
  · split
    · rw [hn]
      rfl
    · rw [hn]
      rfl

omit [Weight W] in
theorem afterRound_scratch (p : Phase W) (r : Round W) : (p.afterRound r).scratch = r.scratch := by
  unfold afterRound settle nextWindow
  dsimp only
  split
  · rfl
  · split <;> rfl

theorem afterRound_upToDate (hr : r.schedule.UpToDate p.window) :
    (p.afterRound r).schedule.UpToDate (p.afterRound r).window := by
  have hs : (p.nextWindow r).schedule.UpToDate p.window := by
    refine hr.congr ?_
    rw [nextWindow_schedule]
  rw [afterRound_window]
  unfold afterRound settle
  dsimp only
  split
  · next he =>
    rw [← he]
    exact hs
  · exact hs.resize

theorem afterRound_intact (hr : r.schedule.Intact g p.window) :
    (p.afterRound r).schedule.Intact g (p.afterRound r).window := by
  have hu := afterRound_upToDate hr.toUpToDate
  rw [afterRound_schedule] at hu ⊢
  exact ⟨hu, ⟨hr.before, hr.linked⟩, hr.graph_eq⟩

omit [Weight W] in
theorem afterRound_pos (hn : 0 < p.window) (r : Round W) : 0 < (p.afterRound r).window := by
  rw [afterRound_window]
  rcases nextWindow_cases p r with h | h | h <;> omega

/-- A round that goes well ends the run, is the last one within the limits, or leads to the
next one. -/
theorem run_succ_of_runRound {rounds : Nat} (h : p.runRound plan = .ok r) :
    Phase.run plan (rounds + 1) p =
      if (p.afterRound r).isConverged then .ok ((p.afterRound r).finish .converged)
      else match limitPassed? plan (p.afterRound r).schedule with
        | some ending => .ok ((p.afterRound r).finish ending)
        | none => Phase.run plan rounds (p.afterRound r) := by
  rw [Phase.run, h]
  rfl

theorem run_succ_eq_ok {rounds : Nat} (h : Phase.run plan (rounds + 1) p = .ok q) :
    ∃ r, p.runRound plan = .ok r ∧
      ((p.afterRound r).isConverged = true ∧ q = (p.afterRound r).finish .converged ∨
        (p.afterRound r).isConverged = false ∧
          ((∃ ending, ending ≠ .converged ∧ q = (p.afterRound r).finish ending) ∨
            Phase.run plan rounds (p.afterRound r) = .ok q)) := by
  obtain ⟨r, hr, h⟩ := bind_eq_ok.mp h
  refine ⟨r, hr, ?_⟩
  dsimp only at h
  split at h
  · next hc => exact .inl ⟨hc, (pure_eq_ok.mp h).symm⟩
  · next hc =>
    refine .inr ⟨by simpa [afterRound] using hc, ?_⟩
    split at h
    · next ending he =>
      refine .inl ⟨ending, ?_, (pure_eq_ok.mp h).symm⟩
      rintro rfl
      unfold limitPassed? at he
      split at he
      · cases he
      · split at he <;> cases he
    · exact .inr h

/-- What every round keeps, whatever the ending is, holds when a run ends. -/
theorem run_keeps {P : Phase W → Prop} {rounds : Nat} (hp : P p)
    (hround : ∀ p r, P p → p.runRound plan = .ok r → P (p.afterRound r))
    (hfinish : ∀ p ending, P p → P (p.finish ending)) (h : Phase.run plan rounds p = .ok q) :
    P q := by
  induction rounds generalizing p with
  | zero =>
    obtain rfl := Except.ok.inj h
    exact hfinish p _ hp
  | succ rounds ih =>
    obtain ⟨r, hr, h⟩ := run_succ_eq_ok h
    have hnext := hround p r hp hr
    rcases h with ⟨-, rfl⟩ | ⟨-, ⟨ending, -, rfl⟩ | h⟩
    · exact hfinish _ _ hnext
    · exact hfinish _ _ hnext
    · exact ih hnext h

/-- A run ends when no round fails from what all rounds keep. -/
theorem run_total {P : Phase W → Prop} (hp : P p)
    (hround : ∀ p, P p → ∃ r, p.runRound plan = .ok r ∧ P (p.afterRound r)) (rounds : Nat) :
    ∃ q, Phase.run plan rounds p = .ok q := by
  induction rounds generalizing p with
  | zero => exact ⟨_, rfl⟩
  | succ rounds ih =>
    obtain ⟨r, hr, hnext⟩ := hround p hp
    rw [run_succ_of_runRound hr]
    split
    · exact ⟨_, rfl⟩
    · split
      · exact ⟨_, rfl⟩
      · exact ih hnext

theorem run_intact {rounds : Nat} (hn : 0 < p.window) (hp : p.schedule.Intact g p.window)
    (h : Phase.run plan rounds p = .ok q) : q.schedule.Intact g q.window := by
  refine (run_keeps (P := fun p : Phase W => 0 < p.window ∧ p.schedule.Intact g p.window)
    ⟨hn, hp⟩ (fun p r hp hr => ?_) (fun p _ hp => ⟨hp.1, hp.2.congr rfl⟩) h).2
  exact ⟨afterRound_pos hp.1 r, afterRound_intact (runRound_intact hp.1 hp.2 hr)⟩

end Phase

namespace Schedule

variable {s t : Schedule W} {plan : Plan R} {log : Log W}

theorem beginPhase_upToDate (h : s.UpToDate 1) : s.beginPhase.schedule.UpToDate 1 := by
  unfold beginPhase
  dsimp only
  split
  · exact h.congr rfl
  · exact (setRoom_upToDate h.toCoherent 1).congr rfl

theorem beginPhase_scratch (s : Schedule W) :
    s.beginPhase.scratch = Scratch.clean s.allocCount := by
  unfold beginPhase
  dsimp only
  split <;> rfl

theorem beginPhase_intact (h : s.Intact g 1) : s.beginPhase.schedule.Intact g 1 := by
  unfold beginPhase
  dsimp only
  split
  · exact h.congr rfl
  · exact (h.setRoom 1).congr rfl

theorem closeBooks_spec {initialMax : W} {p : Phase W}
    (h : closeBooks initialMax p = .ok (t, log)) :
    t = { p.schedule.refreshLiveness with
      stats := { p.schedule.stats with final := p.schedule.refreshLiveness.sumLiveness } } ∧
    ∃ balance, log = p.log ++
      [.finished p.schedule.ending p.schedule.stats.rounds p.schedule.stats.changes balance] := by
  unfold closeBooks at h
  dsimp only at h
  split at h
  · obtain ⟨ht, hlog⟩ := Prod.mk.inj (Except.ok.inj h)
    exact ⟨ht.symm, _, hlog.symm⟩
  · cases h

theorem improve_eq_closeBooks [Priority R] (h : s.improve plan = .ok (t, log)) : ∃ p,
    (if plan.settings.budget.isExhausted
      then pure (s.beginPhase.finish (endingOf plan.settings.budget))
      else s.beginPhase.run plan (roundLimit s.opCount)) = .ok p ∧
    closeBooks s.maxLiveness p = .ok (t, log) := by
  unfold improve at h
  dsimp only at h
  split at h
  · next hc => exact ⟨_, by rw [if_pos hc]; rfl, h⟩
  · next hc =>
    rw [if_neg hc]
    exact bind_eq_ok.mp h

theorem improve_eq_ok [Priority R] (h : s.improve plan = .ok (t, log)) : ∃ p,
    (if plan.settings.budget.isExhausted
      then pure (s.beginPhase.finish (endingOf plan.settings.budget))
      else s.beginPhase.run plan (roundLimit s.opCount)) = .ok p ∧
    t = { p.schedule.refreshLiveness with
      stats := { p.schedule.stats with final := p.schedule.refreshLiveness.sumLiveness } } := by
  obtain ⟨p, hp, hclose⟩ := improve_eq_closeBooks h
  exact ⟨p, hp, (closeBooks_spec hclose).1⟩

theorem improve_intact [Priority R] (hs : s.Intact g 1) (h : s.improve plan = .ok (t, log)) :
    ∃ n, t.Intact g n := by
  obtain ⟨p, hp, rfl⟩ := improve_eq_ok h
  have hb := beginPhase_intact hs
  have hi : ∃ n, p.schedule.Intact g n := by
    split at hp
    · obtain rfl := pure_eq_ok.mp hp
      exact ⟨1, hb.congr rfl⟩
    · exact ⟨_, Phase.run_intact Nat.one_pos hb hp⟩
  obtain ⟨n, hi⟩ := hi
  exact ⟨n, hi.congr rfl⟩

end Schedule

end Liveness
