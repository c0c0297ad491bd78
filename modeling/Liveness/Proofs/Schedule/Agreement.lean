import Liveness.Proofs.Schedule.Searches
import Liveness.Proofs.Schedule.OfGraph
import Liveness.Proofs.Refinement.Rebuilt

/-! # Runs with the two searches agree

With exact weights every search of a run gives the same shift, whichever search the
settings name and whether or not they ask for checks. So whole runs with the two searches
end alike.
-/

namespace Liveness

open Success

variable {W R : Type} [Weight W] [ExactWeight W] {g : Graph W} {n : Nat}

namespace Schedule

variable {s : Schedule W} {start : Nat}

theorem UpToDate.bestShift_eq (h : s.UpToDate n) (hw : start + n ≤ s.opCount)
    (settings : SettingsOver R) :
    s.bestShift settings (Scratch.clean s.allocCount) start n =
      .ok (s.bestOf start n, Scratch.clean s.allocCount) := by
  have hf : s.bestFound settings (Scratch.clean s.allocCount) start n =
      .ok (s.bestOf start n, Scratch.clean s.allocCount) := by
    unfold bestFound
    split
    · rw [h.bestRipple_eq hw]
    · rw [h.bestSimple_eq hw]
      rfl
  have ha : (s.bestOf start n).agrees (s.bestOf start n) = true := by
    unfold Shift.agrees
    rw [beq_self_eq_true, ExactLaws.agree_self ExactWeight.toExactLaws]
    rfl
  exact bestShift_eq_ok.mpr ⟨hf, fun _ => ⟨_, h.bestSimple_eq hw, ha⟩⟩

end Schedule

namespace Round

variable {settings settings' : SettingsOver R} {touched : Array Bool} {r r' : Round W} {a : Nat}

structure Ready (g : Graph W) (n : Nat) (r : Round W) : Prop where
  intact : r.schedule.Intact g n
  scratch : r.scratch = Scratch.clean g.allocCount

omit [ExactWeight W] in
theorem Ready.allocCount (h : r.Ready g n) : r.scratch = Scratch.clean r.schedule.allocCount := by
  rw [h.scratch, Schedule.allocCount, h.intact.graph_eq]

/-- The round after a visit: the window is moved if its best shift lowers the liveness. -/
def visited (settings : SettingsOver R) (touched : Array Bool) (n : Nat) (r : Round W) (a : Nat) :
    Round W :=
  let start := r.schedule.placeOf a
  let best := r.schedule.bestOf start n
  if r.schedule.isCandidate settings touched n a && Weight.lt best.cost 0 then
    r.shifted start n best
  else r

theorem visited_cases (settings : SettingsOver R) (touched : Array Bool) (n : Nat) (r : Round W)
    (a : Nat) :
    (r.schedule.isCandidate settings touched n a = true →
      Weight.lt (r.schedule.bestOf (r.schedule.placeOf a) n).cost 0 = false) ∧
        r.visited settings touched n a = r ∨
    r.schedule.isCandidate settings touched n a = true ∧
      Weight.lt (r.schedule.bestOf (r.schedule.placeOf a) n).cost 0 = true ∧
        r.visited settings touched n a = r.shifted (r.schedule.placeOf a) n
          (r.schedule.bestOf (r.schedule.placeOf a) n) := by
  unfold visited
  dsimp only
  split
  · next h =>
    rw [Bool.and_eq_true] at h
    exact .inr ⟨h.1, h.2, rfl⟩
  · next h =>
    rw [Bool.and_eq_true, not_and, Bool.not_eq_true] at h
    exact .inl ⟨h, rfl⟩

/-- With exact weights no visit fails, whatever the search and the checks are. -/
theorem visit_eq (hn : 0 < n) (hr : r.Ready g n) :
    visit settings touched n r a = .ok (r.visited settings touched n a) := by
  unfold visit visited
  dsimp only
  cases hc : r.schedule.isCandidate settings touched n a with
  | false => rfl
  | true =>
    have hw := (Schedule.isCandidate_iff.mp hc).1
    have hbest := hr.intact.toUpToDate.bestShift_eq hw settings
    have ha := hr.intact.toUpToDate.bestOf_admissible hw
    rw [← hr.allocCount] at hbest
    rw [hbest]
    simp only [orFail, bind, Except.bind, Bool.not_true, Bool.false_eq_true, if_false,
      Bool.true_and]
    split
    · exact shift_eq_ok.mpr ⟨fun _ => (shifted_intact hn hr.intact ha).check, rfl⟩
    · rfl

theorem visit_ready (hn : 0 < n) (hr : r.Ready g n)
    (h : visit settings touched n r a = .ok r') : r'.Ready g n := by
  refine ⟨visit_intact hn hr.intact h, ?_⟩
  rw [visit_eq hn hr] at h
  rw [← Except.ok.inj h]
  rcases visited_cases settings touched n r a with ⟨-, he⟩ | ⟨-, -, he⟩
  · rw [he]
    exact hr.scratch
  · rw [he]
    exact hr.scratch

theorem visit_congr (hs : settings' = { settings with search := settings'.search }) (hn : 0 < n)
    (hr : r.Ready g n) : visit settings touched n r a = visit settings' touched n r a := by
  have hcand : r.schedule.isCandidate settings' touched n a =
      r.schedule.isCandidate settings touched n a := by
    rw [hs]
    rfl
  rw [visit_eq hn hr, visit_eq hn hr]
  unfold visited
  rw [hcand]

end Round

namespace Phase

variable {plan plan' : Plan R} {p : Phase W} {r : Round W}

structure SamePlan (plan plan' : Plan R) : Prop where
  settings : plan'.settings = { plan.settings with search := plan'.settings.search }
  visits : plan'.visits = plan.visits
  timeUp : plan'.timeUp = plan.timeUp

structure Ready (g : Graph W) (p : Phase W) : Prop where
  intact : p.schedule.Intact g p.window
  scratch : p.scratch = Scratch.clean g.allocCount
  pos : 0 < p.window

theorem runRound_ready (hp : p.Ready g) (h : p.runRound plan = .ok r) : r.Ready g p.window := by
  rw [runRound_eq] at h
  exact foldlM_keeps (P := Round.Ready g p.window) ⟨hp.intact.congr rfl, hp.scratch⟩
    (fun a _ r r' hr => Round.visit_ready hp.pos hr) h

theorem runRound_congr (hs : SamePlan plan plan') (hp : p.Ready g) :
    p.runRound plan = p.runRound plan' := by
  rw [runRound_eq, runRound_eq, hs.visits]
  exact foldlM_congr (P := Round.Ready g p.window) ⟨hp.intact.congr rfl, hp.scratch⟩
    (fun a _ r hr => Round.visit_congr hs.settings hp.pos hr)
    fun a _ r r' hr => Round.visit_ready hp.pos hr

omit [ExactWeight W] in
theorem afterRound_ready (hp : p.Ready g) (hr : r.Ready g p.window) : (p.afterRound r).Ready g := by
  exact ⟨afterRound_intact hr.intact, (afterRound_scratch p r).trans hr.scratch,
    afterRound_pos hp.pos r⟩

omit [ExactWeight W] in
theorem Ready.finish (hp : p.Ready g) (ending : Ending) : (p.finish ending).Ready g :=
  ⟨hp.intact.congr rfl, hp.scratch, hp.pos⟩

theorem run_congr {rounds : Nat} (hs : SamePlan plan plan') (hp : p.Ready g) :
    Phase.run plan rounds p = Phase.run plan' rounds p := by
  induction rounds generalizing p with
  | zero => rfl
  | succ rounds ih =>
    unfold Phase.run
    rw [← runRound_congr hs hp]
    refine bind_congr_ok fun r hr => ?_
    have hnext : Phase.run plan rounds ((p.nextWindow r).settle p.window r) =
        Phase.run plan' rounds ((p.nextWindow r).settle p.window r) :=
      ih (afterRound_ready hp (runRound_ready hp hr))
    have hlimit : limitPassed? plan' ((p.nextWindow r).settle p.window r).schedule =
        limitPassed? plan ((p.nextWindow r).settle p.window r).schedule := by
      unfold limitPassed?
      rw [hs.settings, hs.timeUp]
    dsimp only
    rw [hlimit, hnext]

end Phase

namespace Schedule

variable [Priority R] {s : Schedule W} {plan plan' : Plan R}

omit [ExactWeight W] [Priority R] in
theorem beginPhase_ready (h : s.Intact g 1) : s.beginPhase.Ready g := by
  refine ⟨beginPhase_intact h, ?_, Nat.one_pos⟩
  rw [beginPhase_scratch, allocCount, h.graph_eq]

theorem improve_congr (hs : Phase.SamePlan plan plan') (h : s.Intact g 1) :
    s.improve plan = s.improve plan' := by
  have hbudget : plan'.settings.budget = plan.settings.budget := by
    rw [hs.settings]
  unfold improve
  dsimp only
  rw [Phase.run_congr hs (beginPhase_ready h), hbudget]

end Schedule

namespace Graph

variable [Priority R] {source : Random.Source} {settings settings' : SettingsOver R}
  {timeUp : Nat → Bool}

theorem schedule_congr (hg : g.Built)
    (hs : settings' = { settings with search := settings'.search }) :
    g.schedule source settings timeUp = g.schedule source settings' timeUp := by
  have hpasses : settings'.passes = settings.passes := by rw [hs]
  have hfirst : ∀ refined : Graph W,
      refined.firstOrder source settings' = refined.firstOrder source settings := by
    intro refined
    unfold firstOrder
    rw [hs]
  have hplan : ∀ n, Phase.SamePlan (Plan.ofSettings source settings n timeUp)
      (Plan.ofSettings source settings' n timeUp) := by
    intro n
    refine ⟨hs, ?_, rfl⟩
    unfold Plan.ofSettings
    rw [hs]
  unfold schedule
  rw [hpasses]
  refine bind_congr_ok fun ⟨refined, refining⟩ hr => ?_
  dsimp only
  rw [hfirst]
  refine bind_congr_ok fun order ho => ?_
  refine bind_congr_ok fun _ hc => ?_
  have hi := firstOrder_intact (refine_built hg hr).wellFormed ho hc
  rw [Schedule.improve_congr (hplan _) hi]

end Graph

namespace Schedule

variable [Priority R] {s : Schedule W} {start steps : Nat} {direction : Direction}

theorem Coherent.sweep_eq_total (h : s.Coherent) (hr : s.Reach start n direction steps) :
    s.sweep (Scratch.clean s.allocCount) start n direction steps =
      ((List.range' 1 steps).map fun k =>
        (s.apply ⟨start, targetOf start direction k, n⟩).total - s.total,
        Scratch.clean s.allocCount) := by
  rw [h.sweep_eq hr]
  refine congrArg (·, _) (List.map_congr_left fun k hk => ?_)
  have hk' := List.mem_range'_1.mp hk
  exact (h.total_apply_sub (hr.of_le (by omega)) (by omega)).symm

/-- The two searches agree: on the price of every destination of a window, on the best
shift, in all searches that share their scratch data, and in whole runs. -/
theorem searches_agree :
    (∀ (g : Graph W) (order : List Nat) (n : Nat), g.Built →
      order.Perm (List.range g.opCount) → ((ofOrder g order).setRoom n).UpToDate n) ∧
    (∀ (s : Schedule W) (n start : Nat), s.UpToDate n → start + n ≤ s.opCount →
      (∀ direction steps, s.Reach start n direction steps →
        s.sweep (Scratch.clean s.allocCount) start n direction steps =
          ((List.range' 1 steps).map fun k =>
            (s.apply ⟨start, targetOf start direction k, n⟩).total - s.total,
            Scratch.clean s.allocCount)) ∧
      s.bestSimple start n = .ok (s.bestRipple (Scratch.clean s.allocCount) start n).1 ∧
      (s.bestRipple (Scratch.clean s.allocCount) start n).2 = Scratch.clean s.allocCount) ∧
    (∀ (calls : List (Call W)) (allocs : Nat), (∀ call ∈ calls, call.Valid allocs) →
      (ripples (Scratch.clean allocs) calls).2 = Scratch.clean allocs ∧
      calls.mapM (fun call => call.schedule.bestSimple call.start call.size) =
        .ok (ripples (Scratch.clean allocs) calls).1) ∧
    (∀ (g : Graph W) (source : Random.Source) (settings : SettingsOver R) (timeUp : Nat → Bool),
      g.Built → g.schedule source { settings with search := .ripple } timeUp =
        g.schedule source { settings with search := .simple } timeUp) := by
  refine ⟨fun g order n hg hp => ?_, fun s n start h hw => ⟨fun direction steps hr => ?_, ?_, ?_⟩,
    fun calls allocs h => ripples_eq h, fun g source settings timeUp hg => ?_⟩
  · exact setRoom_upToDate (ofOrder_coherent hg.wellFormed hp) n
  · exact h.toCoherent.sweep_eq_total hr
  · rw [h.bestRipple_eq hw, h.bestSimple_eq hw]
  · rw [h.bestRipple_eq hw]
  · exact Graph.schedule_congr hg rfl

open Numbers in
/-- The searches for the blocks of the two chains, and the runs on the two chains. -/
theorem searches_agree_twoChains :
    let s := (ofOrder Graph.twoChains [2, 3, 0, 1]).setRoom 2
    s.sweep (Scratch.clean 3) 0 2 .forward 2 =
        ([(s.apply ⟨0, 1, 2⟩).total - s.total, (s.apply ⟨0, 2, 2⟩).total - s.total],
          Scratch.clean 3) ∧
      s.bestSimple 0 2 = .ok (s.bestRipple (Scratch.clean 3) 0 2).1 ∧
      (ripples (Scratch.clean 3) [⟨s, 0, 2⟩, ⟨s, 2, 2⟩]).2 = Scratch.clean 3 ∧
      Graph.twoChains.schedule Random.chaCha { SettingsOver.firstReady with search := .ripple }
          (fun _ => false) =
        Graph.twoChains.schedule Random.chaCha { SettingsOver.firstReady with search := .simple }
          (fun _ => false) := by
  intro s
  obtain ⟨hset, hbest, hcalls, hrun⟩ := searches_agree (W := Tiered Int) (R := Nat)
  have hp : [2, 3, 0, 1].Perm (List.range Graph.twoChains.opCount) := by decide
  have hs : s.UpToDate 2 := hset _ _ _ Graph.twoChains_built hp
  obtain ⟨hsweep, hagree, -⟩ := hbest s 2 0 hs (by decide)
  refine ⟨hsweep .forward 2 ⟨by decide, by decide⟩, hagree, ?_, hrun _ _ _ _ Graph.twoChains_built⟩
  refine (hcalls _ 3 fun call hc => ?_).1
  have hcall : call = ⟨s, 0, 2⟩ ∨ call = ⟨s, 2, 2⟩ := by simpa using hc
  rcases hcall with rfl | rfl
  · exact ⟨hs, by decide, rfl⟩
  · exact ⟨hs, by decide, rfl⟩

end Schedule

end Liveness
