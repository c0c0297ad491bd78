import Liveness.Proofs.Schedule.Settled
import Liveness.Proofs.Schedule.Agreement

/-! # What a converged run leaves to improve

In the rounds since the windows had size one nothing moved, and all windows were looked
at. So a run that ends as converged has settled all sizes below the last one. It never
looks at the windows of the last size, and that is all that it misses.
-/

namespace Liveness

open Success

variable {W R : Type} {g : Graph W} {n : Nat}

theorem Plan.mem_visits {source : Random.Source} {settings : SettingsOver R} {timeUp : Nat → Bool}
    {a : Nat} (ha : a < n) :
    a ∈ (Plan.ofSettings source settings n timeUp).visits := by
  refine (source.shuffle_perm _ _).mem_iff.mpr ?_
  rw [Array.toList_range]
  exact List.mem_range.mpr ha

variable [Weight W] [ExactWeight W]

namespace Round

variable {settings : SettingsOver R} {touched : Array Bool} {r r' : Round W} {a : Nat}

/-- The search for the window that starts at an Op found nothing. -/
def Idle (s : Schedule W) (settings : SettingsOver R) (touched : Array Bool) (n a : Nat) : Prop :=
  s.isCandidate settings touched n a = true → Weight.lt (s.bestOf (s.placeOf a) n).cost 0 = false

theorem visit_idle (hn : 0 < n) (hr : r.Ready g n) (h : visit settings touched n r a = .ok r') :
    r.changes ≤ r'.changes ∧ (r'.changes ≤ r.changes →
      r'.schedule = r.schedule ∧ Idle r.schedule settings touched n a) := by
  rw [visit_eq hn hr] at h
  obtain rfl := Except.ok.inj h
  rcases visited_cases settings touched n r a with ⟨hidle, he⟩ | ⟨-, -, he⟩
  · rw [he]
    exact ⟨Nat.le_refl _, fun _ => ⟨rfl, hidle⟩⟩
  · rw [he]
    exact ⟨Nat.le_succ _, fun hle => absurd hle (Nat.not_succ_le_self _)⟩

theorem foldlM_visit_idle {visits : List Nat} (hn : 0 < n) (hr : r.Ready g n)
    (h : visits.foldlM (visit settings touched n) r = .ok r') :
    r.changes ≤ r'.changes ∧ (r'.changes ≤ r.changes →
      r'.schedule = r.schedule ∧ ∀ a ∈ visits, Idle r.schedule settings touched n a) := by
  induction visits generalizing r with
  | nil =>
    obtain rfl := pure_eq_ok.mp h
    exact ⟨Nat.le_refl _, fun _ => ⟨rfl, by simp⟩⟩
  | cons a visits ih =>
    rw [List.foldlM_cons, bind_eq_ok] at h
    obtain ⟨t, ht, h⟩ := h
    obtain ⟨hle, hidle⟩ := visit_idle hn hr ht
    obtain ⟨hle', hrest⟩ := ih (visit_ready hn hr ht) h
    refine ⟨Nat.le_trans hle hle', fun hge => ?_⟩
    obtain ⟨hst, ha⟩ := hidle (Nat.le_trans hle' hge)
    obtain ⟨hs, hall⟩ := hrest (Nat.le_trans hge hle)
    rw [hst] at hs hall
    exact ⟨hs, List.forall_mem_cons.mpr ⟨ha, hall⟩⟩

end Round

namespace Phase

variable {plan : Plan R} {p q : Phase W} {r : Round W}

omit [ExactWeight W] in
theorem startRound_ready (hp : p.Ready g) : p.startRound.Ready g p.window :=
  ⟨hp.intact.congr rfl, hp.scratch⟩

theorem runRound_keeps {P : Round W → Prop} (hp : p.Ready g) (hs : P p.startRound)
    (hv : ∀ r a r', r.Ready g p.window → P r →
      Round.visit plan.settings p.schedule.susceptible p.window r a = .ok r' → P r')
    (h : p.runRound plan = .ok r) : P r := by
  rw [runRound_eq] at h
  exact (foldlM_keeps (P := fun r : Round W => r.Ready g p.window ∧ P r)
    ⟨startRound_ready hp, hs⟩ (fun a _ r r' hr h =>
      ⟨Round.visit_ready hp.pos hr.1 h, hv r a r' hr.1 hr.2 h⟩) h).2

theorem runRound_still (hp : p.Ready g) (h : p.runRound plan = .ok r) (hc : r.changes = 0) :
    r.schedule = p.startRound.schedule := by
  rw [runRound_eq] at h
  exact ((Round.foldlM_visit_idle hp.pos (startRound_ready hp) h).2 (by omega)).1

/-- A round without moves settles its size if all Ops were touched before it. -/
theorem runRound_settled (hp : p.Ready g) (hv : ∀ a < g.opCount, a ∈ plan.visits)
    (ht : p.schedule.susceptible = Array.replicate p.schedule.opCount true)
    (h : p.runRound plan = .ok r) (hc : r.changes = 0) : p.schedule.Settled p.window := by
  rw [runRound_eq] at h
  have hidle := ((Round.foldlM_visit_idle hp.pos (startRound_ready hp) h).2 (by omega)).2
  have hpos := hp.pos
  refine hp.intact.toUpToDate.settled fun start hw hb hf => ?_
  have ha : p.schedule.opAt start < p.schedule.opCount := hp.intact.opAt_lt (by omega)
  have hplace : p.schedule.placeOf (p.schedule.opAt start) = start :=
    hp.intact.placeOf_opAt (by omega)
  have hcand : p.startRound.schedule.isCandidate plan.settings p.schedule.susceptible p.window
      (p.schedule.opAt start) = true := by
    refine Schedule.isCandidate_iff.mpr ?_
    change p.schedule.placeOf (p.schedule.opAt start) + p.window ≤ p.schedule.opCount ∧
      (p.schedule.graph.op (p.schedule.opAt start)).bwdLink = none ∧
      (p.schedule.graph.op (p.schedule.opAt
        (p.schedule.placeOf (p.schedule.opAt start) + p.window - 1))).fwdLink = none ∧ _
    rw [hplace]
    refine ⟨hw, hb, hf, fun _ => ⟨start, Nat.le_of_eq hplace, ?_, ?_⟩⟩
    · change start < p.schedule.placeOf (p.schedule.opAt start) + p.window
      omega
    · change p.schedule.susceptible.getD (p.schedule.opAt start) false = true
      rw [ht, Array.getD, dif_pos (by simpa using ha)]
      exact Array.getElem_replicate ..
  have hlt := hidle _ (hv _ (hp.intact.graph_eq ▸ ha)) hcand
  change Weight.lt (p.schedule.bestOf (p.schedule.placeOf (p.schedule.opAt start)) p.window).cost 0
    = false at hlt
  rwa [hplace] at hlt

/-- While nothing has moved since the windows had size one, all Ops count as touched and
the smaller sizes are settled. -/
def Explored (p : Phase W) : Prop :=
  p.quiet = true → p.schedule.susceptible = Array.replicate p.schedule.opCount true ∧
    ∀ k, 0 < k → k < p.window → p.schedule.Settled k

theorem Explored.finish (he : p.Explored) (ending : Ending) : (p.finish ending).Explored := by
  intro hq
  obtain ⟨ht, hk⟩ := he hq
  exact ⟨ht, fun k hk0 hkn => (hk k hk0 hkn).congr rfl⟩

theorem nextWindow_susceptible (hp : p.Ready g) (h : p.runRound plan = .ok r)
    (hc : r.changes = 0) :
    (p.nextWindow r).schedule.susceptible = Array.replicate p.schedule.opCount true := by
  have hs : r.schedule.susceptible.size = p.schedule.opCount := by
    rw [runRound_still hp h hc]
    exact Array.size_replicate
  rw [← hs]
  unfold nextWindow
  dsimp only
  rw [hc]
  cases p.quiet <;> rfl

theorem afterRound_explored (hp : p.Ready g) (he : p.Explored)
    (hv : ∀ a < g.opCount, a ∈ plan.visits) (h : p.runRound plan = .ok r) :
    (p.afterRound r).Explored := by
  intro hq
  rcases nextWindow_cases p r with ⟨hc, hpq, hw, -⟩ | ⟨hc, -, hw, -⟩ | ⟨-, -, hn⟩
  · have hs := afterRound_schedule p r
    rw [runRound_still hp h hc, nextWindow_susceptible hp h hc] at hs
    obtain ⟨ht, hk⟩ := he hpq
    have hset := runRound_settled hp hv ht h hc
    rw [afterRound_window, hw, hs]
    refine ⟨rfl, fun k hk0 hkn => ?_⟩
    by_cases hkw : k = p.window
    · rw [hkw]
      exact hset.congr rfl
    · exact (hk k hk0 (by omega)).congr rfl
  · have hs := afterRound_schedule p r
    rw [runRound_still hp h hc, nextWindow_susceptible hp h hc] at hs
    rw [afterRound_window, hw, hs]
    exact ⟨rfl, fun k hk0 hk1 => by omega⟩
  · exact absurd (hn.symm.trans hq) Bool.false_ne_true

/-- A run that converges has settled all sizes below that of its last windows. -/
theorem run_converged {rounds : Nat} (hp : p.Ready g) (he : p.Explored)
    (hv : ∀ a < g.opCount, a ∈ plan.visits) (h : Phase.run plan rounds p = .ok q)
    (hc : q.schedule.ending = .converged) : q.Ready g ∧ q.Explored ∧ q.isConverged = true := by
  induction rounds generalizing p with
  | zero =>
    obtain rfl := Except.ok.inj h
    cases hc
  | succ rounds ih =>
    obtain ⟨r, hr, h⟩ := run_succ_eq_ok h
    have hnext := afterRound_ready hp (runRound_ready hp hr)
    have hexp := afterRound_explored hp he hv hr
    rcases h with ⟨hconv, rfl⟩ | ⟨-, ⟨ending, hne, rfl⟩ | h⟩
    · exact ⟨hnext.finish _, hexp.finish _, hconv⟩
    · exact absurd hc hne
    · exact ih hnext hexp h

omit [ExactWeight W] in
theorem rooms_le_of_isConverged (hp : p.Ready g) (hc : p.isConverged = true) {i : Nat}
    (hi : i + p.window ≤ p.schedule.opCount) :
    p.schedule.ahead i ≤ p.window ∧ p.schedule.back i ≤ p.window := by
  have hcount : i < p.schedule.windowCount p.window := by
    unfold Schedule.windowCount
    omega
  have ha : i < p.schedule.roomAhead.size := by
    rw [hp.intact.roomAhead, Schedule.size_setRoom_ahead]
    exact hcount
  have hb : i < p.schedule.roomBack.size := by
    rw [hp.intact.roomBack, Schedule.size_setRoom_back]
    exact hcount
  unfold isConverged at hc
  rw [Bool.and_eq_true, List.all_eq_true] at hc
  have hrooms := hc.2 (p.schedule.roomAhead[i], p.schedule.roomBack[i])
    (List.mem_iff_getElem.mpr ⟨i, by simpa using ⟨ha, hb⟩, by simp⟩)
  rw [Bool.and_eq_true, decide_eq_true_eq, decide_eq_true_eq] at hrooms
  unfold Schedule.ahead Schedule.back
  simpa [Array.getD, ha, hb] using hrooms

end Phase

namespace Move

/-- The moved block changes places with a neighbour of its own size `n`. -/
def SwapsEqual (m : Move) (n : Nat) : Prop :=
  m.size = n ∧ (m.target = m.start + n ∨ m.start = m.target + n)

end Move

namespace Schedule

variable {s : Schedule W} {plan : Plan R}

theorem beginPhase_explored (s : Schedule W) : s.beginPhase.Explored := by
  intro _
  refine ⟨?_, fun k hk hk' => ?_⟩
  · unfold beginPhase
    dsimp only
    split <;> rfl
  · have hw : k < 1 := hk'
    omega

theorem UpToDate.total_apply_of_settled (h : s.UpToDate n) (hl : s.Legal)
    (hs : ∀ k, 0 < k → k < n → s.Settled k)
    (hroom : ∀ i, i + n ≤ s.opCount → s.ahead i ≤ n ∧ s.back i ≤ n) {m : Move} (hm : 0 < m.size)
    (hr : m.InRange s.opCount) (hne : m.start ≠ m.target) (ht : (s.apply m).Legal)
    (hsw : ¬ m.SwapsEqual n) : Weight.lt (s.apply m).total s.total = false := by
  obtain ⟨a, b, c, hb, hab, hbc, hc⟩ := Move.bounds_inRange hr
  have e := h.toCoherent.exchanged_apply hb hab hbc hc
  have hcases := Move.bounds_cases hb
  have hab' : a < b := by omega
  have hbc' : b < c := by omega
  obtain ⟨hi, hu⟩ := e.of_legal h.toCoherent hl ht hab' hbc'
  rw [← ExactWeight.lt_sub_iff (c := s.total), e.total_sub h.toCoherent, sub_self]
  refine h.not_lt_of_settled hs hroom hab' hbc' hc hi hu fun heq => hsw ?_
  unfold Move.SwapsEqual
  omega

end Schedule

def SettingsOver.unrefined : SettingsOver Nat :=
  { SettingsOver.firstReady with passes := Passes.allOff }

namespace Graph

variable [Priority R] {source : Random.Source} {settings : SettingsOver R} {timeUp : Nat → Bool}

/-- When a run ends as converged, moves that keep all constraints and links of its graph
no longer lower the total liveness, except for the exchange of two neighbouring blocks of
one size: that of the last windows, which were never looked at. -/
theorem schedule_converged {s : Schedule W} {log : Log W} (hg : g.Built)
    (h : g.schedule source settings timeUp = .ok (s, log)) (hc : s.ending = .converged) :
    (∃ refining, g.refine settings.passes = .ok (s.graph, refining)) ∧
      ∃ n, 0 < n ∧ s.UpToDate n ∧ ∀ m : Move, 0 < m.size → m.InRange s.opCount →
        m.start ≠ m.target → (s.apply m).Legal → ¬ m.SwapsEqual n →
        Weight.lt (s.apply m).total s.total = false := by
  obtain ⟨refined, refining, order, improving, hr, ho, hcheck, himp⟩ := schedule_eq_ok h
  have hi := firstOrder_intact (refine_built hg hr).wellFormed ho hcheck
  obtain ⟨p, hp, rfl⟩ := Schedule.improve_eq_ok himp
  split at hp
  · -- A spent budget ends the run in another way.
    obtain rfl := pure_eq_ok.mp hp
    have he : Schedule.endingOf settings.budget = .converged := hc
    unfold Schedule.endingOf at he
    split at he <;> cases he
  · obtain ⟨hready, hexp, hconv⟩ := Phase.run_converged (Schedule.beginPhase_ready hi)
      (Schedule.beginPhase_explored _) (fun a ha => Plan.mem_visits ha) hp hc
    have hfinal := hready.intact.congr (t := { p.schedule.refreshLiveness with
      stats := { p.schedule.stats with final := p.schedule.refreshLiveness.sumLiveness } }) rfl
    obtain ⟨-, hk⟩ := hexp ((Bool.and_eq_true _ _).mp hconv).1
    refine ⟨⟨refining, hfinal.graph_eq.symm ▸ hr⟩, p.window, hready.pos, hfinal.toUpToDate,
      fun m hm hr hne ht hsw => ?_⟩
    exact hfinal.toUpToDate.total_apply_of_settled hfinal.toLegal
      (fun k hk0 hkn => (hk k hk0 hkn).congr rfl)
      (fun i hi => Phase.rooms_le_of_isConverged hready hconv hi) hm hr hne ht hsw

section TwoChains

open Numbers

/-- The run on the two chains ends with the second chain first. Exchanging the chains is
the move that it misses. -/
theorem twoChains_schedule : ∃ s log,
    twoChains.schedule Random.chaCha SettingsOver.unrefined (fun _ => false) = .ok (s, log) ∧
      s.ending = .converged ∧ s.opCount = 4 ∧ (s.apply ⟨2, 0, 2⟩).Legal ∧
      Weight.lt (s.apply ⟨2, 0, 2⟩).total s.total = true := by
  have hok : (match twoChains.schedule Random.chaCha SettingsOver.unrefined fun _ => false with
      | .ok (s, _) => decide (s.ending = .converged ∧ s.opCount = 4 ∧
          (s.apply ⟨2, 0, 2⟩).Legal ∧ Weight.lt (s.apply ⟨2, 0, 2⟩).total s.total = true)
      | .error _ => false) = true := by decide +kernel
  split at hok
  · next s log hs => exact ⟨s, log, hs, of_decide_eq_true hok⟩
  · cases hok

theorem twoChains_schedule_converged : ∃ s log,
    twoChains.schedule Random.chaCha SettingsOver.unrefined (fun _ => false) = .ok (s, log) ∧
      s.ending = .converged ∧ ∃ n, 0 < n ∧ s.UpToDate n ∧ ∀ m : Move, 0 < m.size →
        m.InRange s.opCount → m.start ≠ m.target → (s.apply m).Legal → ¬ m.SwapsEqual n →
        Weight.lt (s.apply m).total s.total = false := by
  obtain ⟨s, log, hs, hc, -⟩ := twoChains_schedule
  exact ⟨s, log, hs, hc, (schedule_converged twoChains_built hs hc).2⟩

/-- Convergence does not rule out a move that lowers the total liveness. -/
theorem twoChains_schedule_improvable : ∃ s log,
    twoChains.schedule Random.chaCha SettingsOver.unrefined (fun _ => false) = .ok (s, log) ∧
      s.ending = .converged ∧ ∃ m : Move, 0 < m.size ∧ m.InRange s.opCount ∧
        m.start ≠ m.target ∧ (s.apply m).Legal ∧
        Weight.lt (s.apply m).total s.total = true := by
  obtain ⟨s, log, hs, hc, hcount, hlegal, hlt⟩ := twoChains_schedule
  refine ⟨s, log, hs, hc, ⟨2, 0, 2⟩, by decide, ?_, by decide, hlegal, hlt⟩
  rw [hcount]
  decide

end TwoChains

end Graph

end Liveness
