import Mathlib.Data.List.Permutation
import Liveness.Proofs.Schedule.Descent

/-! # Runs come to an end

No order comes twice in a run, so there are fewer moves than orders. Between two moves the
windows start again at size one at most once and then grow, and windows that are as large
as the schedule have no room at all. So the moves and the window sizes that are left bound
the rounds that are left, and a run that nothing cuts off converges.
-/

namespace Liveness

variable {W R : Type} [Weight W] [ExactWeight W] {g : Graph W} {order last : List Nat}

namespace Graph.Descent

variable {moves : List (Move × W)}

/-- The orders on the way are all different, as each of them is less than those before. -/
theorem exists_orders (ho : g.ValidOrder order) (h : g.Descent order moves last) :
    ∃ orders : List (List Nat), orders.length = moves.length + 1 ∧ orders.Nodup ∧
      ∀ next ∈ orders, g.ValidOrder next ∧
        g.totalLiveness next.idxOf ≤ g.totalLiveness order.idxOf := by
  induction h with
  | stay order => exact ⟨[order], rfl, List.nodup_singleton _, by simpa using ho⟩
  | @move order next last m cost moves valid _ lowers total _ ih =>
    obtain ⟨orders, hl, hn, hall⟩ := ih valid
    have hlt : g.totalLiveness next.idxOf < g.totalLiveness order.idxOf := by
      rw [total]
      exact add_lt_of_neg_right _ lowers
    refine ⟨order :: orders, by rw [List.length_cons, hl]; rfl, ?_, ?_⟩
    · exact List.nodup_cons.mpr ⟨fun hm => ((hall order hm).2.trans_lt hlt).false, hn⟩
    · refine List.forall_mem_cons.mpr ⟨⟨ho, le_refl _⟩, fun other hm => ?_⟩
      exact ⟨(hall other hm).1, (hall other hm).2.trans hlt.le⟩

theorem length_lt (ho : g.ValidOrder order) (h : g.Descent order moves last) :
    moves.length < g.opCount.factorial := by
  obtain ⟨orders, hl, hn, hall⟩ := exists_orders ho h
  have hsub : orders ⊆ (List.range g.opCount).permutations := fun next hm =>
    List.mem_permutations.mpr (hall next hm).1.perm
  have hle := (List.subperm_of_subset hn hsub).length_le
  rw [List.length_permutations, List.length_range, hl] at hle
  exact hle

end Graph.Descent

namespace Phase

variable {plan : Plan R} {p q : Phase W} {r : Round W}

/-- How many more rounds there can be before the last one: the windows can go through all
sizes once for each move that is left. -/
def roundsLeft (n : Nat) (p : Phase W) : Nat :=
  (n.factorial - 1 - p.schedule.stats.changes) * (n + 1) + if p.quiet then n - p.window else n

omit [ExactWeight W] in
/-- Windows as large as the schedule have no room. -/
theorem isConverged_of_large (hp : p.Ready g) (hq : p.quiet = true)
    (hn : g.opCount ≤ p.window) : p.isConverged = true := by
  refine (isConverged_iff hp).mpr ⟨hq, fun i hi => ?_⟩
  have hcount : p.schedule.opCount = g.opCount := congrArg Graph.opCount hp.intact.graph_eq
  have hco := hp.intact.toCoherent
  have hahead := ((hco.le_roomAheadAt_iff_independent hi).mp (Nat.le_refl _)).1
  have hback := ((hco.le_roomBackAt_iff_independent hi).mp (Nat.le_refl _)).1
  omega

/-- Every round after which the run goes on leaves fewer rounds. -/
theorem roundsLeft_lt (ho : g.ValidOrder order) (hp : p.Ready g) (hd : p.Descended g order)
    (h : p.runRound plan = .ok r) (hc : (p.afterRound r).isConverged = false) :
    (p.afterRound r).roundsLeft g.opCount < p.roundsLeft g.opCount := by
  have hnext := afterRound_ready hp (runRound_ready hp h)
  have hd' := afterRound_descended hp hd h
  have hlt : (p.afterRound r).schedule.stats.changes < g.opCount.factorial :=
    hd'.counted ▸ hd'.descent.length_lt ho
  have hchanges : (p.afterRound r).schedule.stats.changes =
      p.schedule.stats.changes + r.changes := by
    rw [(afterRound_counts p r).1, runRound_stats hp h]
  have hsmall : (p.nextWindow r).quiet = true → (p.nextWindow r).window < g.opCount := by
    intro hq
    by_contra hn
    rw [isConverged_of_large hnext hq (Nat.le_of_not_lt hn)] at hc
    cases hc
  have hquiet : (p.afterRound r).quiet = (p.nextWindow r).quiet := rfl
  unfold roundsLeft
  rw [afterRound_window, hquiet]
  rw [hchanges] at hlt ⊢
  rcases nextWindow_cases p r with ⟨hc0, hq, hw, hq'⟩ | ⟨hc0, hq, hw, hq'⟩ | ⟨hc0, -, hq'⟩
  · have := hsmall hq'
    rw [hc0, hq, hq', hw, if_pos rfl, if_pos rfl, Nat.add_zero]
    omega
  · have := hsmall hq'
    rw [hc0, hq, hq', hw, if_pos rfl, if_neg Bool.false_ne_true, Nat.add_zero]
    omega
  · -- a move is gone, and with it all window sizes
    have hmoves : (g.opCount.factorial - 1 - (p.schedule.stats.changes + r.changes) + 1) *
        (g.opCount + 1) ≤
          (g.opCount.factorial - 1 - p.schedule.stats.changes) * (g.opCount + 1) :=
      Nat.mul_le_mul_right _ (by omega)
    rw [hq', if_neg Bool.false_ne_true]
    rw [Nat.add_mul, Nat.one_mul] at hmoves
    omega

/-- The reason that a phase gives for its end holds of it: it has converged, made as many moves as
it may, or its time was up after its last round. -/
def Stopped (plan : Plan R) (q : Phase W) : Prop :=
  match q.schedule.ending with
  | .converged => q.isConverged = true
  | .swapLimited => plan.settings.budget.swapLimit ≤ (q.schedule.stats.changes : Int)
  | .timeLimited => plan.timeUp q.schedule.stats.rounds = true

omit [Weight W] [ExactWeight W] in
theorem stopped_of_limitPassed? {ending : Ending} (h : limitPassed? plan p.schedule = some ending) :
    (p.finish ending).Stopped plan := by
  unfold limitPassed? at h
  split at h
  · next hl =>
    cases h
    exact hl
  · split at h
    · next ht =>
      cases h
      exact ht
    · cases h

variable (plan) in
/-- Whatever the clock says, a run ends with a last round and for a reason, and more rounds than
it takes make no difference to it. -/
theorem run_ends (ho : g.ValidOrder order) (hp : p.Ready g) (hd : p.Descended g order) :
    ∃ q : Phase W,
      (∀ rounds, p.roundsLeft g.opCount < rounds → Phase.run plan rounds p = .ok q) ∧
      q.schedule.stats.rounds ≤ p.schedule.stats.rounds + p.roundsLeft g.opCount + 1 ∧
      q.Stopped plan := by
  induction hk : p.roundsLeft g.opCount using Nat.strong_induction_on generalizing p with
  | _ k ih =>
    obtain ⟨r, hr⟩ := runRound_succeeds hp plan
    have hrounds : (p.afterRound r).schedule.stats.rounds = p.schedule.stats.rounds + 1 := by
      rw [(afterRound_counts p r).2.1, runRound_stats hp hr]
    cases hc : (p.afterRound r).isConverged with
    | true =>
      refine ⟨(p.afterRound r).finish .converged, fun rounds hlt => ?_, ?_, hc⟩
      · obtain ⟨more, rfl⟩ := Nat.exists_eq_add_of_lt hlt
        rw [run_succ_of_runRound hr, if_pos hc]
      · exact hrounds.le.trans (by omega)
    | false =>
      have hno := Bool.eq_false_iff.mp hc
      cases hl : limitPassed? plan (p.afterRound r).schedule with
      | some ending =>
        refine ⟨(p.afterRound r).finish ending, fun rounds hlt => ?_, ?_,
          stopped_of_limitPassed? hl⟩
        · obtain ⟨more, rfl⟩ := Nat.exists_eq_add_of_lt hlt
          rw [run_succ_of_runRound hr, if_neg hno, hl]
        · exact hrounds.le.trans (by omega)
      | none =>
        have hleft := roundsLeft_lt ho hp hd hr hc
        obtain ⟨q, hrun, hqr, hend⟩ := ih _ (hk ▸ hleft)
          (afterRound_ready hp (runRound_ready hp hr)) (afterRound_descended hp hd hr) rfl
        refine ⟨q, fun rounds hlt => ?_, by omega, hend⟩
        obtain ⟨more, rfl⟩ := Nat.exists_eq_add_of_lt hlt
        rw [run_succ_of_runRound hr, if_neg hno, hl]
        exact hrun _ (by omega)

end Phase

namespace Schedule

variable [Priority R]

theorem foldl_mul_range' (n : Nat) : (List.range' 1 n).foldl (· * ·) 1 = n.factorial := by
  induction n with
  | zero => rfl
  | succ n ih =>
    rw [List.range'_1_concat, List.foldl_append, ih, Nat.factorial_succ, Nat.mul_comm,
      Nat.add_comm n 1]
    rfl

theorem mul_factorial_le_roundLimit (n : Nat) : (n + 1) * n.factorial ≤ roundLimit n := by
  unfold roundLimit
  rw [foldl_mul_range']
  exact (Nat.mul_le_mul (by omega) (Nat.le_succ _)).trans (Nat.le_add_right ..)

omit [ExactWeight W] [Priority R] in
theorem roundsLeft_beginPhase (s : Schedule W) (n : Nat) :
    s.beginPhase.roundsLeft n < (n + 1) * n.factorial := by
  have hpos := n.factorial_pos
  have hs := (beginPhase_spec s).2.2.2
  have hleft : s.beginPhase.roundsLeft n = (n.factorial - 1 - 0) * (n + 1) + (n - 1) := by
    unfold Phase.roundsLeft
    rw [hs]
    rfl
  have hall : (n + 1) * n.factorial = (n.factorial - 1) * (n + 1) + (n + 1) := by
    rw [← Nat.succ_mul, Nat.succ_eq_add_one, Nat.sub_add_cancel hpos, Nat.mul_comm]
  rw [hleft, hall, Nat.sub_zero]
  omega

/-- With exact weights a run is never cut off: it takes no more rounds than there can be moves and
window sizes between them, makes fewer moves than there are orders, and ends for a reason. -/
theorem improve_ends (hg : g.Built) (ho : g.ValidOrder order) (plan : Plan R)
    (hb : plan.settings.budget.isExhausted = false) :
    ∃ q t log,
      (∀ rounds, (g.opCount + 1) * g.opCount.factorial ≤ rounds →
        Phase.run plan rounds (ofOrder g order).beginPhase = .ok q) ∧
      (ofOrder g order).improve plan = .ok (t, log) ∧ t = q.schedule.closed ∧
      t.stats.rounds ≤ (g.opCount + 1) * g.opCount.factorial ∧
      t.stats.changes < g.opCount.factorial ∧ q.Stopped plan := by
  have hs := ofOrder_intact_of_validOrder hg.wellFormed ho
  have hleft := roundsLeft_beginPhase (ofOrder g order) g.opCount
  obtain ⟨q, hrun, hrounds, hend⟩ := Phase.run_ends plan ho (beginPhase_ready hs)
    (beginPhase_descended (ofOrder g order))
  rw [(beginPhase_spec (ofOrder g order)).2.2.2] at hrounds
  dsimp only at hrounds
  obtain ⟨t, log, himp⟩ := improve_succeeds hs rfl plan
  obtain ⟨hd, hc, -⟩ := improve_descent hs rfl himp
  have hchanges : t.stats.changes < g.opCount.factorial := hc ▸ hd.length_lt ho
  obtain ⟨p, hp, hclose⟩ := improve_eq_closeBooks himp
  have hlimit : Phase.run plan (roundLimit g.opCount) (ofOrder g order).beginPhase = .ok q :=
    hrun _ (hleft.trans_le (mul_factorial_le_roundLimit g.opCount))
  rw [if_neg (Bool.eq_false_iff.mp hb)] at hp
  obtain rfl := Except.ok.inj (hp.symm.trans hlimit)
  obtain ⟨rfl, -⟩ := closeBooks_spec hclose
  exact ⟨p, _, log, fun rounds hle => hrun _ (hleft.trans_le hle), himp, rfl,
    hrounds.trans (by omega), hchanges, hend⟩

/-- With exact weights a run without a time limit ends after finitely many rounds, whatever
the order of its visits, its search and its filter are, and it is not cut off. It converges
unless it makes as many moves as it may. There are fewer moves than orders, so a limit of that
many moves or more is none, and with it the run converges. -/
theorem improve_terminates (hg : g.Built) (ho : g.ValidOrder order) (plan : Plan R)
    (hb : plan.settings.budget.isExhausted = false) (ht : ∀ k, plan.timeUp k = false) :
    ∃ q t log,
      (∀ rounds, (g.opCount + 1) * g.opCount.factorial ≤ rounds →
        Phase.run plan rounds (ofOrder g order).beginPhase = .ok q) ∧
      (ofOrder g order).improve plan = .ok (t, log) ∧ t = q.schedule.closed ∧
      t.stats.rounds ≤ (g.opCount + 1) * g.opCount.factorial ∧
      t.stats.changes < g.opCount.factorial ∧
      (t.ending = .converged ∨
        t.ending = .swapLimited ∧ plan.settings.budget.swapLimit ≤ t.stats.changes) ∧
      ((g.opCount.factorial : Int) ≤ plan.settings.budget.swapLimit → t.ending = .converged) := by
  obtain ⟨q, _, log, hrun, himp, rfl, hrounds, hchanges, hstop⟩ := improve_ends hg ho plan hb
  have hend : q.schedule.ending = .converged ∨
      q.schedule.ending = .swapLimited ∧
        plan.settings.budget.swapLimit ≤ (q.schedule.stats.changes : Int) := by
    unfold Phase.Stopped at hstop
    split at hstop
    · next he => exact .inl he
    · next he => exact .inr ⟨he, hstop⟩
    · rw [ht] at hstop
      cases hstop
  refine ⟨q, _, log, hrun, himp, rfl, hrounds, hchanges, hend, fun hlarge => ?_⟩
  rcases hend with hend | ⟨-, hswaps⟩
  · exact hend
  · exact absurd (hlarge.trans hswaps) (not_le.mpr (Int.ofNat_lt.mpr hchanges))

section TwoChains

open Numbers

/-- The run that takes the two chains apart converges. -/
theorem twoChains_improve_terminates :
    SettingsOver.unrefined.budget.isExhausted = false ∧
      ((4).factorial : Int) ≤ SettingsOver.unrefined.budget.swapLimit ∧ ∃ q t log,
      (∀ rounds, 120 ≤ rounds →
        Phase.run (Plan.ofSettings Random.chaCha .unrefined Graph.twoChains.opCount
          fun _ => false) rounds (ofOrder Graph.twoChains [2, 0, 3, 1]).beginPhase = .ok q) ∧
      (ofOrder Graph.twoChains [2, 0, 3, 1]).improve
        (Plan.ofSettings Random.chaCha .unrefined Graph.twoChains.opCount
          fun _ => false) = .ok (t, log) ∧
      t = q.schedule.closed ∧ t.stats.rounds ≤ 120 ∧ t.stats.changes < 24 ∧
      t.ending = .converged := by
  have hbudget : SettingsOver.unrefined.budget.isExhausted = false := by decide
  have hswaps : ((4).factorial : Int) ≤ SettingsOver.unrefined.budget.swapLimit := by decide
  obtain ⟨q, t, log, hrun, himp, ht, hrounds, hchanges, -, hend⟩ :=
    improve_terminates Graph.twoChains_built twoChains_validOrder
      (Plan.ofSettings Random.chaCha .unrefined Graph.twoChains.opCount fun _ => false)
      hbudget fun _ => rfl
  exact ⟨hbudget, hswaps, q, t, log, hrun, himp, ht, hrounds, hchanges, hend hswaps⟩

end TwoChains

end Schedule

end Liveness
