import Liveness.Proofs.Schedule.Watched

/-! # Improving a converged schedule again

A run that starts with a converged schedule looks at windows of size one first, and finds
nothing in any size that the first run settled. So it moves nothing, and its windows grow
to the size at which the first run ended, where it ends as well.
-/

namespace Liveness

open Success

variable {W R : Type} [Weight W] {g : Graph W} {n : Nat}

namespace Schedule

variable {s t : Schedule W} {order : List Nat} {start k : Nat}

theorem Coherent.eq_of_ops (hs : s.Coherent) (ht : t.Coherent) (hg : t.graph = s.graph)
    (ho : t.ops = s.ops) : t = { s with
      liveness := t.liveness, roomAhead := t.roomAhead, roomBack := t.roomBack
      susceptible := t.susceptible, ending := t.ending, stats := t.stats } := by
  have hp := hs.places_eq ht hg ho
  have hap : t.allocPlaces = s.allocPlaces := by rw [ht.allocPlaces, hs.allocPlaces, hg, hp]
  have hpa : t.placeAllocs = s.placeAllocs := by rw [ht.placeAllocs, hs.placeAllocs, hg, ho]
  have hin : t.inPlaces = s.inPlaces := by rw [ht.inPlaces, hs.inPlaces, hg, hp]
  have hout : t.outPlaces = s.outPlaces := by rw [ht.outPlaces, hs.outPlaces, hg, hp]
  rw [← hg, ← ho, ← hp, ← hap, ← hpa, ← hin, ← hout]

omit [Weight W] in
theorem Cramped.congr (h : s.Cramped n)
    (he : t = { s with
      liveness := t.liveness, roomAhead := t.roomAhead, roomBack := t.roomBack
      susceptible := t.susceptible, ending := t.ending, stats := t.stats }) : t.Cramped n := by
  rw [he]
  exact h

theorem Cramped.succ (h : s.Cramped n) (hs : s.Coherent) : s.Cramped (n + 1) := by
  intro i hi
  have hahead : s.roomAheadAt (n + 1) i ≤ s.roomAheadAt n (i + 1) := by
    obtain ⟨hle, hind⟩ := (hs.le_roomAheadAt_iff_independent hi).mp (Nat.le_refl _)
    rw [hs.le_roomAheadAt_iff_independent (by omega), show i + 1 + n = i + (n + 1) by omega]
    exact ⟨hle, fun x y hxy hx => hind hxy (by omega)⟩
  have hback : s.roomBackAt (n + 1) i ≤ s.roomBackAt n i := by
    obtain ⟨hle, hind⟩ := (hs.le_roomBackAt_iff_independent hi).mp (Nat.le_refl _)
    rw [hs.le_roomBackAt_iff_independent (by omega)]
    refine ⟨hle, fun x y hxy hx hx' hy => ?_⟩
    have := hind hxy hx hx' hy
    omega
  have := h (i + 1) (by omega)
  have := h i (by omega)
  omega

variable [ExactWeight W]

/-- Where a size and all smaller ones are settled, no search for a window finds anything. -/
theorem UpToDate.bestOf_idle (h : s.UpToDate n) (hw : start + n ≤ s.opCount)
    (hs : ∀ k, 0 < k → k ≤ n → s.Settled k) (hn : 0 < n) :
    Weight.lt (s.bestOf start n).cost 0 = false := by
  unfold bestOf
  refine List.foldlRecOn (motive := fun best : Shift W => Weight.lt best.cost 0 = false) _ _
    (Weight.lt_self 0) fun best hb p hp => ?_
  unfold better
  dsimp only
  split
  · next hif =>
    rw [Bool.and_eq_true] at hif
    obtain ⟨target, ht, rfl⟩ := List.mem_map.mp hp
    obtain ⟨ht, hne⟩ := List.mem_filter.mp ht
    have hne : target ≠ start := of_decide_eq_true hne
    obtain ⟨hback, hahead⟩ := mem_targets ht
    obtain ⟨hra, hrb, -, hin⟩ := h.room_eq hw
    have hlinks : s.keepsLinksEitherWay start target n = true := by
      rw [← hif.2]
      congr 1
      dsimp only
      omega
    have hadm : s.Admissible ⟨start, target, n⟩ :=
      ⟨hw, hra ▸ hahead, hrb ▸ hback, fun _ => hlinks⟩
    obtain ⟨a, b, c, hbounds, hab, hbc, hc, hprice⟩ := priceAt_eq hw (by omega) hne
    have hi := hadm.independent h.toCoherent hbounds
    have hu := (keepsLinksEitherWay_iff hbounds hne.symm).mp hlinks
    have hcases := Move.bounds_cases hbounds
    dsimp only at hcases ⊢
    rw [hprice]
    -- an exchange is settled at the size of its smaller block, whichever of the two is moved
    by_cases hle : b - a ≤ c - b
    · exact hs (b - a) (by omega) (by omega) (by omega) (by omega) hc hi hu (.inl ⟨rfl, hle⟩)
    · exact hs (c - b) (by omega) (by omega) (by omega) (by omega) hc hi hu
        (.inr ⟨rfl, by omega⟩)
  · exact hb

end Schedule

namespace Round

variable [ExactWeight W] {settings : SettingsOver R} {touched : Array Bool} {r : Round W} {a : Nat}

theorem visit_settled (hr : r.Ready g n) (hn : 0 < n)
    (hs : ∀ k, 0 < k → k ≤ n → r.schedule.Settled k) :
    visit settings touched n r a = .ok r := by
  rw [visit_eq hn hr]
  rcases visited_cases settings touched n r a with ⟨-, he⟩ | ⟨hc, hlt, -⟩
  · rw [he]
  · have hw := (Schedule.isCandidate_iff.mp hc).1
    rw [hr.intact.toUpToDate.bestOf_idle hw hs hn] at hlt
    cases hlt

theorem foldlM_visit_settled {visits : List Nat} (hr : r.Ready g n) (hn : 0 < n)
    (hs : ∀ k, 0 < k → k ≤ n → r.schedule.Settled k) :
    visits.foldlM (visit settings touched n) r = .ok r := by
  induction visits with
  | nil => rfl
  | cons a visits ih =>
    rw [List.foldlM_cons, visit_settled hr hn hs]
    exact ih

end Round

namespace Phase

variable [ExactWeight W] {plan : Plan R} {p q : Phase W} {m : Nat}

theorem runRound_of_settled (hp : p.Ready g)
    (hs : ∀ k, 0 < k → k ≤ p.window → p.schedule.Settled k) :
    p.runRound plan = .ok p.startRound := by
  rw [runRound_eq]
  exact Round.foldlM_visit_settled (startRound_ready hp) hp.pos fun k hk hkn =>
    (hs k hk hkn).congr rfl

omit [ExactWeight W] in
theorem run_succ {rounds : Nat} {r : Round W} (h : p.runRound plan = .ok r)
    (hl : limitPassed? plan (p.afterRound r).schedule = none) :
    Phase.run plan (rounds + 1) p =
      if (p.afterRound r).isConverged then .ok ((p.afterRound r).finish .converged)
      else Phase.run plan rounds (p.afterRound r) := by
  rw [run_succ_of_runRound h, hl]

structure Unmoved (p q : Phase W) : Prop where
  graph : q.schedule.graph = p.schedule.graph
  ops : q.schedule.ops = p.schedule.ops
  allocPlaces : q.schedule.allocPlaces = p.schedule.allocPlaces
  changes : q.schedule.stats.changes = p.schedule.stats.changes
  initial : q.schedule.stats.initial = p.schedule.stats.initial
  accumulated : q.accumulated = p.accumulated

omit [Weight W] [ExactWeight W] in
theorem Unmoved.trans {p₁ p₂ p₃ : Phase W} (h : Unmoved p₁ p₂) (h' : Unmoved p₂ p₃) :
    Unmoved p₁ p₃ :=
  ⟨h'.graph.trans h.graph, h'.ops.trans h.ops, h'.allocPlaces.trans h.allocPlaces,
    h'.changes.trans h.changes, h'.initial.trans h.initial, h'.accumulated.trans h.accumulated⟩

omit [ExactWeight W] in
theorem afterRound_startRound (hq : p.quiet = true) :
    Unmoved p (p.afterRound p.startRound) ∧
      (p.afterRound p.startRound).window = p.window + 1 ∧
      (p.afterRound p.startRound).quiet = true := by
  have hs := afterRound_schedule p p.startRound
  have hnext : p.nextWindow p.startRound =
      ⟨touchAll (withStats p.startRound.schedule fun stats =>
        { stats with changes := stats.changes + 0 }), p.scratch, p.window + 1, true,
        p.accumulated, p.log ++ []⟩ := by
    unfold nextWindow
    rw [hq]
    rfl
  refine ⟨⟨?_, ?_, ?_, ?_, ?_, ?_⟩, ?_, ?_⟩
  · rw [hs]; rfl
  · rw [hs]; rfl
  · rw [hs]; rfl
  · rw [hs, hnext]; rfl
  · rw [hs, hnext]; rfl
  · rw [afterRound, hnext]; rfl
  · rw [afterRound_window, hnext]
  · rw [afterRound, hnext]; rfl

/-- Where all sizes below `m` are settled and no window of size `m` has more room than its
size, a run from smaller windows converges and moves nothing. -/
theorem run_of_settled {rounds : Nat} (hp : p.Ready g) (hq : p.quiet = true)
    (hs : ∀ k, 0 < k → k < m → p.schedule.Settled k) (hc : p.schedule.Cramped m)
    (hm : p.window < m) (hr : m ≤ p.window + rounds)
    (hl : ∀ s : Schedule W, s.stats.changes = p.schedule.stats.changes →
      limitPassed? plan s = none) :
    ∃ q, Phase.run plan rounds p = .ok q ∧ Unmoved p q ∧ q.schedule.ending = .converged := by
  induction rounds generalizing p with
  | zero => omega
  | succ rounds ih =>
    obtain ⟨hun, hwin, hquiet⟩ := afterRound_startRound hq
    have hround : p.runRound plan = .ok p.startRound :=
      runRound_of_settled hp fun k hk hkn => hs k hk (by omega)
    have hready := afterRound_ready hp (startRound_ready hp)
    have heq := hp.intact.toCoherent.eq_of_ops hready.intact.toCoherent hun.graph hun.ops
    rw [run_succ hround (hl _ hun.changes)]
    split
    · exact ⟨_, rfl, ⟨hun.graph, hun.ops, hun.allocPlaces, hun.changes, hun.initial,
        hun.accumulated⟩, rfl⟩
    · next hnc =>
      have hlt : p.window + 1 < m := by
        refine Nat.lt_of_le_of_ne hm fun he => hnc ?_
        rw [isConverged_iff hready, hwin, he]
        exact ⟨hquiet, hc.congr heq⟩
      obtain ⟨q, hrun, hunq, hend⟩ := ih hready hquiet (fun k hk hkm => (hs k hk hkm).congr heq)
        (hc.congr heq) (hwin ▸ hlt) (by omega) fun s hsc => hl s (hsc.trans hun.changes)
      exact ⟨q, hrun, hun.trans hunq, hend⟩

end Phase

namespace Schedule

variable {s t : Schedule W} {order : List Nat}

theorem le_roundLimit (n : Nat) : n + 3 ≤ roundLimit n := by
  unfold roundLimit
  exact (Nat.le_mul_of_pos_right (n + 3) (Nat.succ_pos _)).trans (Nat.le_add_right ..)

theorem livenessOf_congr (hg : t.graph = s.graph) (hp : t.allocPlaces = s.allocPlaces) :
    t.livenessOf = s.livenessOf := by
  unfold livenessOf placesOfAlloc opCount
  rw [hg, hp]

def closed (s : Schedule W) : Schedule W :=
  { s.refreshLiveness with stats := { s.stats with final := s.refreshLiveness.sumLiveness } }

theorem closeBooks_eq_ok {p : Phase W} {m : W}
    (h : Weight.agree (p.schedule.refreshLiveness.sumLiveness - p.schedule.stats.initial)
      p.accumulated = true) : ∃ log, closeBooks m p = .ok (p.schedule.closed, log) := by
  unfold closeBooks
  dsimp only
  rw [if_pos (show Weight.agree (_ - p.schedule.refreshLiveness.stats.initial) _ = true from h)]
  exact ⟨_, rfl⟩

theorem beginPhase_spec (s : Schedule W) : s.beginPhase.schedule.graph = s.graph ∧
    s.beginPhase.schedule.ops = s.ops ∧ s.beginPhase.schedule.allocPlaces = s.allocPlaces ∧
    s.beginPhase.schedule.stats = ⟨0, 0, 0, s.sumLiveness, s.sumLiveness⟩ := by
  unfold beginPhase
  dsimp only
  split <;> exact ⟨rfl, rfl, rfl, rfl⟩

omit [Weight W] in
theorem limitPassed?_eq_none [Priority R] {plan : Plan R}
    (hb : plan.settings.budget.isExhausted = false) (ht : ∀ n, plan.timeUp n = false)
    (hc : s.stats.changes = 0) : Phase.limitPassed? plan s = none := by
  unfold BudgetOver.isExhausted at hb
  rw [Bool.or_eq_false_iff] at hb
  have hswap : ¬ plan.settings.budget.swapLimit ≤ ((s.stats.changes : Nat) : Int) := by
    rw [hc]
    simpa using hb.2
  unfold Phase.limitPassed?
  rw [if_neg hswap, ht]
  rfl

variable [ExactWeight W] [Priority R] {source source' : Random.Source}
  {settings settings' : SettingsOver R} {timeUp : Nat → Bool} {log : Log W}

/-- What a run that converged leaves: no window has more room than the size of the last
windows, and all smaller sizes are settled, size one in any case. -/
theorem improve_settled (hs : s.Intact g 1)
    (h : s.improve (Plan.ofSettings source settings g.opCount timeUp) = .ok (t, log))
    (hc : t.ending = .converged) : ∃ p : Phase W, t = p.schedule.closed ∧ p.Ready g ∧
      p.schedule.Cramped p.window ∧
      ∀ k, 0 < k → k < p.window ∨ k = 1 → p.schedule.Settled k := by
  obtain ⟨p, hp, rfl⟩ := improve_eq_ok h
  split at hp
  · obtain rfl := pure_eq_ok.mp hp
    have he : endingOf settings.budget = .converged := hc
    unfold endingOf at he
    split at he <;> cases he
  · have hready := beginPhase_ready hs
    have hexp := beginPhase_explored s
    exact ⟨p, rfl, Phase.run_settled hready hexp (hexp.watched hready rfl)
      (fun a ha => Plan.mem_visits ha) hp hc⟩

/-- A size, small enough to be reached, with no room left and all smaller sizes settled. -/
theorem exists_settled_below {p : Phase W} (hp : p.Ready g) (hcr : p.schedule.Cramped p.window)
    (hset : ∀ k, 0 < k → k < p.window ∨ k = 1 → p.schedule.Settled k) :
    ∃ m, 1 < m ∧ m ≤ g.opCount + 2 ∧ p.schedule.Cramped m ∧
      ∀ k, 0 < k → k < m → p.schedule.Settled k := by
  have hcount : p.schedule.opCount = g.opCount := congrArg Graph.opCount hp.intact.graph_eq
  have hpos := hp.pos
  obtain hone | hlarge | hsmall :
      p.window = 1 ∨ g.opCount + 2 < p.window ∨ 1 < p.window ∧ p.window ≤ g.opCount + 2 := by
    omega
  · exact ⟨2, by omega, by omega, (hone ▸ hcr : p.schedule.Cramped 1).succ hp.intact.toCoherent,
      fun k hk hkm => hset k hk (by omega)⟩
  · -- Windows larger than the schedule do not exist.
    exact ⟨g.opCount + 2, by omega, by omega, fun i hi => by omega,
      fun k hk hkm => hset k hk (by omega)⟩
  · exact ⟨p.window, hsmall.1, hsmall.2, hcr, fun k hk hkm => hset k hk (.inl hkm)⟩

theorem improve_of_unmoved {plan : Plan R} {q : Phase W} (hs : s.liveness = s.livenessOf)
    (hb : plan.settings.budget.isExhausted = false)
    (hrun : Phase.run plan (roundLimit s.opCount) s.beginPhase = .ok q)
    (hun : s.beginPhase.Unmoved q) : ∃ log, s.improve plan = .ok (q.schedule.closed, log) := by
  obtain ⟨hbg, -, hba, hbs⟩ := beginPhase_spec s
  have hlive : q.schedule.livenessOf = s.liveness :=
    (livenessOf_congr (hun.graph.trans hbg) (hun.allocPlaces.trans hba)).trans hs.symm
  have hsum : q.schedule.refreshLiveness.sumLiveness = q.schedule.stats.initial := by
    rw [hun.initial, hbs]
    exact congrArg (fun ws : Array W => Weight.sum ws.toList) hlive
  have hzero : Weight.agree (q.schedule.refreshLiveness.sumLiveness - q.schedule.stats.initial)
      q.accumulated = true := by
    rw [hsum, sub_self, hun.accumulated]
    exact ExactWeight.toExactLaws.agree_self 0
  obtain ⟨log, hclose⟩ := closeBooks_eq_ok (m := s.maxLiveness) hzero
  refine ⟨log, ?_⟩
  unfold improve
  dsimp only
  rw [if_neg (Bool.eq_false_iff.mp hb), hrun]
  exact hclose

/-- Improving the schedule of a converged run again moves nothing and converges, whatever
the settings of the two runs and their sources are. -/
theorem improve_again (hg : g.Built) (ho : g.ValidOrder order)
    (h : (ofOrder g order).improve (Plan.ofSettings source settings g.opCount timeUp) = .ok (t, log))
    (hc : t.ending = .converged) (hb : settings'.budget.isExhausted = false) :
    ∃ t' log', (ofOrder g t.ops.toList).improve
        (Plan.ofSettings source' settings' g.opCount fun _ => false) = .ok (t', log') ∧
      t'.ending = .converged ∧ t'.stats.changes = 0 ∧ t'.ops = t.ops ∧
      t'.liveness = t.liveness ∧ t'.sumLiveness = t.sumLiveness := by
  obtain ⟨p, rfl, hready, hcr, hset⟩ :=
    improve_settled (ofOrder_intact_of_validOrder hg.wellFormed ho) h hc
  set s := ofOrder g p.schedule.closed.ops.toList with hs
  have hops : s.ops = p.schedule.ops := by
    simp [hs, ofOrder, setRoom, closed, refreshLiveness]
  have hi : s.Intact g 1 :=
    ofOrder_intact_of_validOrder hg.wellFormed hready.intact.validOrder
  obtain ⟨hbg, hbo, -, hbs⟩ := beginPhase_spec s
  have hgraph : s.beginPhase.schedule.graph = p.schedule.graph :=
    hbg.trans (hi.graph_eq.trans hready.intact.graph_eq.symm)
  have heq := hready.intact.toCoherent.eq_of_ops (beginPhase_ready hi).intact.toCoherent hgraph
    (hbo.trans hops)
  -- The run ends at windows of size two if the first one ended at size one.
  obtain ⟨m, hm, hmr, hcm, hmset⟩ := exists_settled_below hready hcr hset
  have hrounds : m ≤ s.beginPhase.window + roundLimit s.opCount := by
    have hlimit : g.opCount + 3 ≤ roundLimit s.opCount := le_roundLimit g.opCount
    omega
  have hlimits : ∀ u : Schedule W, u.stats.changes = s.beginPhase.schedule.stats.changes →
      Phase.limitPassed? (Plan.ofSettings source' settings' g.opCount fun _ => false) u = none :=
    fun u hu => limitPassed?_eq_none hb (fun _ => rfl) (by rw [hu, hbs])
  obtain ⟨q, hrun, hun, hend⟩ := Phase.run_of_settled (beginPhase_ready hi) rfl
    (fun k hk hkm => (hmset k hk hkm).congr heq) (hcm.congr heq) hm hrounds hlimits
  have hlive : q.schedule.livenessOf = p.schedule.livenessOf :=
    livenessOf_congr (hun.graph.trans hgraph)
      (hun.allocPlaces.trans (congrArg (fun t => t.allocPlaces) heq))
  obtain ⟨log', himp⟩ := improve_of_unmoved rfl hb hrun hun
  exact ⟨q.schedule.closed, log', himp, hend, hun.changes.trans (by rw [hbs]),
    hun.ops.trans (hbo.trans hops), hlive,
    congrArg (fun ws : Array W => Weight.sum ws.toList) hlive⟩

section TwoChains

open Numbers

theorem twoChains_validOrder : Graph.twoChains.ValidOrder [2, 0, 3, 1] := by decide

/-- The first run takes the two chains apart. The second one keeps what it finds, though it
draws other numbers and searches in another way. -/
theorem twoChains_improve_again : ∃ t log,
    (ofOrder Graph.twoChains [2, 0, 3, 1]).improve
        (Plan.ofSettings Random.chaCha .unrefined Graph.twoChains.opCount
          fun _ => false) = .ok (t, log) ∧
      t.ending = .converged ∧ 0 < t.stats.changes ∧
      ∃ t' log', (ofOrder Graph.twoChains t.ops.toList).improve
          (Plan.ofSettings Random.chaCha { SettingsOver.unrefined with search := .simple, seed := 7 }
            Graph.twoChains.opCount fun _ => false) = .ok (t', log') ∧
        t'.ending = .converged ∧ t'.stats.changes = 0 ∧ t'.ops = t.ops ∧
        t'.liveness = t.liveness ∧ t'.sumLiveness = t.sumLiveness := by
  have hok : (match (ofOrder Graph.twoChains [2, 0, 3, 1]).improve
        (Plan.ofSettings Random.chaCha .unrefined Graph.twoChains.opCount fun _ => false) with
      | .ok (t, _) => decide (t.ending = .converged ∧ 0 < t.stats.changes)
      | .error _ => false) = true := by decide +kernel
  split at hok
  · next t log ht =>
    obtain ⟨hc, hpos⟩ := of_decide_eq_true hok
    exact ⟨t, log, ht, hc, hpos,
      improve_again Graph.twoChains_built twoChains_validOrder ht hc (by decide)⟩
  · cases hok

end TwoChains

end Schedule

end Liveness
