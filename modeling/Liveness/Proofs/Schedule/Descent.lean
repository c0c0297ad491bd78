import Liveness.Proofs.Weight.Order
import Liveness.Proofs.Schedule.Succeeds

/-! # Runs go down

Every move of a run takes a valid order to one of less total liveness, and the cost that the
log tells of is the difference. So the moves of the log lead from the first order to the last
one, their costs add up to the difference of the two totals, and a run that moves anything ends
below where it began.
-/

namespace Liveness

open Success

variable {W R : Type} {g : Graph W} {order next last : List Nat} {n : Nat}

namespace Event

def moves (log : Log W) : List (Move × W) :=
  log.filterMap fun
    | .moved move cost => some (move, cost)
    | _ => none

@[simp]
theorem moves_append (log rest : Log W) : moves (log ++ rest) = moves log ++ moves rest :=
  List.filterMap_append

end Event

variable [Weight W] [ExactWeight W]

namespace Graph

/-- Moves that lead from one order to another. Each of them gives a valid order, lowers the
total liveness, and costs the difference. -/
inductive Descent (g : Graph W) : List Nat → List (Move × W) → List Nat → Prop
  | stay (order : List Nat) : Descent g order [] order
  | move {order next last : List Nat} {m : Move} {cost : W} {moves : List (Move × W)}
      (valid : g.ValidOrder next) (moved : next = (m.apply order.toArray).toList)
      (lowers : cost < 0)
      (total : g.totalLiveness next.idxOf = g.totalLiveness order.idxOf + cost)
      (rest : Descent g next moves last) : Descent g order ((m, cost) :: moves) last

namespace Descent

variable {moves rest : List (Move × W)}

theorem trans (h : g.Descent order moves next) (h' : g.Descent next rest last) :
    g.Descent order (moves ++ rest) last := by
  induction h with
  | stay => exact h'
  | move valid moved lowers total _ ih => exact .move valid moved lowers total (ih h')

theorem total_eq (h : g.Descent order moves last) : g.totalLiveness last.idxOf =
    g.totalLiveness order.idxOf + Weight.sum (moves.map Prod.snd) := by
  rw [ExactWeight.sum_eq]
  induction h with
  | stay => simp
  | move _ _ _ total _ ih => rw [ih, total, List.map_cons, List.sum_cons, add_assoc]

theorem total_le (h : g.Descent order moves last) :
    g.totalLiveness last.idxOf ≤ g.totalLiveness order.idxOf := by
  induction h with
  | stay => exact le_refl _
  | move _ _ lowers total _ ih =>
    refine ih.trans ?_
    rw [total]
    exact add_le_of_nonpos_right lowers.le

theorem total_eq_iff (h : g.Descent order moves last) :
    g.totalLiveness last.idxOf = g.totalLiveness order.idxOf ↔ moves = [] := by
  cases h with
  | stay => simp
  | move _ _ lowers total rest =>
    refine iff_of_false (ne_of_lt (rest.total_le.trans_lt ?_)) (List.cons_ne_nil _ _)
    rw [total]
    exact add_lt_of_neg_right _ lowers

end Descent

end Graph

namespace Schedule

variable {s : Schedule W}

theorem Intact.total_eq (h : s.Intact g n) : s.total = g.totalLiveness s.ops.toList.idxOf := by
  rw [total, Graph.totalLiveness_eq, Graph.totalLiveness_eq, ← h.graph_eq]
  refine Finset.sum_congr rfl fun r _ => ?_
  have hplaces : (s.graph.alloc r).ops.map s.placeOf =
      (s.graph.alloc r).ops.map s.ops.toList.idxOf :=
    List.map_congr_left fun a ha => (h.toCoherent.idxOf_eq (h.wellFormed.ops_lt ha)).symm
  rw [Graph.allocLiveness, Graph.allocLiveness, hplaces]

theorem Intact.descent_apply {start : Nat} (h : s.Intact g n) (hw : start + n ≤ s.opCount)
    (hlt : Weight.lt (s.bestOf start n).cost 0 = true)
    (ht : (s.apply (moveBy start n (s.bestOf start n).distance)).Intact g n) :
    g.Descent s.ops.toList [(moveBy start n (s.bestOf start n).distance, (s.bestOf start n).cost)]
      (s.apply (moveBy start n (s.bestOf start n).distance)).ops.toList := by
  refine .move ht.validOrder ?_ (ExactWeight.lt_iff.mp hlt) ?_ (.stay _)
  · rw [ops_apply, Array.toArray_toList]
  · rw [← ht.total_eq, ← h.total_eq, h.toUpToDate.total_apply_bestOf hw hlt]

end Schedule

structure Round.Descended (g : Graph W) (order : List Nat) (r : Round W) : Prop where
  descent : g.Descent order (Event.moves r.log) r.schedule.ops.toList
  counted : r.changes = (Event.moves r.log).length

structure Phase.Descended (g : Graph W) (order : List Nat) (p : Phase W) : Prop where
  descent : g.Descent order (Event.moves p.log) p.schedule.ops.toList
  counted : p.schedule.stats.changes = (Event.moves p.log).length

namespace Round

variable {settings : SettingsOver R} {touched : Array Bool} {r r' : Round W} {a : Nat}

theorem visit_descended (hn : 0 < n) (hr : r.Ready g n) (hd : r.Descended g order)
    (h : visit settings touched n r a = .ok r') : r'.Descended g order := by
  have hr' := visit_ready hn hr h
  rw [visit_eq hn hr] at h
  obtain rfl := Except.ok.inj h
  rcases visited_cases settings touched n r a with ⟨-, he⟩ | ⟨hc, hlt, he⟩
  · rwa [he]
  · have hw := (Schedule.isCandidate_iff.mp hc).1
    rw [he] at hr' ⊢
    have hstep := hr.intact.descent_apply hw hlt hr'.intact
    constructor
    · rw [shifted, Event.moves_append]
      exact hd.descent.trans hstep
    · rw [shifted, Event.moves_append, List.length_append, ← hd.counted]
      rfl

theorem visit_stats (hn : 0 < n) (hr : r.Ready g n) (h : visit settings touched n r a = .ok r') :
    r'.schedule.stats = r.schedule.stats := by
  rw [visit_eq hn hr] at h
  obtain rfl := Except.ok.inj h
  rcases visited_cases settings touched n r a with ⟨-, he⟩ | ⟨-, -, he⟩
  · rw [he]
  · rw [he]
    exact Schedule.stats_apply _ _

end Round

namespace Phase

variable {plan : Plan R} {p q : Phase W} {r : Round W}

theorem runRound_descended (hp : p.Ready g) (h : p.runRound plan = .ok r) :
    r.Descended g p.schedule.ops.toList :=
  runRound_keeps hp ⟨.stay _, rfl⟩
    (fun _ _ _ hr hd hv => Round.visit_descended hp.pos hr hd hv) h

theorem runRound_stats (hp : p.Ready g) (h : p.runRound plan = .ok r) :
    r.schedule.stats = { p.schedule.stats with rounds := p.schedule.stats.rounds + 1 } :=
  runRound_keeps (P := fun r : Round W => r.schedule.stats = p.startRound.schedule.stats) hp rfl
    (fun _ _ _ hr hs hv => (Round.visit_stats hp.pos hr hv).trans hs) h

omit [Weight W] [ExactWeight W] in
theorem afterRound_counts (p : Phase W) (r : Round W) :
    (p.afterRound r).schedule.stats.changes = r.schedule.stats.changes + r.changes ∧
      (p.afterRound r).schedule.stats.rounds = r.schedule.stats.rounds ∧
      Event.moves (p.afterRound r).log = Event.moves p.log ++ Event.moves r.log := by
  have hcounts : (p.nextWindow r).schedule.stats.changes = r.schedule.stats.changes + r.changes ∧
      (p.nextWindow r).schedule.stats.rounds = r.schedule.stats.rounds ∧
      (p.nextWindow r).log = p.log ++ r.log := by
    unfold nextWindow
    dsimp only
    split
    · exact ⟨rfl, rfl, rfl⟩
    · split <;> exact ⟨rfl, rfl, rfl⟩
  obtain ⟨hchanges, hrounds, hlog⟩ := hcounts
  refine ⟨?_, ?_, ?_⟩
  · rw [afterRound_schedule, hchanges]
  · rw [afterRound_schedule, hrounds]
  · rw [afterRound, settle, Event.moves_append, hlog, Event.moves_append]
    exact List.append_nil _

theorem afterRound_descended (hp : p.Ready g) (hd : p.Descended g order)
    (h : p.runRound plan = .ok r) : (p.afterRound r).Descended g order := by
  have hr := runRound_descended hp h
  obtain ⟨hchanges, -, hmoves⟩ := afterRound_counts p r
  constructor
  · rw [hmoves, afterRound_schedule]
    exact hd.descent.trans hr.descent
  · rw [hchanges, hmoves, List.length_append, ← hr.counted, ← hd.counted, runRound_stats hp h]

theorem run_descended {rounds : Nat} (hp : p.Ready g) (hd : p.Descended g order)
    (h : Phase.run plan rounds p = .ok q) : q.Descended g order := by
  refine (run_keeps (P := fun p : Phase W => p.Ready g ∧ p.Descended g order) ⟨hp, hd⟩
    (fun p r hp hr => ?_) (fun p _ hp => ⟨hp.1.finish _, hp.2.descent, hp.2.counted⟩) h).2
  exact ⟨afterRound_ready hp.1 (runRound_ready hp.1 hr), afterRound_descended hp.1 hp.2 hr⟩

end Phase

namespace Schedule

variable {s t : Schedule W} {log : Log W}

theorem beginPhase_descended (s : Schedule W) : s.beginPhase.Descended g s.ops.toList := by
  obtain ⟨-, ho, -, hs⟩ := beginPhase_spec s
  constructor
  · rw [ho]
    exact .stay _
  · rw [hs]
    rfl

variable [Priority R] {plan : Plan R}

theorem improve_ran (hs : s.Intact g 1) (hl : s.liveness = s.livenessOf)
    (h : s.improve plan = .ok (t, log)) : ∃ p : Phase W, p.schedule.Intact g p.window ∧
      p.Booked s.total ∧ p.Descended g s.ops.toList ∧
      closeBooks s.maxLiveness p = .ok (t, log) := by
  obtain ⟨p, hp, hclose⟩ := improve_eq_closeBooks h
  have hready := beginPhase_ready hs
  have hbooked := beginPhase_booked hs.toCoherent hl
  have hbegin := beginPhase_descended (g := g) s
  split at hp
  · obtain rfl := pure_eq_ok.mp hp
    exact ⟨s.beginPhase.finish (endingOf plan.settings.budget), hready.intact.congr rfl,
      ⟨hbooked.recorded, hbooked.total⟩, ⟨hbegin.descent, hbegin.counted⟩, hclose⟩
  · exact ⟨p, Phase.run_intact hready.pos hready.intact hp, Phase.run_booked hready hbooked hp,
      Phase.run_descended hready hbegin hp, hclose⟩

/-- Improving a schedule goes down by the moves that the log tells of. They are counted, and
the sums on record are the total liveness before and after them. -/
theorem improve_descent (hs : s.Intact g 1) (hl : s.liveness = s.livenessOf)
    (h : s.improve plan = .ok (t, log)) :
    g.Descent s.ops.toList (Event.moves log) t.ops.toList ∧
      t.stats.changes = (Event.moves log).length ∧
      t.stats.initial = g.totalLiveness s.ops.toList.idxOf ∧
      t.stats.final = g.totalLiveness t.ops.toList.idxOf := by
  obtain ⟨p, hi, hb, hd, hclose⟩ := improve_ran hs hl h
  obtain ⟨rfl, balance, rfl⟩ := closeBooks_spec hclose
  have hmoves : Event.moves (p.log ++ [.finished p.schedule.ending p.schedule.stats.rounds
      p.schedule.stats.changes balance]) = Event.moves p.log := by
    rw [Event.moves_append]
    exact List.append_nil _
  refine ⟨?_, ?_, ?_, ?_⟩
  · rw [hmoves]
    exact hd.descent
  · rw [hmoves]
    exact hd.counted
  · rw [← hs.total_eq]
    exact hb.recorded
  · exact hi.toCoherent.sum_livenessOf.trans hi.total_eq

/-- With exact weights every move that a run carries out keeps the order valid and lowers the
total liveness, and the cost that is told of it is the difference. So what the run ends with
is what it began with and the costs of all moves, and is less unless nothing moved. -/
theorem improve_descends (hg : g.Built) (ho : g.ValidOrder order)
    (plan : Plan R) : ∃ t log, (ofOrder g order).improve plan = .ok (t, log) ∧
      g.Descent order (Event.moves log) t.ops.toList ∧
      t.stats.changes = (Event.moves log).length ∧
      t.stats.initial = g.totalLiveness order.idxOf ∧
      t.stats.final = g.totalLiveness t.ops.toList.idxOf ∧
      t.stats.final = t.stats.initial + Weight.sum ((Event.moves log).map Prod.snd) ∧
      t.stats.final ≤ t.stats.initial ∧
      (t.stats.final = t.stats.initial ↔ t.stats.changes = 0) := by
  have hs := ofOrder_intact_of_validOrder hg.wellFormed ho
  obtain ⟨t, log, h⟩ := improve_succeeds hs rfl plan
  obtain ⟨hd, hc, hinitial, hfinal⟩ := improve_descent hs rfl h
  have hops : (ofOrder g order).ops.toList = order := rfl
  rw [hops] at hd hinitial
  refine ⟨t, log, h, hd, hc, hinitial, hfinal, ?_, ?_, ?_⟩
  · rw [hinitial, hfinal, hd.total_eq]
  · rw [hinitial, hfinal]
    exact hd.total_le
  · rw [hinitial, hfinal, hd.total_eq_iff, hc, List.length_eq_zero_iff]

section TwoChains

open Numbers

/-- The two chains are taken apart, and the costs of the moves are what that saves. -/
theorem twoChains_improve_descends : ∃ t log,
    (ofOrder Graph.twoChains [2, 0, 3, 1]).improve
        (Plan.ofSettings Random.chaCha .unrefined Graph.twoChains.opCount fun _ => false) = .ok (t, log) ∧
      Graph.twoChains.Descent [2, 0, 3, 1] (Event.moves log) t.ops.toList ∧
      0 < t.stats.changes ∧ t.stats.changes = (Event.moves log).length ∧
      t.stats.initial = Graph.twoChains.totalLiveness [2, 0, 3, 1].idxOf ∧
      t.stats.final = Graph.twoChains.totalLiveness t.ops.toList.idxOf ∧
      t.stats.final = t.stats.initial + Weight.sum ((Event.moves log).map Prod.snd) ∧
      t.stats.final < t.stats.initial := by
  obtain ⟨t, log, h, hd, hc, hinitial, hfinal, hsum, hle, hiff⟩ :=
    improve_descends Graph.twoChains_built twoChains_validOrder
      (Plan.ofSettings Random.chaCha .unrefined Graph.twoChains.opCount fun _ => false)
  have hpos : (match (ofOrder Graph.twoChains [2, 0, 3, 1]).improve
        (Plan.ofSettings Random.chaCha .unrefined Graph.twoChains.opCount fun _ => false) with
      | .ok (t, _) => decide (0 < t.stats.changes)
      | .error _ => false) = true := by decide +kernel
  rw [h] at hpos
  have hpos : 0 < t.stats.changes := of_decide_eq_true hpos
  exact ⟨t, log, h, hd, hpos, hc, hinitial, hfinal, hsum,
    lt_of_le_of_ne hle fun he => Nat.ne_of_gt hpos (hiff.mp he)⟩

end TwoChains

end Schedule

end Liveness
