import Liveness.Proofs.Graph.Built
import Liveness.Proofs.Graph.Schedulable
import Liveness.Proofs.Schedule.Priority
import Liveness.Random.Draw
import Liveness.Schedule.OfGraph

/-! # First orders are valid

Among ready units there is always a candidate, and every rule picks one. So all rules take
the same units, and the search for a first order comes out as the check of the graph does:
a graph that can be scheduled gets a first order, which is valid, and for other graphs the
search fails with the error of the check.
-/

namespace Liveness

open Success

namespace Kahn

variable {W P σ : Type} [Weight W] [Priority P] {g : Graph W} {pick : σ → Nat → Nat × σ}
  {rule : TieBreak} {cost : Nat → W} {priority : Nat → P} {listed : List (Nat × P)}
  {ready options order : List Nat} {best : Nat × W} {s : σ} {i : Nat}

omit [Weight W] in
theorem lt_of_mem_candidates (hi : i ∈ candidates priority ready) : i < ready.length :=
  List.mem_range.mp (List.mem_filter.mp hi).1

theorem candidates_ne_nil [LawfulPriority P]
    (hp : ∀ u, Priority.atLeast (priority u) (priority u) = true) (hne : ready ≠ []) :
    candidates priority ready ≠ [] := by
  have hne' : ready.map priority ≠ [] := by simpa using hne
  obtain ⟨p, hm, htop⟩ := Priority.exists_atLeast_top hne' (by simpa using fun u _ => hp u)
  obtain ⟨u, hu, rfl⟩ := List.mem_map.mp hm
  obtain ⟨i, hi, rfl⟩ := List.getElem_of_mem hu
  apply List.ne_nil_of_mem (a := i)
  simp [candidates, hi, htop]

theorem cheapest_mem :
    cheapest cost best options = best.1 ∨ cheapest cost best options ∈ options := by
  induction options generalizing best with
  | nil => exact .inl rfl
  | cons i options ih =>
    unfold cheapest
    dsimp only
    rw [List.mem_cons]
    split
    · exact .inr ih
    · exact ih.imp_right .inr

theorem choose?_eq_some (hpick : ∀ s k, 0 < k → (pick s k).1 < k) (hne : options ≠ []) :
    ∃ i ∈ options, ∃ s', choose? pick rule cost s options = some (i, s') := by
  cases rule with
  | random =>
    have hlt := hpick s options.length (List.length_pos_iff.mpr hne)
    refine ⟨_, List.getElem_mem hlt, (pick s options.length).2, ?_⟩
    simp [choose?, hlt]
  | greedy =>
    cases options with
    | nil => exact absurd rfl hne
    | cons i rest => exact ⟨_, List.mem_cons.mpr cheapest_mem, _, rfl⟩
  | fifo =>
    exact ⟨_, List.getLast_mem hne, s, by simp [choose?, List.getLast?_eq_some_getLast hne]⟩

theorem choice_picks [LawfulPriority P] (hpick : ∀ s k, 0 < k → (pick s k).1 < k)
    (hp : ∀ u, Priority.atLeast (priority u) (priority u) = true) :
    (choice g pick rule priority).Picks := by
  rintro ⟨demand, s⟩ ready hne
  have hchoose : ∃ i ∈ candidates priority ready, ∃ s', choose? pick rule
      (fun i => demand.change g (ready.getD i 0)) s (candidates priority ready) = some (i, s') :=
    choose?_eq_some hpick (candidates_ne_nil hp hne)
  obtain ⟨i, hi, s', he⟩ := hchoose
  unfold choice
  dsimp only
  rw [he]
  exact lt_of_mem_candidates hi

section Schedule

omit [Weight W] [Priority P] in
theorem checkOps_listed (hlisted : ∀ p ∈ listed, p.1 < g.opCount) :
    g.checkOps (listed.map Prod.fst) = .ok () := by
  rw [Graph.checkOps_eq_ok]
  rintro _ ha
  obtain ⟨p, hp, rfl⟩ := List.mem_map.mp ha
  exact hlisted p hp

omit [Weight W] in
theorem unitPriorities_self [LawfulPriority P] (ps : Array P) (units : List (List Nat)) (u : Nat) :
    let priority := (units.map (unitPriority ps)).toArray.getD u 0
    Priority.atLeast priority priority = true := by
  by_cases hu : u < units.length
  · simpa [hu] using! Priority.top_self _
  · simpa [hu] using LawfulPriority.zero_self

theorem unitChoice_picks [LawfulPriority P] (hpick : ∀ s k, 0 < k → (pick s k).1 < k)
    (g : Graph W) (ps : Array P) (units : List (List Nat)) :
    (choice g pick rule fun u => (units.map (unitPriority ps)).toArray.getD u 0).Picks :=
  choice_picks hpick (unitPriorities_self ps units)

/-- A search succeeds when every listed Op exists and the units that it takes spell out all Ops. -/
theorem schedule_eq_ok : Kahn.schedule g pick rule listed s = .ok order ↔
    (∀ p ∈ listed, p.1 < g.opCount) ∧ ∃ c, g.contractLinks = .ok c ∧
      order = c.expand (Kahn.order c.graph pick rule (fun u =>
        (c.units.map (unitPriority (priorities g.opCount listed))).toArray.getD u 0) s) ∧
      order.length = g.opCount := by
  unfold Kahn.schedule
  rw [seq_eq_ok, Graph.checkOps_eq_ok, List.forall_mem_map]
  refine and_congr_right fun _ => bind_eq_ok.trans (exists_congr fun c => and_congr_right fun _ => ?_)
  dsimp only
  rw [throwIf_bind_eq_ok, not_not, pure_eq_ok]
  constructor
  · rintro ⟨hn, rfl⟩
    exact ⟨rfl, hn⟩
  · rintro ⟨rfl, hn⟩
    exact ⟨hn, rfl⟩

variable (hg : g.Ordered)

include hg

/-- The units that a search takes are those that the check puts in order, and they spell out
all Ops exactly when they are all of the units. So the search comes out as the check does. -/
theorem map_schedule [LawfulPriority P] (hpick : ∀ s k, 0 < k → (pick s k).1 < k)
    (hlisted : ∀ p ∈ listed, p.1 < g.opCount) :
    (Kahn.schedule g pick rule listed s).map (fun _ => ()) = g.checkSchedulable := by
  unfold Kahn.schedule Graph.checkSchedulable
  rw [checkOps_listed hlisted]
  cases hc : g.contractLinks with
  | error e => rfl
  | ok c =>
    have hr := Graph.edges_contract_inRange hc hg
    obtain ⟨hnodup, hlt, -⟩ := topologicalOrder_sound hr
    rw [Graph.size_edges_contract hc] at hlt
    have hall := Graph.length_expand_eq_iff hc hnodup hlt
    obtain ⟨tops, htops⟩ : ∃ tops, tops = fun u =>
        (c.units.map (unitPriority (priorities g.opCount listed))).toArray.getD u 0 := ⟨_, rfl⟩
    have hpicks : (choice c.graph pick rule tops).Picks := by
      rw [htops]
      exact unitChoice_picks hpick c.graph (priorities g.opCount listed) c.units
    rw [← Graph.opCount_contract hc] at hall
    simp only [bind, Except.bind, ← htops]
    have hperm : (order c.graph pick rule tops s).Perm c.graph.edges.topologicalOrder :=
      takeAll_perm hr hpicks Choice.newest_picks _ ()
    have hlength : (c.expand (order c.graph pick rule tops s)).length = (c.expand _).length :=
      (hperm.flatMap_right c.unit).length_eq
    by_cases hl : c.graph.edges.topologicalOrder.length = c.graph.opCount
    · simp only [hlength, hall.mpr hl, hl, ne_eq, not_true_eq_false, if_false]
      rfl
    · simp only [hlength, mt hall.mp hl, hl, ne_eq, not_false_eq_true, if_true]
      rfl

theorem schedule_of_schedulable [LawfulPriority P] (hpick : ∀ s k, 0 < k → (pick s k).1 < k)
    (hlisted : ∀ p ∈ listed, p.1 < g.opCount) (hs : g.Schedulable) :
    ∃ order, Kahn.schedule g pick rule listed s = .ok order := by
  have h : (Kahn.schedule g pick rule listed s).map (fun _ => ()) = g.checkSchedulable :=
    map_schedule hg hpick hlisted
  rw [hs.check hg] at h
  cases ho : Kahn.schedule g pick rule listed s with
  | ok order => exact ⟨order, rfl⟩
  | error e =>
    rw [ho] at h
    cases h

theorem topological_of_schedule (h : Kahn.schedule g pick rule listed s = .ok order) :
    ∃ c us, g.contractLinks = .ok c ∧ c.graph.edges.Topological us ∧ order = c.expand us := by
  obtain ⟨-, c, hc, rfl, hn⟩ := schedule_eq_ok.mp h
  have hr := Graph.edges_contract_inRange hc hg
  obtain ⟨hnodup, hlt, hclosed⟩ := takeAll_sound _ hr _
  have hsize := Graph.size_edges_contract hc
  have hperm := Graph.perm_of_length_expand hc hnodup (hsize ▸ hlt) hn
  exact ⟨c, _, hc, hclosed.topological hr (hsize ▸ hperm), rfl⟩

theorem perm_of_schedule (h : Kahn.schedule g pick rule listed s = .ok order) :
    order.Perm (List.range g.opCount) := by
  obtain ⟨c, us, hc, ht, rfl⟩ := topological_of_schedule hg h
  exact Graph.expand_perm hc (Graph.size_edges_contract hc ▸ ht.perm)

theorem validOrder_of_schedule (hl : g.LinksHeld)
    (h : Kahn.schedule g pick rule listed s = .ok order) : g.ValidOrder order := by
  obtain ⟨c, us, hc, ht, rfl⟩ := topological_of_schedule hg h
  exact Graph.validOrder_expand_of_linksHeld hg hc hl ht

theorem kind_of_schedule (hlisted : ∀ p ∈ listed, p.1 < g.opCount) {e : Error}
    (h : Kahn.schedule g pick rule listed s = .error e) : e.kind = .cycle := by
  unfold Kahn.schedule at h
  rw [checkOps_listed hlisted] at h
  rcases hg.contractLinks_cases with ⟨c, hc⟩ | ⟨-, -, a, b, -, -, hc⟩
  · rw [hc] at h
    simp only [bind, Except.bind] at h
    split at h
    · cases h
      rfl
    · cases h
  · rw [hc] at h
    cases h
    rfl

end Schedule

/-- Whatever the rule, the priorities and the drawn indices are, the search for a first order
succeeds exactly when the check of the graph does. Otherwise both fail with the same error: they
name the same constraint back in a chain of links, or count the same number of Ops in order.
Priorities may be any doubles, also those that are no numbers. -/
theorem schedule_agrees [LawfulPriority P] (hg : g.Built)
    (hpick : ∀ s k, 0 < k → (pick s k).1 < k) (hlisted : ∀ p ∈ listed, p.1 < g.opCount) :
    ((∃ order, Kahn.schedule g pick rule listed s = .ok order) ↔
        g.checkSchedulable = .ok ()) ∧
      ∀ e, Kahn.schedule g pick rule listed s = .error e ↔ g.checkSchedulable = .error e := by
  have h : (Kahn.schedule g pick rule listed s).map (fun _ => ()) = g.checkSchedulable :=
    map_schedule hg.wellFormed.toOrdered hpick hlisted
  rw [← h]
  cases Kahn.schedule g pick rule listed s with
  | ok order => exact ⟨iff_of_true ⟨order, rfl⟩ rfl, fun e => iff_of_false nofun nofun⟩
  | error e => exact ⟨iff_of_false nofun nofun, fun e' => by simp [Except.map]⟩

end Kahn

section LinkedChainAndCycle

open Numbers Liveness.Graph

/-- The linked chains with the second one turned into a cycle. -/
def Graph.linkedChainAndCycle : Graph (Tiered Int) := linkedChains.connect 3 2

/-- The linked Ops can be put in order and the two on the cycle can not, also when a search draws
its picks and prefers the last Op. -/
theorem Kahn.linkedChainAndCycle_agrees :
    Kahn.schedule linkedChainAndCycle Random.below .random [(3, (2.5 : Float))]
      (Random.Generator.ofSeed 7) = .error (.cycle 2 4) := by
  have hg : linkedChainAndCycle.Built :=
    linkedChains_built.constrain (constrain_eq_ok.mpr ⟨by decide, rfl⟩)
  have hcheck : linkedChainAndCycle.checkSchedulable = .error (.cycle 2 4) := by decide +kernel
  exact ((schedule_agrees hg (fun g _ => Random.below_lt g) (by decide)).2 _).mpr hcheck

end LinkedChainAndCycle

end Liveness
