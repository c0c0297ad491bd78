import Liveness.Proofs.Readiness
import Liveness.Proofs.Schedule.FirstOrder

/-! # No priority stops a search

The highest of some doubles is taken from the negative infinity on, and what is no number is passed
over. So the priority of a unit is a number whatever is listed for its Ops. Then some of the ready
units reach the highest priority, the rule picks one of these, and the search goes on until nothing
is ready. It takes each unit once, and all of them if the graph can be scheduled.
-/

namespace Liveness.Kahn

variable {W P σ : Type} [Weight W] [Priority P] {g : Graph W} {c : Contraction W}
  {pick : σ → Nat → Nat × σ} {rule : TieBreak} {cost : Nat → W} {priority : Nat → P}
  {listed : List (Nat × Float)} {ready taken : List Nat} {d : Demand} {s₀ s : σ} {f : Frontier}

def rank (n : Nat) (units : List (List Nat)) (listed : List (Nat × P)) (u : Nat) : P :=
  (units.map (unitPriority (priorities n listed))).toArray.getD u 0

theorem isNaN_rank (n : Nat) (units : List (List Nat)) (listed : List (Nat × Float)) (u : Nat) :
    (rank n units listed u).isNaN = false := by
  have hself : Priority.atLeast (rank n units listed u) (rank n units listed u) = true :=
    unitPriorities_self (priorities n listed) units u
  exact Binary64.le_self_iff.mp (of_decide_eq_true hself)

/-- What the rule needs to go on: a first and a last candidate, an index of a candidate to draw,
and a ready unit at every candidate. Then it picks a candidate. -/
structure Unstopped (pick : σ → Nat → Nat × σ) (rule : TieBreak) (cost : Nat → W)
    (priority : Nat → P) (ready : List Nat) (s : σ) : Prop where
  ne_nil : candidates priority ready ≠ []
  drawn : (pick s (candidates priority ready).length).1 < (candidates priority ready).length
  lt_length : ∀ i ∈ candidates priority ready, i < ready.length
  picked : ∃ i ∈ candidates priority ready, ∃ s',
    choose? pick rule cost s (candidates priority ready) = some (i, s')

theorem unstopped [LawfulPriority P] (hpick : ∀ s k, 0 < k → (pick s k).1 < k)
    (hp : ∀ u, Priority.atLeast (priority u) (priority u) = true) (hne : ready ≠ []) :
    Unstopped pick rule cost priority ready s where
  ne_nil := candidates_ne_nil hp hne
  drawn := hpick s _ (List.length_pos_iff.mpr (candidates_ne_nil hp hne))
  lt_length _ := lt_of_mem_candidates
  picked := choose?_eq_some hpick (candidates_ne_nil hp hne)

/-- In every state that a search comes to while some unit is ready, nothing stops the rule, and
the search takes a unit. -/
theorem unstopped_of_peels [LawfulPriority P] (hpick : ∀ s k, 0 < k → (pick s k).1 < k)
    (hp : ∀ u, Priority.atLeast (priority u) (priority u) = true) (hr : g.edges.InRange)
    (h : Peels g.edges (choice g pick rule priority) (Demand.start g, s₀) taken (d, s) f)
    (hne : f.ready ≠ []) :
    Unstopped pick rule (fun i => d.change g (f.ready.getD i 0)) priority f.ready s ∧
      ∃ u, f.ready[(choice g pick rule priority (d, s) f.ready).1]? = some u ∧
        g.edges.Available taken u := by
  have hpicks : (choice g pick rule priority).Picks := choice_picks hpick hp
  have hget := List.getElem?_eq_getElem (hpicks (d, s) f.ready hne)
  exact ⟨unstopped hpick hp hne, _, hget,
    (h.available_iff hr).mp (List.mem_of_getElem? hget)⟩

/-- Whatever doubles are listed, infinite ones and those that are no numbers included: in every
state that the search for a first order comes to, the ready units are units, so that they have
priorities, which are numbers. While some unit is ready, there are candidates, whatever the rule
picks is one of them, and the search takes it. So a graph that can be scheduled gets an order with
every Op once. -/
theorem schedule_unstopped (hg : g.Built) (hpick : ∀ s k, 0 < k → (pick s k).1 < k)
    (rule : TieBreak) (hlisted : ∀ p ∈ listed, p.1 < g.opCount) (s₀ : σ) :
    (∀ c, g.contractLinks = .ok c → ∀ taken d s f,
      Peels c.graph.edges (choice c.graph pick rule (rank g.opCount c.units listed))
        (Demand.start c.graph, s₀) taken (d, s) f →
      (∀ u ∈ f.ready, u < c.units.length ∧ (rank g.opCount c.units listed u).isNaN = false) ∧
      (f.ready ≠ [] →
        Unstopped pick rule (fun i => d.change c.graph (f.ready.getD i 0))
          (rank g.opCount c.units listed) f.ready s ∧
        ∃ u, f.ready[(choice c.graph pick rule (rank g.opCount c.units listed)
            (d, s) f.ready).1]? = some u ∧ c.graph.edges.Available taken u)) ∧
    (g.Schedulable → ∃ order, Kahn.schedule g pick rule listed s₀ = .ok order ∧
      order.Perm (List.range g.opCount)) := by
  have hord := hg.wellFormed.toOrdered
  refine ⟨fun c hc taken d s f h => ?_, fun hs => ?_⟩
  · have hr := Graph.edges_contract_inRange hc hord
    refine ⟨fun u hu => ⟨?_, isNaN_rank g.opCount c.units listed u⟩,
      unstopped_of_peels hpick (unitPriorities_self _ c.units) hr h⟩
    rw [← Graph.size_edges_contract hc]
    exact ((h.available_iff hr).mp hu).lt
  · obtain ⟨order, ho⟩ : ∃ order, Kahn.schedule g pick rule listed s₀ = .ok order :=
      schedule_of_schedulable hord hpick hlisted hs
    exact ⟨order, ho, perm_of_schedule hord ho⟩

section LinkedChains

open Numbers Liveness.Graph

/-- The linked Ops are listed as no numbers, and the other two as the infinities. Two units are
ready at the start, and some of them are candidates. A search that draws its picks gives an order
with every Op once. -/
theorem linkedChains_unstopped :
    let listed := [(0, (0.0 / 0.0 : Float)), (1, 0.0 / 0.0), (2, -1.0 / 0.0), (3, 1.0 / 0.0)]
    (∃ c, linkedChains.contractLinks = .ok c ∧ (Frontier.start c.graph.edges).ready = [0, 1] ∧
      candidates (rank 4 c.units listed) (Frontier.start c.graph.edges).ready ≠ []) ∧
    ∃ order, Kahn.schedule linkedChains Random.below .random listed
      (Random.Generator.ofSeed 7) = .ok order ∧ order.Perm [0, 1, 2, 3] := by
  intro listed
  have hlisted : ∀ p ∈ listed, p.1 < linkedChains.opCount := by decide
  obtain ⟨hstates, horder⟩ := schedule_unstopped linkedChains_built (fun g _ => Random.below_lt g)
    .random hlisted (Random.Generator.ofSeed 7)
  refine ⟨?_, horder ⟨_, linkedChains_validOrder⟩⟩
  have hready : (linkedChains.contractLinks.map fun c => (Frontier.start c.graph.edges).ready) =
      .ok [0, 1] := by decide +kernel
  obtain ⟨c, hc, hready⟩ := Success.map_eq_ok.mp hready
  obtain ⟨-, hgo⟩ := hstates c hc _ _ _ _ .start
  exact ⟨c, hc, hready, (hgo (by simp [hready])).1.ne_nil⟩

end LinkedChains

end Liveness.Kahn
