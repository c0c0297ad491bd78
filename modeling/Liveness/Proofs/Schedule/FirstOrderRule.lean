import Liveness.Proofs.Schedule.Tally
import Liveness.Proofs.Graph.Obtained
import Liveness.Proofs.Schedule.NextUnit

/-! # First orders follow the rule

In every state that the search for a first order comes to, the Allocs are tallied, so what the
search takes for the cost of a unit differs from what the schedule carries on after the unit by what
it carries on before, which is the same for all units. So each unit is one that the rule asks for
after those before it. Units carry on what their Ops do, and rank as the highest of their Ops.
-/

namespace Liveness

open Success

variable {W P σ : Type} [Weight W] [Priority P] {g : Graph W} {c : Contraction W}
  {pick : σ → Nat → Nat × σ} {rule : TieBreak} {priority : Nat → P} {listed : List (Nat × P)}
  {taken us : List Nat} {d : Demand} {s₀ s : σ} {f : Frontier} {a n u : Nat}

namespace Graph

theorem cut_contract {chains : List (List Nat)} (hc : g.contract chains = .ok c)
    (hg : g.WellFormed) (hu : ∀ u ∈ us, u < c.units.length) (r : Nat) :
    c.graph.Cut us.toFinset r ↔ g.Cut (c.expand us).toFinset r := by
  have hmem : ∀ a < g.opCount, unitIndex c.units a ∈ us ↔ a ∈ c.expand us := by
    intro a ha
    rw [Contraction.expand, List.mem_flatMap]
    constructor
    · intro hm
      refine ⟨_, hm, ?_⟩
      rw [unit_eq_getElem (hu _ hm)]
      exact mem_getElem_unitIndex (hu _ hm)
    · rintro ⟨u, hm, hau⟩
      rw [unit_eq_getElem (hu u hm)] at hau
      rwa [unitIndex_eq hc (hu u hm) hau]
  have hops : ∀ u, u ∈ (c.graph.alloc r).ops ↔
      ∃ a ∈ (g.alloc r).ops, unitIndex c.units a = u := by
    intro u
    rw [alloc_contract hc, unitAlloc, Ascending.mem_ofList, List.mem_map]
    constructor
    · rintro ⟨a, ha, rfl⟩
      exact ⟨a, ha, (getD_unitIndices (hg.ops_lt ha)).symm⟩
    · rintro ⟨a, ha, rfl⟩
      exact ⟨a, ha, getD_unitIndices (hg.ops_lt ha)⟩
  unfold Cut
  simp only [hops, List.mem_toFinset]
  constructor
  · rintro ⟨⟨_, ⟨a, ha, rfl⟩, hin⟩, _, ⟨b, hb, rfl⟩, hout⟩
    exact ⟨⟨a, ha, (hmem a (hg.ops_lt ha)).mp hin⟩, b, hb, mt (hmem b (hg.ops_lt hb)).mpr hout⟩
  · rintro ⟨⟨a, ha, hin⟩, b, hb, hout⟩
    exact ⟨⟨_, ⟨a, ha, rfl⟩, (hmem a (hg.ops_lt ha)).mpr hin⟩, _, ⟨b, hb, rfl⟩,
      mt (hmem b (hg.ops_lt hb)).mp hout⟩

theorem carried_contract [ExactWeight W] {chains : List (List Nat)}
    (hc : g.contract chains = .ok c) (hg : g.WellFormed) (hu : ∀ u ∈ us, u < c.units.length) :
    c.graph.carried us.toFinset = g.carried (c.expand us).toFinset := by
  have hcount : c.graph.allocCount = g.allocCount := by
    obtain ⟨-, -, rfl⟩ := contract_eq_ok.mp hc
    simp [allocCount]
  unfold carried
  rw [hcount]
  refine Finset.sum_congr rfl fun r _ => ?_
  rw [alloc_contract hc]
  exact if_congr (cut_contract hc hg hu r) rfl rfl

end Graph

namespace Kahn

/-- The priority of an Op: the last one that is listed for it, zero if none is. -/
def listedPriority (listed : List (Nat × P)) (a : Nat) : P :=
  ((listed.reverse.find? fun p => p.1 == a).map Prod.snd).getD 0

omit [Weight W] in
theorem listedPriority_self [LawfulPriority P]
    (hs : ∀ p ∈ listed, Priority.atLeast p.2 p.2 = true) (a : Nat) :
    Priority.atLeast (listedPriority listed a) (listedPriority listed a) = true := by
  unfold listedPriority
  cases hp : listed.reverse.find? fun p => p.1 == a with
  | none => exact LawfulPriority.zero_self
  | some p => exact hs p (List.mem_reverse.mp (List.mem_of_find?_eq_some hp))

theorem priorities_concat (n : Nat) (listed : List (Nat × P)) (p : Nat × P) :
    priorities n (listed ++ [p]) = (priorities n listed).setIfInBounds p.1 p.2 := by
  simp [priorities]

theorem size_priorities (n : Nat) (listed : List (Nat × P)) : (priorities n listed).size = n := by
  induction listed using List.reverseRecOn with
  | nil => simp [priorities]
  | append_singleton listed p ih => simpa [priorities_concat] using ih

theorem getD_priorities (ha : a < n) (listed : List (Nat × P)) :
    (priorities n listed).getD a 0 = listedPriority listed a := by
  induction listed using List.reverseRecOn with
  | nil => simp [priorities, listedPriority, ha]
  | append_singleton listed p ih =>
    unfold listedPriority at ih ⊢
    rw [priorities_concat, List.reverse_append, List.reverse_singleton, List.singleton_append,
      List.find?_cons]
    by_cases he : p.1 = a
    · subst he
      simp [size_priorities, ha]
    · rw [beq_false_of_ne he]
      simpa [Array.getD_eq_getD_getElem?, he] using ih

theorem unitPriority_isHighest [RankedPriority P] {unit : List Nat} (hne : unit ≠ [])
    (hlt : ∀ a ∈ unit, a < n) (hs : ∀ p ∈ listed, Priority.atLeast p.2 p.2 = true) :
    Priority.IsHighest (unit.map (listedPriority listed)) (unitPriority (priorities n listed) unit) := by
  have hmap : unit.map (fun a => (priorities n listed).getD a 0) =
      unit.map (listedPriority listed) :=
    List.map_congr_left fun a ha => getD_priorities (hlt a ha) listed
  unfold unitPriority
  rw [hmap]
  refine Priority.top_isHighest (mt List.map_eq_nil_iff.mp hne) fun q hq => ?_
  obtain ⟨a, -, rfl⟩ := List.mem_map.mp hq
  exact listedPriority_self hs a

section Run

variable (hg : g.WellFormed)

include hg

theorem tallied_of_peels {state : Demand × σ}
    (h : Peels g.edges (choice g pick rule priority) (Demand.start g, s₀) taken state f) :
    state.1.Tallied g taken := by
  induction h with
  | start => exact Demand.start_tallied hg.toSupplied
  | take h ha ih =>
    obtain ⟨i, s', -, -, he⟩ := choice_eq ha
    rw [he]
    have hleft := ((h.sound hg.toOrdered.edges_inRange).ready _ (List.mem_of_getElem? ha)).2.1
    exact ih.take hg.toSupplied hleft

theorem order_follows [ExactWeight W] [RankedPriority P] {rest : List Nat}
    (hp : ∀ u, Priority.atLeast (priority u) (priority u) = true)
    (h : order g pick rule priority s₀ = taken ++ u :: rest) :
    Follows g.edges rule priority (fun v => g.carried (insert v taken.toFinset)) taken u := by
  have hr := hg.toOrdered.edges_inRange
  obtain ⟨state, f, hpeel, hu⟩ := Peels.of_takeAll h
  have haged := hpeel.aged hr fun a => g.outs_edges a ▸ hg.outs_sorted a
  have hnext := choice_follows hp (fun v => hpeel.available_iff hr) haged hu
  refine hnext.add (g.carried taken.toFinset) fun v hv => ?_
  rw [Graph.carried_insert (mt List.mem_toFinset.mp hv.left),
    (tallied_of_peels hg hpeel).change_eq hg.toSupplied hv.left]

/-- A rule that asks for a unit by what the units carry on asks for it by what their Ops do. -/
theorem Follows.contract [ExactWeight W] {chains : List (List Nat)}
    (h : Follows c.graph.edges rule priority
      (fun v => c.graph.carried (insert v taken.toFinset)) taken u)
    (hc : g.contract chains = .ok c) (ht : ∀ u ∈ taken, u < c.units.length) :
    Follows c.graph.edges rule priority
      (fun v => g.carried (c.expand (taken ++ [v])).toFinset) taken u := by
  refine h.add 0 fun v hv => ?_
  have hset : (taken ++ [v]).toFinset = insert v taken.toFinset := by
    ext a
    simp
  have hin : ∀ u ∈ taken ++ [v], u < c.units.length := by
    intro u hm
    rcases List.mem_append.mp hm with hm | hm
    · exact ht u hm
    · rw [List.mem_singleton.mp hm, ← Graph.size_edges_contract hc]
      exact hv.lt
  rw [zero_add, ← hset]
  exact (Graph.carried_contract hc hg hin).symm

end Run

/-- All units of a contraction are taken, each one by the rule after those before it. A unit ranks
as the highest of its Ops, and it costs what is carried on once its Ops are scheduled. -/
structure Obeys [ExactWeight W] (g : Graph W) (c : Contraction W) (rule : TieBreak)
    (listed : List (Nat × P)) (priority : Nat → P) (units : List Nat) : Prop where
  perm : units.Perm (List.range c.units.length)
  isHighest : ∀ u < c.units.length,
    Priority.IsHighest ((c.unit u).map (listedPriority listed)) (priority u)
  follows : ∀ taken u rest, units = taken ++ u :: rest → Follows c.graph.edges rule priority
    (fun v => g.carried (c.expand (taken ++ [v])).toFinset) taken u

/-- If its units spell out all Ops, the search has obeyed the rule. -/
theorem order_obeys [ExactWeight W] [RankedPriority P] (hg : g.WellFormed)
    (hc : g.contractLinks = .ok c) (hnumbers : ∀ p ∈ listed, Priority.atLeast p.2 p.2 = true)
    (hpriority : priority = fun u =>
      (c.units.map (unitPriority (priorities g.opCount listed))).toArray.getD u 0)
    (hl : (c.expand (Kahn.order c.graph pick rule priority s₀)).length = g.opCount) :
    Obeys g c rule listed priority (Kahn.order c.graph pick rule priority s₀) := by
  obtain ⟨hwf, -⟩ := Graph.contract_wellFormed hc hg
  have hself : ∀ u, Priority.atLeast (priority u) (priority u) = true :=
    hpriority ▸ unitPriorities_self (priorities g.opCount listed) c.units
  have hsound : (Kahn.order c.graph pick rule priority s₀).Nodup ∧
      (∀ u ∈ Kahn.order c.graph pick rule priority s₀, u < c.graph.edges.size) ∧ _ :=
    takeAll_sound _ hwf.toOrdered.edges_inRange _
  rw [Graph.size_edges_contract hc] at hsound
  obtain ⟨hnodup, hlt, -⟩ := hsound
  refine ⟨Graph.perm_of_length_expand hc hnodup hlt hl, fun u hu => ?_, fun taken u rest he => ?_⟩
  · have hmem := List.getElem_mem hu
    have hhigh := unitPriority_isHighest (Graph.ne_nil_of_mem_units hc hmem)
      ((Graph.units_of_contract hc).2.1 _ hmem) hnumbers
    rw [Graph.unit_eq_getElem hu]
    simpa [hpriority, hu] using hhigh
  · exact (order_follows hwf hself he).contract hg hc fun v hv =>
      hlt v (he ▸ List.mem_append_left _ hv)

/-- What the search for a first order does in a graph that can be scheduled. It only fails where
an Op is listed that does not exist. Otherwise it takes the units of the linked Ops by the rule. It
comes to a state before each unit that it takes, and in every state that it comes to, each Alloc has
the count of the units that need it and are left, and a mark if one was taken. No count would go
below zero if an available unit was taken. -/
theorem schedule_follows [ExactWeight W] [RankedPriority P] (hg : g.Built) (hs : g.Schedulable)
    (hpick : ∀ s k, 0 < k → (pick s k).1 < k)
    (hnumbers : ∀ p ∈ listed, Priority.atLeast p.2 p.2 = true) :
    ((∃ order, Kahn.schedule g pick rule listed s₀ = .ok order) ↔
        ∀ p ∈ listed, p.1 < g.opCount) ∧
      ∀ order, Kahn.schedule g pick rule listed s₀ = .ok order →
        ∃ (c : Contraction W) (priority : Nat → P) (units : List Nat),
          g.contractLinks = .ok c ∧ order = c.expand units ∧
          Obeys g c rule listed priority units ∧
          (∀ taken u rest, units = taken ++ u :: rest → ∃ state f,
            Peels c.graph.edges (choice c.graph pick rule priority) (Demand.start c.graph, s₀)
              taken state f ∧
            f.ready[(choice c.graph pick rule priority state f.ready).1]? = some u) ∧
          ∀ taken d s f, Peels c.graph.edges (choice c.graph pick rule priority)
              (Demand.start c.graph, s₀) taken (d, s) f →
            d.Tallied c.graph taken ∧ ∀ u, c.graph.edges.Available taken u →
              ∀ l r l', (c.graph.op u).allocs = l ++ r :: l' →
                0 < (l.foldl Demand.takeNeed d).left r := by
  have hwf := hg.wellFormed
  refine ⟨⟨fun ⟨order, h⟩ => (schedule_eq_ok.mp h).1, fun hlisted =>
    schedule_of_schedulable hwf.toOrdered hpick hlisted hs⟩, fun order h => ?_⟩
  obtain ⟨-, c, hc, rfl, hl⟩ := schedule_eq_ok.mp h
  obtain ⟨hcwf, -⟩ := Graph.contract_wellFormed hc hwf
  refine ⟨c, _, _, hc, rfl, order_obeys hwf hc hnumbers rfl hl,
    fun taken u rest he => Peels.of_takeAll he, fun taken d s f hpeel => ?_⟩
  have htally := tallied_of_peels hcwf hpeel
  exact ⟨htally, fun u hu l r l' ha => htally.left_pos hcwf.toSupplied hu.left ha⟩

section Chains

open Numbers Liveness.Graph

/-- The linked Ops and the next one rank equally, since of two listed priorities the last one
counts. So the linked Ops come first: less is carried on after them. -/
theorem linkedChains_greedy : ∃ c priority units, linkedChains.contractLinks = .ok c ∧
    Obeys linkedChains c .greedy [(2, (1.5 : Float)), (0, 0.5), (2, 0.5)] priority units ∧
    c.expand units = [0, 1, 2, 3] := by
  have hrun : Kahn.schedule linkedChains Random.below .greedy [(2, (1.5 : Float)), (0, 0.5), (2, 0.5)]
      (Random.Generator.ofSeed 7) = .ok [0, 1, 2, 3] := by decide +kernel
  have hnumbers : ∀ p ∈ [((2 : Nat), (1.5 : Float)), (0, 0.5), (2, 0.5)],
      Priority.atLeast p.2 p.2 = true := by decide +kernel
  obtain ⟨c, priority, units, hc, he, hobeys, -⟩ := (schedule_follows linkedChains_built
    ⟨_, linkedChains_validOrder⟩ (fun g _ => Random.below_lt g) hnumbers).2 _ hrun
  exact ⟨c, priority, units, hc, hobeys, he.symm⟩

end Chains

end Kahn

end Liveness
