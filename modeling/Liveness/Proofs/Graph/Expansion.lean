import Liveness.Proofs.Graph.Built
import Liveness.Proofs.Graph.Schedulable

/-! # Orders of contracted graphs

Chains can be contracted unless an Op is missing, comes twice, or has a constraint back in
its chain. The topological orders of the contracted graph, spelled out, are those of the
graph in which every chain stands as a whole.
-/

namespace Liveness

section Blocks

variable {block : Nat → List Nat} {us p x r v : List Nat}

theorem infix_of_infix_append (hd : x.Disjoint v) (h : v <:+: x ++ r) : v <:+: r := by
  rcases List.infix_append_iff.mp h with h | h | ⟨v₁, v₂, rfl, hx, hr⟩
  · have hv : v = [] := List.eq_nil_iff_forall_not_mem.mpr fun a ha => hd (h.subset ha) ha
    exact hv ▸ List.nil_infix
  · exact h
  · have hv : v₁ = [] := List.eq_nil_iff_forall_not_mem.mpr fun a ha =>
      hd (hx.subset ha) (List.mem_append_left v₂ ha)
    subst hv
    exact hr.isInfix

theorem exists_block_prefix (hn : p.Nodup) (hp : (us.flatMap block).Perm p)
    (hi : ∀ u ∈ us, block u <:+: p) (hu : us ≠ []) : ∃ u ∈ us, block u <+: p := by
  cases p with
  | nil =>
    obtain ⟨u, hm⟩ := List.exists_mem_of_ne_nil us hu
    exact ⟨u, hm, List.infix_nil.mp (hi u hm) ▸ List.prefix_rfl⟩
  | cons a p =>
    obtain ⟨u, hm, ha⟩ := List.mem_flatMap.mp (hp.mem_iff.mpr List.mem_cons_self)
    refine ⟨u, hm, (List.infix_cons_iff.mp (hi u hm)).resolve_right fun h => ?_⟩
    exact (List.nodup_cons.mp hn).1 (h.subset ha)

theorem exists_flatMap_eq (hn : p.Nodup) (hp : (us.flatMap block).Perm p)
    (hi : ∀ u ∈ us, block u <:+: p) : ∃ t : List Nat, t.Perm us ∧ t.flatMap block = p := by
  induction hl : us.length generalizing us p with
  | zero =>
    obtain rfl := List.eq_nil_of_length_eq_zero hl
    exact ⟨[], .nil, hp.nil_eq⟩
  | succ n ih =>
    have hne : us ≠ [] := List.ne_nil_of_length_eq_add_one hl
    obtain ⟨u, hu, r, rfl⟩ := exists_block_prefix hn hp hi hne
    have herase := List.perm_cons_erase hu
    have hrest : ((us.erase u).flatMap block).Perm r := by
      rw [← List.perm_append_left_iff (block u), ← List.flatMap_cons]
      exact (herase.flatMap_right block).symm.trans hp
    have hdisjoint := (List.nodup_append'.mp hn).2.2
    obtain ⟨t, ht, rfl⟩ := ih (List.nodup_append'.mp hn).2.1 hrest
      (fun v hv => by
        apply infix_of_infix_append (List.disjoint_right.mpr fun a ha hau => ?_)
          (hi v (List.mem_of_mem_erase hv))
        exact hdisjoint hau (hrest.mem_iff.mp (List.mem_flatMap.mpr ⟨v, hv, ha⟩)))
      (by rw [List.length_erase_of_mem hu, hl, Nat.add_sub_cancel])
    exact ⟨u :: t, (ht.cons u).trans herase.symm, List.flatMap_cons⟩

end Blocks

namespace Graph

open Success

variable {W : Type} {g : Graph W} {chains : List (List Nat)} {chain order us : List Nat}
  {c : Contraction W} {a b u r : Nat}

theorem contract_eq_error : (∃ e, g.contract chains = .error e) ↔
    (∃ a ∈ chains.flatten, g.opCount ≤ a) ∨ ¬ chains.flatten.Nodup ∨
      ∃ chain ∈ chains, ¬ g.Forward chain := by
  have hok : (∃ c, g.contract chains = .ok c) ↔
      ((∀ a ∈ chains.flatten, a < g.opCount) ∧ chains.flatten.Nodup) ∧
        ∀ chain ∈ chains, g.Forward chain := by
    constructor
    · rintro ⟨c, hc⟩
      exact ⟨(contract_eq_ok.mp hc).1, (contract_eq_ok.mp hc).2.1⟩
    · rintro ⟨hd, hf⟩
      exact ⟨_, contract_eq_ok.mpr ⟨hd, hf, rfl⟩⟩
  have herror : (∃ e, g.contract chains = .error e) ↔ ¬ ∃ c, g.contract chains = .ok c := by
    cases g.contract chains <;> simp
  rw [herror, hok]
  simp only [not_and_or, not_forall, exists_prop, Nat.not_lt, or_assoc]

theorem expand?_eq (h : ∀ u ∈ us, u < c.units.length) : c.expand? us = some (c.expand us) := by
  have hm : us.mapM (fun u => c.units[u]?) = some (us.map c.unit) :=
    Success.mapM_eq_some fun u hu => by
      rw [List.getElem?_eq_getElem (h u hu), unit_eq_getElem (h u hu)]
  rw [Contraction.expand?, hm, Contraction.expand, List.flatMap_def, Option.map_some]

section Orders

variable (hg : g.Ordered) (hc : g.contract chains = .ok c)

include hg hc

theorem topological_expand (ht : c.graph.edges.Topological us) :
    g.edges.Topological (c.expand us) where
  perm := by
    rw [g.size_edges]
    exact expand_perm hc (size_edges_contract hc ▸ ht.perm)
  before hb := before_expand hc hg ht (outs_edges g _ ▸ hb)

/-- An order of the Ops in which every chain stands as a whole is an order of the units,
spelled out. -/
theorem exists_expand_eq (ho : g.edges.Topological order)
    (hw : ∀ chain ∈ chains, chain <:+: order) :
    ∃ us, c.graph.edges.Topological us ∧ c.expand us = order := by
  have hperm : order.Perm (List.range g.opCount) := g.size_edges ▸ ho.perm
  have hwhole : ∀ u ∈ List.range c.units.length, c.unit u <:+: order := by
    intro u hu
    have hm : c.unit u ∈ g.unitsOf chains := by
      rw [← units_eq hc, unit_eq_getElem (List.mem_range.mp hu)]
      exact List.getElem_mem (List.mem_range.mp hu)
    rcases mem_unitsOf hm with hm | ⟨a, ha, he⟩
    · exact hw _ hm
    · rw [he, List.singleton_infix_iff]
      exact hperm.mem_iff.mpr (List.mem_range.mpr ha)
  obtain ⟨us, hus, rfl⟩ := exists_flatMap_eq (hperm.nodup_iff.mpr List.nodup_range)
    ((expand_perm hc (.refl _)).trans hperm.symm) hwhole
  refine ⟨us, Edges.topological_of_forward (fun u hu => ?_) (edges_contract_inRange hc hg)
    (size_edges_contract hc ▸ hus) ?_, rfl⟩
  · exact ((mem_edges_contract hc hg).mp hu).2.1 rfl
  · apply (List.pairwise_flatMap.mp ho.forward).2.imp
    intro u v huv hu
    obtain ⟨hv, -, a, ha, b, hb, rfl⟩ := (mem_edges_contract hc hg).mp hu
    have hlt := unitIndex_lt ((units_of_contract hc).1 b (hg.outs_lt hb))
    refine huv b ?_ a ?_ (outs_edges g a ▸ hb)
    · exact unit_eq_getElem hlt ▸ mem_getElem_unitIndex hlt
    · exact unit_eq_getElem hv ▸ ha

end Orders

section Allocs

variable (hc : g.contract chains = .ok c)

include hc

theorem mem_allocs_contract (hu : u < c.graph.opCount) :
    r ∈ (c.graph.op u).allocs ↔ ∃ a ∈ c.unit u, r ∈ (g.op a).allocs := by
  have hlt : u < c.units.length := opCount_contract hc ▸ hu
  rw [op_contract hc hlt, unit_eq_getElem hlt]
  simp [unitOp]

theorem mem_ops_contract [Zero W] (hg : g.Supplied) (hu : u < c.graph.opCount) :
    u ∈ (c.graph.alloc r).ops ↔ r ∈ (c.graph.op u).allocs := by
  have hlt : u < c.units.length := opCount_contract hc ▸ hu
  rw [mem_allocs_contract hc hu, alloc_contract hc, unitAlloc, Ascending.mem_ofList, List.mem_map,
    unit_eq_getElem hlt]
  constructor
  · rintro ⟨a, ha, hau⟩
    rw [getD_unitIndices (hg.ops_lt ha)] at hau
    subst hau
    exact ⟨a, mem_getElem_unitIndex hlt, hg.mem_allocs.mpr ha⟩
  · rintro ⟨a, ha, hr⟩
    have hops := hg.mem_allocs.mp hr
    exact ⟨a, hops, (getD_unitIndices (hg.ops_lt hops)).trans (unitIndex_eq hc hlt ha)⟩

end Allocs

/-- Contraction fails exactly on chains with an Op that is missing or comes twice, or with a
constraint from an Op to an earlier one. Otherwise the topological orders of the units, spelled
out, are the topological orders of the Ops in which every chain stands as a whole, and each
unit needs the Allocs of its members. -/
theorem contract_exact [Weight W] (hg : g.Built) (chains : List (List Nat)) :
    ((∃ e, g.contract chains = .error e) ↔
      (∃ a ∈ chains.flatten, g.opCount ≤ a) ∨ ¬ chains.flatten.Nodup ∨
        ∃ chain ∈ chains, ∃ a b, b ∈ (g.op a).outs ∧ [b, a].Sublist chain) ∧
    ∀ c, g.contract chains = .ok c →
      (∀ t, c.graph.edges.Topological t → (c.expand? t).isSome) ∧
      (∀ order, (∃ t, c.graph.edges.Topological t ∧ c.expand? t = some order) ↔
        g.edges.Topological order ∧ ∀ chain ∈ chains, chain <:+: order) ∧
      ∀ u < c.graph.opCount, ∀ r,
        (r ∈ (c.graph.op u).allocs ↔ ∃ a ∈ c.unit u, r ∈ (g.op a).allocs) ∧
        (u ∈ (c.graph.alloc r).ops ↔ r ∈ (c.graph.op u).allocs) := by
  have hwf := hg.wellFormed
  constructor
  · simpa only [not_forward_iff] using contract_eq_error
  · intro c hc
    have hexpand : ∀ {t}, c.graph.edges.Topological t → c.expand? t = some (c.expand t) := by
      intro t ht
      apply expand?_eq fun u hu => ?_
      simpa [size_edges_contract hc] using ht.perm.mem_iff.mp hu
    refine ⟨fun t ht => hexpand ht ▸ rfl, fun order => ⟨?_, ?_⟩, fun u hu r => ⟨?_, ?_⟩⟩
    · rintro ⟨t, ht, he⟩
      obtain rfl := Option.some.inj ((hexpand ht).symm.trans he)
      refine ⟨topological_expand hwf.toOrdered hc ht, fun chain hm => ?_⟩
      apply infix_expand (size_edges_contract hc ▸ ht.perm)
      rw [units_eq hc]
      exact List.mem_append_left _ hm
    · rintro ⟨ho, hw⟩
      obtain ⟨t, ht, rfl⟩ := exists_expand_eq hwf.toOrdered hc ho hw
      exact ⟨t, ht, hexpand ht⟩
    · exact mem_allocs_contract hc hu
    · exact mem_ops_contract hc hwf.toSupplied hu

open Numbers in
/-- Two Ops without a constraint between them can be contracted to a unit between the Ops of
the other chain. Two Ops with one can not be turned around. -/
theorem twoChains_contract_exact :
    (∃ e, twoChains.contract [[1, 0]] = .error e) ∧
      ∃ c, twoChains.contract [[0, 3]] = .ok c ∧
        (∃ t, c.graph.edges.Topological t ∧ c.expand? t = some [2, 0, 3, 1]) ∧
        ∀ r, r ∈ (c.graph.op 0).allocs ↔ r = 0 ∨ r = 1 := by
  constructor
  · apply (contract_exact twoChains_built [[1, 0]]).1.mpr
    exact .inr (.inr ⟨[1, 0], by decide, 0, 1, by decide, by decide⟩)
  · obtain ⟨c, hc⟩ : ∃ c, twoChains.contract [[0, 3]] = .ok c := ⟨_, rfl⟩
    have hcount : 0 < c.graph.opCount := by
      rw [opCount_contract hc, units_eq hc]
      decide
    have hunit : c.unit 0 = [0, 3] := by
      rw [Contraction.unit, units_eq hc]
      rfl
    obtain ⟨-, horders, hallocs⟩ := (contract_exact twoChains_built [[0, 3]]).2 c hc
    refine ⟨c, hc, (horders _).mpr ⟨by decide +kernel, by decide⟩, fun r => ?_⟩
    have hneeds : (twoChains.op 0).allocs = [1] ∧ (twoChains.op 3).allocs = [0] := by decide
    rw [(hallocs 0 hcount r).1, hunit]
    simp [hneeds, or_comm]

end Graph

end Liveness
