import Liveness.Proofs.Graph.Built
import Liveness.Proofs.Graph.LinkChains
import Liveness.Proofs.Peeling
import Liveness.Proofs.Refinement.Tightening

/-! # Graphs that can be scheduled

A graph has a valid order exactly when its chains of links can be contracted and the
contracted graph has no cycle. Then every topological order of the units, with each unit
spelled out, is valid.
-/

namespace Liveness.Graph

open Success

variable {W : Type} {g : Graph W} {chains units : List (List Nat)} {chain order us : List Nat}
  {c : Contraction W} {a b i j u v : Nat}

def Schedulable (g : Graph W) : Prop := ∃ order, g.ValidOrder order

theorem idxOf_of_adjacent {l : List Nat} (hn : l.Nodup) (h : [a, b] <:+: l) :
    l.idxOf b = l.idxOf a + 1 := by
  obtain ⟨l, r, rfl⟩ := h
  have hl : l.length + 1 < (l ++ [a, b] ++ r).length := by simp
  have ha := hn.idxOf_getElem l.length (Nat.lt_of_succ_lt hl)
  have hb := hn.idxOf_getElem (l.length + 1) hl
  have ha' : (l ++ [a, b] ++ r)[l.length] = a := by simp
  have hb' : (l ++ [a, b] ++ r)[l.length + 1] = b := by simp
  rw [ha'] at ha
  rw [hb'] at hb
  rw [ha, hb]

theorem unit_eq_getElem (hu : u < c.units.length) : c.unit u = c.units[u] := by
  simp [Contraction.unit, List.getD_eq_getElem?_getD, hu]

section Units

variable (hc : g.contract chains = .ok c)

include hc

theorem units_eq : c.units = g.unitsOf chains := by
  obtain ⟨-, -, rfl⟩ := contract_eq_ok.mp hc
  rfl

theorem flatten_units_perm : c.units.flatten.Perm (List.range g.opCount) := by
  obtain ⟨⟨hlt, hn⟩, -, rfl⟩ := contract_eq_ok.mp hc
  have hsingle : ∀ l : List Nat, (l.map fun a => [a]).flatten = l := fun l => by
    rw [← List.flatMap_def, List.flatMap_singleton']
  simp only [unitsOf, List.flatten_append, hsingle]
  rw [List.perm_ext_iff_of_nodup _ List.nodup_range]
  · intro a
    simp only [List.mem_append, List.mem_filter, List.mem_range, Bool.not_eq_true',
      List.contains_eq_mem, decide_eq_false_iff_not]
    constructor
    · rintro (ha | ⟨ha, -⟩)
      · exact hlt a ha
      · exact ha
    · intro ha
      by_cases hm : a ∈ chains.flatten
      · exact .inl hm
      · exact .inr ⟨ha, hm⟩
  · rw [List.nodup_append]
    refine ⟨hn, List.nodup_range.filter _, ?_⟩
    rintro a ha b hb rfl
    simp only [List.mem_filter, Bool.not_eq_true', List.contains_eq_mem, ha, decide_true,
      Bool.true_eq_false, and_false] at hb

theorem nodup_flatten_units : c.units.flatten.Nodup :=
  (flatten_units_perm hc).nodup_iff.mpr List.nodup_range

theorem unitIndex_eq (hu : u < c.units.length) (ha : a ∈ c.units[u]) :
    unitIndex c.units a = u := by
  have hlt := unitIndex_lt ⟨_, List.getElem_mem hu, ha⟩
  have hm := mem_getElem_unitIndex hlt
  have hp := (List.nodup_flatten.mp (nodup_flatten_units hc)).2
  rcases Nat.lt_trichotomy (unitIndex c.units a) u with h | h | h
  · exact absurd ha (List.pairwise_iff_getElem.mp hp _ _ hlt hu h hm)
  · exact h
  · exact absurd hm (List.pairwise_iff_getElem.mp hp _ _ hu hlt h ha)

theorem expand_perm (hp : us.Perm (List.range c.units.length)) :
    (c.expand us).Perm (List.range g.opCount) := by
  have hall : (List.range c.units.length).flatMap c.unit = c.units.flatten := by
    rw [List.flatMap_def]
    congr 1
    apply List.ext_getElem (by simp)
    intro u hu hu'
    rw [List.getElem_map, List.getElem_range, unit_eq_getElem hu']
  exact (hp.flatMap_right c.unit).trans (hall ▸ flatten_units_perm hc)

/-- In a topological order of the units, spelled out, no constraint goes back. -/
theorem forward_expand (hg : g.Ordered) (ht : c.graph.edges.Topological us) :
    g.Forward (c.expand us) := by
  have hlt : ∀ u ∈ us, u < c.units.length := fun u hu => by
    simpa [size_edges_contract hc] using ht.perm.mem_iff.mp hu
  have hunit : ∀ u ∈ us, ∃ h : u < c.units.length, c.unit u = c.units[u] := fun u hu =>
    ⟨hlt u hu, unit_eq_getElem (hlt u hu)⟩
  unfold Forward Contraction.expand
  rw [List.pairwise_flatMap]
  constructor
  · intro u hu
    obtain ⟨hu', he⟩ := hunit u hu
    rw [he]
    exact (units_of_contract hc).2.2 _ (List.getElem_mem hu')
  · have hn : us.Nodup := ht.perm.nodup_iff.mpr List.nodup_range
    apply (ht.forward.and hn).imp_of_mem
    rintro u v hu hv ⟨hno, huv⟩ x hx y hy hxy
    obtain ⟨hu', heu⟩ := hunit u hu
    obtain ⟨hv', hev⟩ := hunit v hv
    rw [heu] at hx
    rw [hev] at hy
    exact hno ((mem_edges_contract hc hg).mpr
      ⟨hv', huv, y, hy, x, hxy, unitIndex_eq hc hu' hx⟩)

theorem before_expand (hg : g.Ordered) (ht : c.graph.edges.Topological us)
    (hb : b ∈ (g.op a).outs) : (c.expand us).idxOf a < (c.expand us).idxOf b := by
  have hperm := expand_perm hc (size_edges_contract hc ▸ ht.perm)
  apply (forward_expand hc hg ht).idxOf_lt (hg.irrefl a) _ _ hb
  · exact hperm.mem_iff.mpr (List.mem_range.mpr (lt_of_mem_outs hb))
  · exact hperm.mem_iff.mpr (List.mem_range.mpr (hg.outs_lt hb))

omit hc in
theorem infix_expand (hp : us.Perm (List.range c.units.length)) (hm : chain ∈ c.units) :
    chain <:+: c.expand us := by
  obtain ⟨u, hlt, rfl⟩ := List.getElem_of_mem hm
  rw [← unit_eq_getElem hlt]
  apply List.infix_of_mem_flatten
  exact List.mem_map_of_mem (hp.mem_iff.mpr (List.mem_range.mpr hlt))

end Units

section LinkUnits

variable (hg : g.Ordered) (hc : g.contractLinks = .ok c)

include hc

theorem ne_nil_of_mem_units (hu : chain ∈ c.units) : chain ≠ [] := by
  rcases mem_unitsOf (units_eq hc ▸ hu) with hu | ⟨a, -, rfl⟩
  · obtain ⟨a, -, rfl⟩ := List.mem_map.mp hu
    exact walk_ne_nil _ _ _
  · exact List.cons_ne_nil a []

theorem isChain_of_mem_units (hu : chain ∈ c.units) :
    chain.IsChain fun a b => (g.op a).fwdLink = some b := by
  rcases mem_unitsOf (units_eq hc ▸ hu) with hu | ⟨a, -, rfl⟩
  · exact isChain_of_mem_linkChains hu
  · exact List.isChain_singleton a

omit hc in
theorem exists_append_perm (hn : us.Nodup) (hu : ∀ u ∈ us, u < c.units.length) :
    ∃ rest, (us ++ rest).Perm (List.range c.units.length) := by
  have hs : us ⊆ List.range c.units.length := fun u h => List.mem_range.mpr (hu u h)
  obtain ⟨us', hus, hsub⟩ := List.subperm_of_subset hn hs
  obtain ⟨rest, hp⟩ := hsub.exists_perm_append
  exact ⟨rest, (hp.trans (hus.append_right rest)).symm⟩

theorem perm_of_length_expand (hn : us.Nodup) (hu : ∀ u ∈ us, u < c.units.length)
    (hl : (c.expand us).length = g.opCount) : us.Perm (List.range c.units.length) := by
  obtain ⟨rest, hp⟩ := exists_append_perm hn hu
  have htotal := (expand_perm hc hp).length_eq
  rw [Contraction.expand, List.flatMap_append, List.length_append, List.length_range] at htotal
  cases rest with
  | nil => simpa using hp
  | cons u rest =>
    have hlt : u < c.units.length := by
      simpa using hp.mem_iff.mp (List.mem_append_right us List.mem_cons_self)
    have hunit : c.unit u = c.units[u] := unit_eq_getElem hlt
    have hpos := List.length_pos_iff.mpr (ne_nil_of_mem_units hc (List.getElem_mem hlt))
    rw [Contraction.expand] at hl
    simp only [List.flatMap_cons, List.length_append, hunit] at htotal
    omega

theorem length_expand_eq_iff (hn : us.Nodup) (hu : ∀ u ∈ us, u < c.units.length) :
    (c.expand us).length = g.opCount ↔ us.length = c.units.length := by
  constructor
  · intro hl
    simpa using (perm_of_length_expand hc hn hu hl).length_eq
  · intro hl
    simpa using (expand_perm hc (perm_range hn (Nat.le_of_eq hl.symm) hu)).length_eq

theorem length_expand_lt (hn : us.Nodup) (hu : ∀ u ∈ us, u < c.units.length)
    (hl : us.length ≠ c.units.length) : (c.expand us).length < g.opCount := by
  obtain ⟨rest, hp⟩ := exists_append_perm hn hu
  have htotal := (expand_perm hc hp).length_eq
  rw [Contraction.expand, List.flatMap_append, List.length_append, List.length_range] at htotal
  exact Nat.lt_of_le_of_ne (by rw [Contraction.expand]; omega)
    fun he => hl ((length_expand_eq_iff hc hn hu).mp he)

include hg

theorem validOrder_expand {f : Nat → Nat} (hf : ∀ {a b}, (g.op a).fwdLink = some b → f a < f b)
    (ht : c.graph.edges.Topological us) : g.ValidOrder (c.expand us) := by
  have hp : us.Perm (List.range c.units.length) := size_edges_contract hc ▸ ht.perm
  have hperm := expand_perm hc hp
  refine ⟨hperm, before_expand hc hg ht, fun {a b} hab => ?_⟩
  apply idxOf_of_adjacent (hperm.nodup_iff.mpr List.nodup_range)
  obtain ⟨chain, hm, hadjacent⟩ := hg.adjacent_on_linkChain hf hab
  exact hadjacent.trans (infix_expand hp (units_eq hc ▸ List.mem_append_left _ hm))

theorem validOrder_expand_of_linksHeld (hl : g.LinksHeld) (ht : c.graph.edges.Topological us) :
    g.ValidOrder (c.expand us) :=
  validOrder_expand hg hc (fun hab => before_expand hc hg ht (hl hab)) ht

end LinkUnits

namespace ValidOrder

variable (ho : g.ValidOrder order)

include ho

/-- A valid order has the Ops of a chain of links one after the other. -/
theorem idxOf_chain (hc : chain.IsChain fun a b => (g.op a).fwdLink = some b)
    (h0 : 0 < chain.length) (hj : j < chain.length) :
    order.idxOf chain[j] = order.idxOf chain[0] + j := by
  induction j with
  | zero => rfl
  | succ j ih =>
    have hlink := List.isChain_iff_getElem.mp hc j hj
    rw [ho.linked hlink, ih (Nat.lt_of_succ_lt hj), Nat.add_assoc]

theorem forward_chain (hc : chain.IsChain fun a b => (g.op a).fwdLink = some b) :
    g.Forward chain := by
  unfold Forward
  rw [List.pairwise_iff_getElem]
  intro i j hi hj hij hm
  have := ho.before hm
  have h0 := Nat.zero_lt_of_lt hi
  rw [ho.idxOf_chain hc h0 hi, ho.idxOf_chain hc h0 hj] at this
  omega

theorem mem_chain (hc : chain.IsChain fun a b => (g.op a).fwdLink = some b) (ha : a < g.opCount)
    (h0 : 0 < chain.length) (hj : j < chain.length)
    (hle : order.idxOf chain[0] ≤ order.idxOf a)
    (hlt : order.idxOf a < order.idxOf chain[j]) : a ∈ chain := by
  obtain ⟨k, hk⟩ := Nat.exists_eq_add_of_le hle
  rw [ho.idxOf_chain hc h0 hj] at hlt
  have hkl : k < chain.length := by omega
  have he : order.idxOf a = order.idxOf chain[k] := hk.trans (ho.idxOf_chain hc h0 hkl).symm
  rw [List.idxOf_inj (ho.perm.mem_iff.mpr (List.mem_range.mpr ha))] at he
  exact he ▸ List.getElem_mem hkl

theorem contractLinks (hg : g.Ordered) :
    ∃ c, g.contractLinks = .ok c ∧ c.graph.edges.Acyclic := by
  rcases hg.contractLinks_cases with ⟨c, hc⟩ | ⟨chain, hm, a, b, hb, hs, -⟩
  · refine ⟨c, hc, ?_⟩
    -- units are ranked by the places of their first Ops
    let start (u : Nat) := order.idxOf ((c.unit u).headD 0)
    have hstart : ∀ {u} (hu : u < c.units.length) (hl : 0 < c.units[u].length),
        start u = order.idxOf c.units[u][0] := fun {u} hu hl => by
      simp [start, unit_eq_getElem hu, List.headD_eq_head?_getD, List.head?_eq_getElem?, hl]
    apply Edges.Acyclic.of_rank (f := start)
    intro u v hv
    obtain ⟨hu, hvu, a, ha, b, hb, rfl⟩ := (mem_edges_contract hc hg).mp hv
    have hv := unitIndex_lt ((units_of_contract hc).1 b (hg.outs_lt hb))
    obtain ⟨i, hi, rfl⟩ := List.getElem_of_mem ha
    obtain ⟨j, hj, hbj⟩ := List.getElem_of_mem (mem_getElem_unitIndex hv)
    have hcu := isChain_of_mem_units hc (List.getElem_mem hu)
    have hlt := ho.before hb
    rw [hstart hu (by omega), hstart hv (by omega)]
    refine Nat.lt_of_not_le fun hle => hvu ?_
    have hab : c.units[u][i] ∈ c.units[unitIndex c.units b] := by
      apply ho.mem_chain (isChain_of_mem_units hc (List.getElem_mem hv)) (lt_of_mem_outs hb)
        (Nat.zero_lt_of_lt hj) hj
      · rw [ho.idxOf_chain hcu (Nat.zero_lt_of_lt hi) hi]
        exact Nat.le_add_right_of_le hle
      · rwa [hbj]
    exact (unitIndex_eq hc hv hab).symm.trans (unitIndex_eq hc hu ha)
  · exact absurd (ho.forward_chain (isChain_of_mem_linkChains hm))
      (not_forward_iff.mpr ⟨a, b, hb, hs⟩)

end ValidOrder

/-- The check finds out whether a graph can be scheduled, if its links go up in some rank. -/
theorem Schedulable.of_check {f : Nat → Nat}
    (hf : ∀ {a b}, (g.op a).fwdLink = some b → f a < f b) (hg : g.Ordered)
    (h : g.checkSchedulable = .ok ()) : g.Schedulable := by
  obtain ⟨c, hc, hl⟩ := checkSchedulable_eq_ok.mp h
  have hr := edges_contract_inRange hc hg
  have ha := (Edges.length_topologicalOrder hr).mp (hl.trans c.graph.size_edges.symm)
  exact ⟨_, validOrder_expand hg hc hf (Edges.topologicalOrder_topological hr ha)⟩

theorem Schedulable.check (hg : g.Ordered) (hs : g.Schedulable) : g.checkSchedulable = .ok () := by
  obtain ⟨order, ho⟩ := hs
  obtain ⟨c, hc, ha⟩ := ho.contractLinks hg
  refine checkSchedulable_eq_ok.mpr ⟨c, hc, ?_⟩
  have hlen := (Edges.length_topologicalOrder (edges_contract_inRange hc hg)).mpr ha
  exact hlen.trans c.graph.size_edges

theorem checkSchedulable_iff (hg : g.Ordered) (hl : g.LinksHeld) :
    g.checkSchedulable = .ok () ↔ g.Schedulable := by
  constructor
  · intro h
    obtain ⟨f, hf⟩ := acyclic_of_checkSchedulable hg h
    exact .of_check (fun hab => hf (hl hab)) hg h
  · exact Schedulable.check hg

/-- The check fails with too few Ops in order, or with a constraint back in a chain of links. -/
theorem checkSchedulable_eq_error (hg : g.Ordered) {e : Error}
    (h : g.checkSchedulable = .error e) :
    (∃ sorted < g.opCount, e = .cycle sorted g.opCount) ∨
      ∃ chain ∈ g.linkChains, ∃ a b, e = .chainCycle a b ∧ b ∈ (g.op a).outs ∧
        [b, a].Sublist chain := by
  unfold checkSchedulable at h
  rcases hg.contractLinks_cases with ⟨c, hc⟩ | ⟨chain, hm, a, b, hb, hs, hc⟩
  · rw [hc] at h
    simp only [bind, Except.bind] at h
    split at h
    · next hn =>
      cases h
      have hr := edges_contract_inRange hc hg
      obtain ⟨hnodup, hlt, -⟩ := topologicalOrder_sound hr
      rw [size_edges_contract hc] at hlt
      rw [opCount_contract hc] at hn
      exact .inl ⟨_, length_expand_lt hc hnodup hlt hn, rfl⟩
    · cases h
  · rw [hc] at h
    cases h
    exact .inr ⟨chain, hm, a, b, rfl, hb, hs⟩

theorem kind_of_checkSchedulable (hg : g.Ordered) {e : Error}
    (h : g.checkSchedulable = .error e) : e.kind = .cycle := by
  rcases checkSchedulable_eq_error hg h with ⟨_, _, rfl⟩ | ⟨_, _, _, _, rfl, _⟩ <;> rfl

/-- The check succeeds exactly when some order keeps all constraints and has linked Ops side
by side. Otherwise it has put only some of the Ops in order, or has found a constraint that
goes back in a chain of links. -/
theorem checkSchedulable_decides [Weight W] (hg : g.Built) (hl : g.LinksHeld) :
    (g.checkSchedulable = .ok () ↔ ∃ order, g.ValidOrder order) ∧
      ∀ e, g.checkSchedulable = .error e →
        (∃ sorted < g.opCount, e = .cycle sorted g.opCount) ∨
          ∃ chain ∈ g.linkChains, ∃ a b, e = .chainCycle a b ∧ b ∈ (g.op a).outs ∧
            [b, a].Sublist chain := by
  have hwf := hg.wellFormed
  constructor
  · exact checkSchedulable_iff hwf.toOrdered hl
  · intro e he
    exact checkSchedulable_eq_error hwf.toOrdered he

section Chains

open Numbers

theorem linkedChains_linksHeld : linkedChains.LinksHeld := by decide

theorem linkedChains_validOrder : linkedChains.ValidOrder [2, 3, 0, 1] := by decide

/-- The linked chains with the second one both after and before the first one. -/
def knottedChains : Graph (Tiered Int) := (linkedChains.connect 1 2).connect 3 0

theorem knottedChains_built : knottedChains.Built := by
  have h : (linkedChains.connect 1 2).Built :=
    linkedChains_built.constrain (constrain_eq_ok.mpr ⟨by decide, rfl⟩)
  exact h.constrain (constrain_eq_ok.mpr ⟨by decide, rfl⟩)

theorem knottedChains_linksHeld : knottedChains.LinksHeld := by decide

theorem knottedChains_not_schedulable : ¬ knottedChains.Schedulable := by
  rintro ⟨order, ho⟩
  have h₁ : order.idxOf 0 < order.idxOf 1 := ho.before (by decide)
  have h₂ : order.idxOf 1 < order.idxOf 2 := ho.before (by decide)
  have h₃ : order.idxOf 2 < order.idxOf 3 := ho.before (by decide)
  have h₄ : order.idxOf 3 < order.idxOf 0 := ho.before (by decide)
  omega

/-- The linked chains pass the check. The knotted ones do not, and no constraint goes back in
their chain. -/
theorem linkedChains_pass_and_knottedChains_fail : linkedChains.checkSchedulable = .ok () ∧
    ∃ sorted < 4, knottedChains.checkSchedulable = .error (.cycle sorted 4) := by
  constructor
  · exact (checkSchedulable_decides linkedChains_built linkedChains_linksHeld).1.mpr
      ⟨_, linkedChains_validOrder⟩
  · obtain ⟨hiff, herror⟩ := checkSchedulable_decides knottedChains_built knottedChains_linksHeld
    cases h : knottedChains.checkSchedulable with
    | ok _ => exact absurd (hiff.mp h) knottedChains_not_schedulable
    | error e =>
      rcases herror e h with ⟨sorted, hlt, rfl⟩ | ⟨chain, hm, a, b, -, hb, hs⟩
      · exact ⟨sorted, hlt, rfl⟩
      · have hchains : knottedChains.linkChains = [[0, 1]] := by decide
        obtain rfl := List.mem_singleton.mp (hchains ▸ hm)
        cases hs.eq_of_length rfl
        exact absurd hb (by decide)

end Chains

end Liveness.Graph
