import Liveness.Graph.Schedulable
import Liveness.Proofs.Frontier
import Liveness.Proofs.Graph.Order
import Liveness.Proofs.Graph.WellFormed
import Liveness.Proofs.Success

/-! # Contracted graphs

Every Op is in a unit, and every constraint between different units is one of the
contracted graph. So if the units can be put in order, the constraints have no cycle.
-/

namespace Liveness.Graph

open Success

variable {W : Type} {g : Graph W} {chains units : List (List Nat)} {c : Contraction W}
  {a b u v : Nat}

def Acyclic (g : Graph W) : Prop := ∃ f : Nat → Nat, ∀ {a b}, b ∈ (g.op a).outs → f a < f b

def Forward (g : Graph W) (chain : List Nat) : Prop :=
  chain.Pairwise fun x y => x ∉ (g.op y).outs

theorem not_forward_iff {chain : List Nat} : ¬ g.Forward chain ↔
    ∃ a b, b ∈ (g.op a).outs ∧ [b, a].Sublist chain := by
  simp only [Forward, List.pairwise_iff_forall_sublist, not_forall, Classical.not_not, exists_prop]
  constructor
  · rintro ⟨b, a, hs, hb⟩
    exact ⟨a, b, hb, hs⟩
  · rintro ⟨a, b, hb, hs⟩
    exact ⟨b, a, hs, hb⟩

theorem Forward.idxOf_lt {chain : List Nat} (h : g.Forward chain) (hn : a ∉ (g.op a).outs)
    (ha : a ∈ chain) (hb : b ∈ chain) (hab : b ∈ (g.op a).outs) :
    chain.idxOf a < chain.idxOf b :=
  idxOf_lt_of_pairwise (R := fun a b => b ∈ (g.op a).outs) h hn ha hb hab

theorem checkDistinct_eq_ok {seen as : List Nat} : g.checkDistinct seen as = .ok () ↔
    (∀ a ∈ as, a < g.opCount ∧ a ∉ seen) ∧ as.Nodup := by
  induction as generalizing seen with
  | nil => simp [checkDistinct]
  | cons a as ih =>
    unfold checkDistinct
    dsimp only
    rw [seq_eq_ok, throwIf_bind_eq_ok, checkOp_eq_ok, ih, List.contains_iff_mem, List.nodup_cons,
      List.forall_mem_cons]
    constructor
    · rintro ⟨ha, hs, h, hn⟩
      refine ⟨⟨⟨ha, hs⟩, fun b hb => ⟨(h b hb).1, ?_⟩⟩, fun hm => ?_, hn⟩
      · exact (List.not_mem_of_not_mem_cons (h b hb).2)
      · exact (h a hm).2 List.mem_cons_self
    · rintro ⟨⟨⟨ha, hs⟩, h⟩, hm, hn⟩
      refine ⟨ha, hs, fun b hb => ⟨(h b hb).1, ?_⟩, hn⟩
      exact List.not_mem_cons_of_ne_of_not_mem (fun he => hm (he ▸ hb)) (h b hb).2

theorem backwardIn?_eq_none {earlier as : List Nat} : g.backwardIn? earlier as = none ↔
    g.Forward as ∧ ∀ y ∈ as, ∀ x ∈ earlier, x ∉ (g.op y).outs := by
  induction as generalizing earlier with
  | nil => simp [backwardIn?, Forward]
  | cons a as ih =>
    unfold backwardIn?
    cases hf : (g.op a).outs.find? earlier.contains with
    | some b =>
      have hm := List.mem_of_find?_eq_some hf
      have hb := List.find?_some hf
      simp only [List.contains_eq_mem, decide_eq_true_eq] at hb
      simp only [reduceCtorEq, false_iff, not_and]
      exact fun _ h => h a List.mem_cons_self b hb hm
    | none =>
      have hno : ∀ x ∈ earlier, x ∉ (g.op a).outs := by
        intro x hx hm
        have := List.find?_eq_none.mp hf x hm
        simp [hx] at this
      dsimp only
      rw [ih]
      simp only [Forward, List.pairwise_cons, List.forall_mem_cons]
      constructor
      · rintro ⟨hp, h⟩
        exact ⟨⟨fun y hy => (h y hy).1, hp⟩, hno, fun y hy => (h y hy).2⟩
      · rintro ⟨⟨ha, hp⟩, -, h⟩
        exact ⟨hp, fun y hy => ⟨ha y hy, h y hy⟩⟩

theorem backwardIn?_eq_some {earlier as : List Nat} (h : g.backwardIn? earlier as = some (a, b)) :
    b ∈ (g.op a).outs ∧ (b ∈ earlier ∧ a ∈ as ∨ [b, a].Sublist as) := by
  induction as generalizing earlier with
  | nil => cases h
  | cons x as ih =>
    unfold backwardIn? at h
    cases hf : (g.op x).outs.find? earlier.contains with
    | some y =>
      rw [hf] at h
      cases h
      have hb := List.find?_some hf
      exact ⟨List.mem_of_find?_eq_some hf, .inl ⟨by simpa using hb, List.mem_cons_self⟩⟩
    | none =>
      rw [hf] at h
      obtain ⟨hb, ⟨he, ha⟩ | hs⟩ := ih h
      · rcases List.mem_cons.mp he with rfl | he
        · exact ⟨hb, .inr ((List.singleton_sublist.mpr ha).cons_cons b)⟩
        · exact ⟨hb, .inl ⟨he, List.mem_cons_of_mem x ha⟩⟩
      · exact ⟨hb, .inr (hs.cons x)⟩

theorem contract_eq_ok : g.contract chains = .ok c ↔
    ((∀ a ∈ chains.flatten, a < g.opCount) ∧ chains.flatten.Nodup) ∧
      (∀ chain ∈ chains, g.Forward chain) ∧
      c = ⟨⟨((g.unitsOf chains).zipIdx.map fun p =>
          g.unitOp (g.unitIndices (g.unitsOf chains)) p.2 p.1).toArray,
        g.allocs.map (unitAlloc (g.unitIndices (g.unitsOf chains)))⟩, g.unitsOf chains⟩ := by
  unfold contract
  rw [seq_eq_ok, checkDistinct_eq_ok]
  simp only [List.not_mem_nil, not_false_eq_true, and_true]
  refine and_congr_right fun _ => ?_
  cases hf : chains.findSome? (g.backwardIn? []) with
  | some p =>
    obtain ⟨chain, hm, hb⟩ := List.exists_of_findSome?_eq_some hf
    refine iff_of_false (fun h => ?_) fun h => ?_
    · exact throw_eq_ok.mp h
    · rw [backwardIn?_eq_none.mpr ⟨h.1 chain hm, by simp⟩] at hb
      cases hb
  | none =>
    have hall : ∀ chain ∈ chains, g.Forward chain := fun chain hm =>
      (backwardIn?_eq_none.mp (List.findSome?_eq_none_iff.mp hf chain hm)).1
    rw [pure_eq_ok]
    exact ⟨fun h => ⟨hall, h.symm⟩, fun h => h.2.symm⟩

theorem contract_cases (hlt : ∀ a ∈ chains.flatten, a < g.opCount) (hn : chains.flatten.Nodup) :
    (∃ c, g.contract chains = .ok c) ∨
      ∃ chain ∈ chains, ∃ a b, b ∈ (g.op a).outs ∧ [b, a].Sublist chain ∧
        g.contract chains = .error (.chainCycle a b) := by
  have hd : g.checkDistinct [] chains.flatten = .ok () :=
    checkDistinct_eq_ok.mpr ⟨fun a ha => ⟨hlt a ha, List.not_mem_nil⟩, hn⟩
  unfold contract
  rw [hd]
  simp only [bind, Except.bind]
  cases hf : chains.findSome? (g.backwardIn? []) with
  | none => exact .inl ⟨_, rfl⟩
  | some p =>
    obtain ⟨chain, hm, hb⟩ := List.exists_of_findSome?_eq_some hf
    obtain ⟨hout, ⟨hno, -⟩ | hs⟩ := backwardIn?_eq_some hb
    · cases hno
    · exact .inr ⟨chain, hm, p.1, p.2, hout, hs, rfl⟩

theorem chainCycle_of_contract (hlt : ∀ a ∈ chains.flatten, a < g.opCount)
    (hn : chains.flatten.Nodup) {e : Error} (h : g.contract chains = .error e) :
    ∃ a b, e = .chainCycle a b := by
  rcases contract_cases hlt hn with ⟨c, hc⟩ | ⟨-, -, a, b, -, -, hc⟩
  · rw [hc] at h
    cases h
  · exact ⟨a, b, Except.error.inj (h.symm.trans hc)⟩

theorem mem_unitsOf {unit : List Nat} (hu : unit ∈ g.unitsOf chains) :
    unit ∈ chains ∨ ∃ a < g.opCount, unit = [a] := by
  rcases List.mem_append.mp hu with hu | hu
  · exact .inl hu
  · obtain ⟨a, ha, rfl⟩ := List.mem_map.mp hu
    exact .inr ⟨a, List.mem_range.mp (List.mem_filter.mp ha).1, rfl⟩

theorem units_of_contract (hc : g.contract chains = .ok c) :
    (∀ a < g.opCount, ∃ unit ∈ c.units, a ∈ unit) ∧
      (∀ unit ∈ c.units, ∀ a ∈ unit, a < g.opCount) ∧ ∀ unit ∈ c.units, g.Forward unit := by
  obtain ⟨⟨hl, -⟩, hf, rfl⟩ := contract_eq_ok.mp hc
  refine ⟨fun a ha => ?_, fun unit hu a ha => ?_, fun unit hu => ?_⟩
  · by_cases hm : a ∈ chains.flatten
    · obtain ⟨chain, hc, ha⟩ := List.mem_flatten.mp hm
      exact ⟨chain, List.mem_append_left _ hc, ha⟩
    · refine ⟨[a], List.mem_append_right _ (List.mem_map.mpr ⟨a, ?_, rfl⟩),
        List.mem_singleton_self a⟩
      simpa [ha] using hm
  · rcases mem_unitsOf hu with hu | ⟨b, hb, rfl⟩
    · exact hl a (List.mem_flatten.mpr ⟨unit, hu, ha⟩)
    · exact List.mem_singleton.mp ha ▸ hb
  · rcases mem_unitsOf hu with hu | ⟨b, -, rfl⟩
    · exact hf unit hu
    · exact List.pairwise_singleton _ b

def unitIndex (units : List (List Nat)) (a : Nat) : Nat :=
  units.findIdx fun unit => unit.contains a

theorem getD_unitIndices (ha : a < g.opCount) :
    (g.unitIndices units).getD a 0 = unitIndex units a := by
  simp [unitIndices, unitIndex, Array.getD, ha]

theorem unitIndex_lt (h : ∃ unit ∈ units, a ∈ unit) : unitIndex units a < units.length := by
  obtain ⟨unit, hu, ha⟩ := h
  exact List.findIdx_lt_length_of_exists ⟨unit, hu, by simpa using ha⟩

theorem mem_getElem_unitIndex (h : unitIndex units a < units.length) :
    a ∈ units[unitIndex units a] := by
  exact List.contains_iff_mem.mp (List.findIdx_getElem (w := h))

section Contracted

variable (hc : g.contract chains = .ok c)

include hc

theorem opCount_contract : c.graph.opCount = c.units.length := by
  obtain ⟨-, -, rfl⟩ := contract_eq_ok.mp hc
  simp [opCount]

theorem op_contract (hu : u < c.units.length) :
    c.graph.op u = g.unitOp (g.unitIndices c.units) u c.units[u] := by
  obtain ⟨-, -, rfl⟩ := contract_eq_ok.mp hc
  simp [op, Array.getD, hu]

theorem alloc_contract [Zero W] {r : Nat} :
    c.graph.alloc r = unitAlloc (g.unitIndices c.units) (g.alloc r) := by
  obtain ⟨-, -, rfl⟩ := contract_eq_ok.mp hc
  simp only [alloc, Array.getD_eq_getD_getElem?, Array.getElem?_map]
  cases g.allocs[r]? <;> rfl

theorem size_edges_contract : c.graph.edges.size = c.units.length :=
  c.graph.size_edges.trans (opCount_contract hc)

theorem mem_edges_contract (hg : g.Ordered) :
    v ∈ c.graph.edges.outs u ↔ ∃ h : u < c.units.length, v ≠ u ∧
      ∃ a ∈ c.units[u], ∃ b ∈ (g.op a).outs, unitIndex c.units b = v := by
  rw [outs_edges]
  by_cases hu : u < c.units.length
  · simp only [op_contract hc hu, unitOp, Ascending.mem_ofList, List.mem_filter, List.mem_map,
      List.mem_flatMap, bne_iff_ne, ne_eq, hu, exists_true_left]
    constructor
    · rintro ⟨⟨b, ⟨a, ha, hb⟩, rfl⟩, hv⟩
      rw [getD_unitIndices (hg.outs_lt hb)] at hv ⊢
      exact ⟨hv, a, ha, b, hb, rfl⟩
    · rintro ⟨hv, a, ha, b, hb, rfl⟩
      exact ⟨⟨b, ⟨a, ha, hb⟩, getD_unitIndices (hg.outs_lt hb)⟩, hv⟩
  · rw [op_of_ge (opCount_contract hc ▸ Nat.le_of_not_lt hu)]
    simp [Op.isolated, hu]

theorem edges_contract_inRange (hg : g.Ordered) : c.graph.edges.InRange := by
  intro u v hv
  rw [size_edges_contract hc]
  obtain ⟨-, -, a, -, b, hb, rfl⟩ := (mem_edges_contract hc hg).mp hv
  exact unitIndex_lt ((units_of_contract hc).1 b (hg.outs_lt hb))

end Contracted

theorem Ordered.edges_inRange (hg : g.Ordered) : g.edges.InRange := by
  intro a b hb
  rw [outs_edges] at hb
  rw [size_edges]
  exact hg.outs_lt hb

theorem idxOf_topologicalOrder_lt {edges : Edges} (hr : edges.InRange)
    (hl : edges.topologicalOrder.length = edges.size) (h : v ∈ edges.outs u) :
    edges.topologicalOrder.idxOf u < edges.topologicalOrder.idxOf v := by
  obtain ⟨hn, hlt, hc⟩ := topologicalOrder_sound hr
  have hp := perm_range hn (Nat.le_of_eq hl.symm) hlt
  exact hc.idxOf_lt hn (hp.mem_iff.mpr (List.mem_range.mpr (hr h))) h

theorem checkSchedulable_eq_ok : g.checkSchedulable = .ok () ↔ ∃ c, g.contractLinks = .ok c ∧
    c.graph.edges.topologicalOrder.length = c.graph.opCount := by
  unfold checkSchedulable
  rw [bind_eq_ok]
  refine exists_congr fun c => and_congr_right fun _ => ?_
  dsimp only
  rw [throwIf_eq_ok, not_not]
  exact and_iff_left (pure_eq_ok.mpr rfl)

theorem isSchedulable_iff : g.isSchedulable = true ↔ g.checkSchedulable = .ok () := by
  unfold isSchedulable
  cases g.checkSchedulable <;> simp [Except.isOk, Except.toBool]

theorem canLink_iff : g.canLink a b = true ↔ ∃ h, g.link a b = .ok h ∧ h.isSchedulable = true := by
  unfold canLink
  cases g.link a b <;> simp

/-- Ops can be ranked by their units first, and then by their places in the unit. -/
theorem acyclic_of_units (hg : g.Ordered) (hu : ∀ a < g.opCount, ∃ unit ∈ units, a ∈ unit)
    (hf : ∀ unit ∈ units, g.Forward unit) (pos : Nat → Nat)
    (hp : ∀ {a b}, b ∈ (g.op a).outs → unitIndex units a ≠ unitIndex units b →
      pos (unitIndex units a) < pos (unitIndex units b)) : g.Acyclic := by
  let inner (a : Nat) := (units.getD (unitIndex units a) []).idxOf a
  have hinner : ∀ {a}, a < g.opCount → inner a < units.flatten.length + 1 := by
    intro a ha
    have hlt := unitIndex_lt (hu a ha)
    have hle := (List.sublist_flatten_of_mem (List.getElem_mem hlt)).length_le
    have he : inner a = units[unitIndex units a].idxOf a := by
      simp [inner, List.getD_eq_getElem?_getD, hlt]
    have := List.idxOf_lt_length_of_mem (mem_getElem_unitIndex hlt)
    omega
  -- places in a unit are below the factor, so units count first
  refine ⟨fun a => pos (unitIndex units a) * (units.flatten.length + 1) + inner a,
    fun {a b} hb => ?_⟩
  dsimp only
  have ha := lt_of_mem_outs hb
  have ha' := hinner ha
  by_cases he : unitIndex units a = unitIndex units b
  · have hlt := unitIndex_lt (hu b (hg.outs_lt hb))
    have hma := mem_getElem_unitIndex (unitIndex_lt (hu a ha))
    have hmb := mem_getElem_unitIndex hlt
    have hia : inner a = units[unitIndex units b].idxOf a := by
      simp [inner, he, List.getD_eq_getElem?_getD, hlt]
    have hib : inner b = units[unitIndex units b].idxOf b := by
      simp [inner, List.getD_eq_getElem?_getD, hlt]
    have hi := (hf _ (List.getElem_mem hlt)).idxOf_lt (hg.irrefl a) (by simpa only [he] using hma)
      hmb hb
    rw [he]
    omega
  · have := Nat.mul_le_mul_right (units.flatten.length + 1) (hp hb he)
    rw [Nat.succ_mul] at this
    omega

theorem lt_of_mem_expand {order : List Nat} (hc : g.contract chains = .ok c)
    (ha : a ∈ c.expand order) : a < g.opCount := by
  obtain ⟨u, -, ha⟩ := List.mem_flatMap.mp ha
  rw [Contraction.unit, List.getD_eq_getElem?_getD] at ha
  cases hu : c.units[u]? with
  | none =>
    rw [hu] at ha
    cases ha
  | some unit =>
    rw [hu] at ha
    exact (units_of_contract hc).2.1 unit (List.mem_of_getElem? hu) a ha

theorem acyclic_of_checkSchedulable (hg : g.Ordered) (h : g.checkSchedulable = .ok ()) :
    g.Acyclic := by
  obtain ⟨c, hc, hl⟩ := checkSchedulable_eq_ok.mp h
  obtain ⟨hu, -, hf⟩ := units_of_contract hc
  refine acyclic_of_units hg hu hf c.graph.edges.topologicalOrder.idxOf fun {a b} hb hne =>
    idxOf_topologicalOrder_lt (edges_contract_inRange hc hg) (hl.trans c.graph.size_edges.symm) ?_
  have hlt := unitIndex_lt (hu a (lt_of_mem_outs hb))
  exact (mem_edges_contract hc hg).mpr
    ⟨hlt, Ne.symm hne, a, mem_getElem_unitIndex hlt, b, hb, rfl⟩

end Liveness.Graph
