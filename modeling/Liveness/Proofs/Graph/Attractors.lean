import Liveness.Proofs.Graph.Stored
import Liveness.Proofs.Reach

/-! # Attractors in front

Attractors form a chain of new Ops, and only the last of them has constraints with Ops that were
there: it comes before those that had nothing before them. In a graph without cycles every Op
descends from one of these. So the attractors are in front of everything, in their order, and what
comes behind them is an order of the graph that was there.
-/

namespace Liveness.Graph

variable {W : Type} {g h : Graph W} {order s xs : List Nat} {a x y n count : Nat}

section Lists

theorem pairwise_idxOf (hn : order.Nodup) :
    order.Pairwise fun a b => order.idxOf a < order.idxOf b := by
  rw [List.pairwise_iff_getElem]
  intro i j hi hj hij
  rwa [hn.idxOf_getElem, hn.idxOf_getElem]

theorem eq_of_pairwise_idxOf (hn : order.Nodup) (hp : xs.Perm order)
    (hx : xs.Pairwise fun a b => order.idxOf a < order.idxOf b) : xs = order := by
  refine hp.eq_of_pairwise (fun a b _ _ hab hba => ?_) hx (pairwise_idxOf hn)
  exact absurd hab (Nat.lt_asymm hba)

theorem idxOf_range' (hn : n ≤ x) (hx : x < n + count) :
    (List.range' n count).idxOf x = x - n := by
  have hlt : x - n < (List.range' n count).length := by
    rw [List.length_range']
    omega
  have he : (List.range' n count)[x - n] = x := by
    rw [List.getElem_range']
    omega
  have hi := (List.nodup_range' (s := n) (n := count)).idxOf_getElem (x - n) hlt
  rwa [he] at hi

theorem mem_zip_range' : (x, y) ∈ (List.range' n count).zip ((List.range' n count).drop 1) ↔
    n ≤ x ∧ y = x + 1 ∧ y < n + count := by
  rw [List.mem_iff_getElem]
  simp only [List.length_zip, List.length_drop, List.length_range', List.getElem_zip,
    List.getElem_drop, List.getElem_range', Prod.mk.injEq]
  constructor
  · rintro ⟨i, hi, rfl, rfl⟩
    omega
  · rintro ⟨hn, rfl, hy⟩
    exact ⟨x - n, by omega, by omega, by omega⟩

theorem getLast?_range' (hc : 0 < count) :
    (List.range' n count).getLast? = some (n + count - 1) := by
  rw [List.getLast?_eq_getElem?, List.length_range', List.getElem?_range' (by omega), Nat.one_mul,
    ← Nat.add_sub_assoc hc]

theorem range_add_perm (n count : Nat) :
    (List.range (n + count)).Perm (List.range' n count ++ List.range n) := by
  rw [List.range_eq_range', List.range_eq_range', ← List.range'_append_1, Nat.zero_add]
  exact List.perm_append_comm

end Lists

/-- A graph with a row of new Ops in a chain, the last of which comes before all Ops that had nothing
before them. -/
structure Led (g h : Graph W) (count : Nat) : Prop where
  opCount : h.opCount = g.opCount + count
  mem_outs : ∀ {x y}, y ∈ (h.op x).outs ↔ g.opCount ≤ x ∧ y = x + 1 ∧ y < g.opCount + count ∨
    x + 1 = g.opCount + count ∧ y ∈ g.inputs ∨ y ∈ (g.op x).outs
  fwdLink : ∀ x, (h.op x).fwdLink = (g.op x).fwdLink

namespace Led

variable (hl : g.Led h count) (hg : g.Ordered)

include hl hg

omit hl hg in
theorem idxOf_append (count : Nat) (s : List Nat) (hx : x < g.opCount) :
    (List.range' g.opCount count ++ s).idxOf x = s.idxOf x + count := by
  have hnew : x ∉ List.range' g.opCount count := fun hm =>
    Nat.not_le_of_lt hx (List.mem_range'_1.mp hm).1
  rw [List.idxOf_append, if_neg hnew, List.length_range']

theorem validOrder_append (hc : 0 < count) (hs : g.ValidOrder s) :
    h.ValidOrder (List.range' g.opCount count ++ s) := by
  have hrow : ∀ {x}, g.opCount ≤ x → x < g.opCount + count →
      (List.range' g.opCount count ++ s).idxOf x = x - g.opCount := fun hle hlt => by
    rw [List.idxOf_append, if_pos (List.mem_range'_1.mpr ⟨hle, hlt⟩), idxOf_range' hle hlt]
  refine ⟨?_, fun {x y} hxy => ?_, fun {x y} hxy => ?_⟩
  · rw [hl.opCount]
    exact (hs.perm.append_left _).trans (range_add_perm _ _).symm
  · rcases hl.mem_outs.mp hxy with ⟨hx, rfl, hy⟩ | ⟨hx, hy⟩ | hxy
    · rw [hrow hx (by omega), hrow (by omega) hy]
      omega
    · have hy := (hg.mem_inputs.mp hy).1
      rw [hrow (by omega) (by omega), idxOf_append count s hy]
      omega
    · rw [idxOf_append count s (lt_of_mem_outs hxy), idxOf_append count s (hg.outs_lt hxy)]
      exact Nat.add_lt_add_right (hs.before hxy) count
  · rw [hl.fwdLink] at hxy
    rw [idxOf_append count s (lt_of_fwdLink hxy), idxOf_append count s (hg.link_lt hxy),
      hs.linked hxy]
    omega

/-- Every Op that was there descends from one with nothing before it, and so comes behind the new
Ops. -/
theorem last_lt (ho : h.ValidOrder order) (hx : x + 1 = g.opCount + count) (hy : y < g.opCount) :
    order.idxOf x < order.idxOf y := by
  induction hi : order.idxOf y using Nat.strong_induction_on generalizing y with
  | _ i ih =>
    subst hi
    cases hins : (g.op y).ins with
    | nil => exact ho.before (hl.mem_outs.mpr (.inr (.inl ⟨hx, hg.mem_inputs.mpr ⟨hy, hins⟩⟩)))
    | cons z zs =>
      have hzy : y ∈ (g.op z).outs := hg.mem_ins.mp (hins ▸ List.mem_cons_self)
      have hlt := ho.before (hl.mem_outs.mpr (.inr (.inr hzy)))
      exact (ih _ hlt (lt_of_mem_outs hzy) rfl).trans hlt

omit hg in
theorem chain_lt (ho : h.ValidOrder order) (hx : g.opCount ≤ x) (hxy : x < y)
    (hy : y < g.opCount + count) : order.idxOf x < order.idxOf y := by
  induction y, hxy using Nat.le_induction with
  | base => exact ho.before (hl.mem_outs.mpr (.inl ⟨hx, rfl, hy⟩))
  | succ y hxy ih =>
    have hlt := ih (by omega)
    exact hlt.trans (ho.before (hl.mem_outs.mpr (.inl ⟨by omega, rfl, hy⟩)))

omit hg in
theorem mem_filter (ho : h.ValidOrder order) :
    x ∈ order.filter (· < g.opCount) ↔ x < g.opCount := by
  rw [List.mem_filter, ho.mem_iff, decide_eq_true_iff, hl.opCount]
  omega

omit hg in
theorem append_filter_perm (ho : h.ValidOrder order) :
    (List.range' g.opCount count ++ order.filter (· < g.opCount)).Perm order := by
  rw [List.perm_ext_iff_of_nodup _ ho.nodup]
  · intro x
    rw [List.mem_append, List.mem_range'_1, hl.mem_filter ho, ho.mem_iff, hl.opCount]
    omega
  · refine List.nodup_append.mpr
      ⟨List.nodup_range', ho.nodup.filter _, fun x hx y hy => ?_⟩
    have hx := (List.mem_range'_1.mp hx).1
    have hy := (hl.mem_filter ho).mp hy
    exact (Nat.lt_of_lt_of_le hy hx).ne'

theorem new_lt (ho : h.ValidOrder order) (hx : g.opCount ≤ x) (hlt : x < g.opCount + count)
    (hy : y < g.opCount) : order.idxOf x < order.idxOf y := by
  have hlast := hl.last_lt hg ho (x := g.opCount + count - 1) (by omega) hy
  rcases Nat.lt_or_ge x (g.opCount + count - 1) with hne | hge
  · exact (hl.chain_lt ho hx hne (by omega)).trans hlast
  · rwa [show x = g.opCount + count - 1 by omega]

theorem append_filter_eq (ho : h.ValidOrder order) :
    List.range' g.opCount count ++ order.filter (· < g.opCount) = order := by
  refine eq_of_pairwise_idxOf ho.nodup (hl.append_filter_perm ho)
    (List.pairwise_append.mpr ⟨?_, (pairwise_idxOf ho.nodup).filter _, fun x hx y hy => ?_⟩)
  · refine (List.pairwise_lt_range' (s := g.opCount) (n := count)).imp_of_mem
      fun hx hy hxy => ?_
    exact hl.chain_lt ho (List.mem_range'_1.mp hx).1 hxy (List.mem_range'_1.mp hy).2
  · obtain ⟨hle, hlt⟩ := List.mem_range'_1.mp hx
    exact hl.new_lt hg ho hle hlt ((hl.mem_filter ho).mp hy)

theorem validOrder_of_append (ho : h.ValidOrder (List.range' g.opCount count ++ s)) :
    g.ValidOrder s := by
  refine ⟨?_, fun {x y} hxy => ?_, fun {x y} hxy => ?_⟩
  · have hp := ho.perm
    rw [hl.opCount] at hp
    exact (List.perm_append_left_iff _).mp (hp.trans (range_add_perm _ _))
  · have hlt := ho.before (hl.mem_outs.mpr (.inr (.inr hxy)))
    rw [idxOf_append count s (lt_of_mem_outs hxy), idxOf_append count s (hg.outs_lt hxy)] at hlt
    exact Nat.lt_of_add_lt_add_right hlt
  · have he := ho.linked ((hl.fwdLink x).trans hxy)
    rw [idxOf_append count s (lt_of_fwdLink hxy), idxOf_append count s (hg.link_lt hxy)] at he
    omega

/-- The valid orders of the longer graph have the new Ops in front, and then an order of the graph. -/
theorem validOrder_iff (hc : 0 < count) (order : List Nat) : h.ValidOrder order ↔
    ∃ s, order = List.range' g.opCount count ++ s ∧ g.ValidOrder s := by
  constructor
  · intro ho
    have heq := hl.append_filter_eq hg ho
    exact ⟨_, heq.symm, hl.validOrder_of_append hg (heq.symm ▸ ho)⟩
  · rintro ⟨s, rfl, hs⟩
    exact hl.validOrder_append hg hc hs

end Led

/-- A row of new Ops, connected in a chain and its last one to those with nothing before them, leads
the graph. -/
theorem led_of_connect (hg : g.Ordered) (hc : 0 < count) (hcount : h.opCount = g.opCount + count)
    (hop : ∀ x, (h.op x).outs = (g.op x).outs ∧ (h.op x).fwdLink = (g.op x).fwdLink) :
    g.Led ((h.connectChain (List.range' g.opCount count)).connectAll
      (g.inputs.map fun a => (g.opCount + count - 1, a))) count := by
  have hchain : ∀ p ∈ (List.range' g.opCount count).zip ((List.range' g.opCount count).drop 1),
      p.1 < h.opCount ∧ p.2 < h.opCount ∧ p.1 ≠ p.2 := by
    rintro ⟨x, y⟩ hp
    have hp := mem_zip_range'.mp hp
    dsimp only
    omega
  have hlast : g.opCount + count - 1 < (h.connectChain (List.range' g.opCount count)).opCount := by
    rw [opCount_connectChain]
    omega
  have hinputs := hg.inputs_inRange (Nat.le_sub_one_of_lt (Nat.lt_add_of_pos_right hc)) hlast
  refine ⟨?_, fun {x y} => ?_, fun x => ?_⟩
  · rw [opCount_connectAll, opCount_connectChain, hcount]
  · rw [mem_outs_connectAll hinputs, Graph.connectChain, mem_outs_connectAll hchain, (hop x).1,
      mem_zip_range', List.mem_map]
    simp only [Prod.mk.injEq, exists_eq_right_right]
    constructor
    · rintro (⟨hy, rfl⟩ | hy | hy)
      · exact .inr (.inl ⟨by omega, hy⟩)
      · exact .inl hy
      · exact .inr (.inr hy)
    · rintro (hy | ⟨hx, hy⟩ | hy)
      · exact .inr (.inl hy)
      · exact .inl ⟨hy, by omega⟩
      · exact .inr (.inr hy)
  · obtain ⟨outs, ins, he⟩ := op_connectAll hinputs x
    obtain ⟨outs', ins', he'⟩ := op_connectAll hchain x
    rw [he, Graph.connectChain, he']
    exact (hop x).2

section Attractors

variable {k : Graph (Tiered Float)} {items : List (Nat × Tiered Float)}

theorem op_addAttractor (ha : a < k.opCount) (w : Tiered Float) (x : Nat) :
    ((k.addAttractor a w).op x).outs = (k.op x).outs ∧
      ((k.addAttractor a w).op x).fwdLink = (k.op x).fwdLink := by
  rw [addAttractor, op_attach (by simp; omega), op_attach (by simp)]
  dsimp only
  rw [op_addOp]
  split
  · next he =>
    have hx : k.op x = Op.isolated x "" := op_of_ge (Nat.le_of_eq he.symm)
    rw [hx]
    exact ⟨rfl, rfl⟩
  · exact ⟨rfl, rfl⟩

theorem addAttractors_adds (hi : ∀ p ∈ items, p.1 < k.opCount) :
    (k.addAttractors items).1.opCount = k.opCount + (k.addAttractors items).2.length ∧
      (k.addAttractors items).2 = List.range' k.opCount (k.addAttractors items).2.length ∧
      ∀ x, ((k.addAttractors items).1.op x).outs = (k.op x).outs ∧
        ((k.addAttractors items).1.op x).fwdLink = (k.op x).fwdLink := by
  induction items generalizing k with
  | nil => simp [addAttractors]
  | cons p ps ih =>
    obtain ⟨hp, hps⟩ := List.forall_mem_cons.mp hi
    unfold addAttractors
    split
    · exact ih hps
    · have hcount := Built.opCount_addAttractor (k := k) p.1 p.2
      obtain ⟨hc, hrow, hop⟩ := ih (k := k.addAttractor p.1 p.2) fun q hq =>
        hcount ▸ Nat.lt_succ_of_lt (hps q hq)
      dsimp only
      rw [hcount] at hc hrow
      refine ⟨by rw [hc, List.length_cons]; omega, ?_, fun x => ?_⟩
      · rw [List.length_cons, List.range'_succ, ← hrow]
      · have hold := op_addAttractor hp p.2 x
        exact ⟨(hop x).1.trans hold.1, (hop x).2.trans hold.2⟩

theorem Built.led_of_addAttractors (hk : k.Built) (hi : ∀ p ∈ items, p.1 < k.opCount)
    (hne : (k.addAttractors items).2 ≠ []) :
    k.Led (((k.addAttractors items).1.connectChain (k.addAttractors items).2).connectAll
        ((k.addAttractors items).2.getLast?.toList.flatMap fun last =>
          k.inputs.map fun a => (last, a)))
      (k.addAttractors items).2.length := by
  obtain ⟨hcount, hrow, hop⟩ := addAttractors_adds hi
  have hpos := List.length_pos_iff.mpr hne
  have hled := led_of_connect hk.wellFormed.toOrdered hpos hcount hop
  have hlast := getLast?_range' (n := k.opCount) hpos
  rw [← hrow] at hled hlast
  rwa [hlast, Option.toList_some, List.flatMap_singleton]

/-- Attractors do not restrict what follows them. In the graph of an accepted call that returns
attractors, the valid orders are the attractors as returned and behind them any valid order of the
graph before the call, whether or not it has cycles, links, or Ops that are drawn repeatedly. -/
theorem attractToStart_exact {as attractors : List Nat} {priorities : List Decimal.Signed}
    {tier : Int} {step : Float} {h : Graph (Tiered Float)} (hk : k.Built)
    (hcall : k.attractToStart as priorities tier step = .ok (h, attractors))
    (hne : attractors ≠ []) (order : List Nat) :
    h.ValidOrder order ↔ ∃ s, order = attractors ++ s ∧ k.ValidOrder s := by
  rcases Built.attractToStart_cases hcall with ⟨-, rfl⟩ | ⟨items, hi, rfl, rfl⟩
  · exact absurd rfl hne
  · have hl := hk.led_of_addAttractors hi hne
    have hiff := hl.validOrder_iff hk.wellFormed.toOrdered (List.length_pos_iff.mpr hne) order
    rwa [← (addAttractors_adds hi).2.1] at hiff

/-- Two linked Ops, one of which is drawn twice, are left to follow two attractors. -/
theorem linkedPair_attracted : ∃ h attractors,
    linkedPair.attractToStart [0, 1, 0] [⟨false, 1⟩, ⟨false, 5⟩, ⟨false, 3⟩] 1 2 =
      .ok (h, attractors) ∧ attractors = [2, 3] ∧ h.ValidOrder [2, 3, 0, 1] := by
  have hok : (linkedPair.attractToStart [0, 1, 0] [⟨false, 1⟩, ⟨false, 5⟩, ⟨false, 3⟩] 1 2).map
      Prod.snd = .ok [2, 3] := by decide +kernel
  obtain ⟨⟨h, attractors⟩, hcall, rfl⟩ := Success.map_eq_ok.mp hok
  refine ⟨h, [2, 3], hcall, rfl, ?_⟩
  refine (attractToStart_exact linkedPair_built hcall (List.cons_ne_nil 2 [3]) _).mpr
    ⟨[0, 1], rfl, ?_⟩
  decide

end Attractors

end Liveness.Graph
