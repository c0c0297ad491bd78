import Liveness.Proofs.Graph.Expansion
import Liveness.Proofs.Graph.InPlace
import Liveness.Proofs.Graph.Stored

/-! # Graphs that calls can obtain

A graph is obtained by public calls with any arguments, whether they succeed or fail, by
contracting chains of an obtained graph, and by restoring a text. All of these are built by
edits and so well-formed, and a call that fails leaves the graph as it was.
-/

namespace Liveness.Graph

open Success

section Contracted

variable {W : Type} {g : Graph W} {chains : List (List Nat)} {c : Contraction W} {u v : Nat}
  (hc : g.contract chains = .ok c)

include hc

theorem mem_ins_contract [Zero W] (hg : g.WellFormed) :
    v ∈ (c.graph.op u).ins ↔ ∃ h : u < c.units.length, v ≠ u ∧
      ∃ a ∈ c.units[u], ∃ b ∈ (g.op a).ins, unitIndex c.units b = v := by
  by_cases hu : u < c.units.length
  · simp only [op_contract hc hu, unitOp, Ascending.mem_ofList, List.mem_filter, List.mem_map,
      List.mem_flatMap, bne_iff_ne, ne_eq, hu, exists_true_left]
    constructor
    · rintro ⟨⟨b, ⟨a, ha, hb⟩, rfl⟩, hv⟩
      rw [getD_unitIndices (hg.lt_of_mem_ins hb)] at hv ⊢
      exact ⟨hv, a, ha, b, hb, rfl⟩
    · rintro ⟨hv, a, ha, b, hb, rfl⟩
      exact ⟨⟨b, ⟨a, ha, hb⟩, getD_unitIndices (hg.lt_of_mem_ins hb)⟩, hv⟩
  · rw [op_of_ge (opCount_contract hc ▸ Nat.le_of_not_lt hu)]
    simp [Op.isolated, hu]

theorem ins_contract_iff [Zero W] (hg : g.WellFormed) :
    u ∈ (c.graph.op v).ins ↔ v ∈ (c.graph.op u).outs := by
  have hunits := (units_of_contract hc).1
  rw [mem_ins_contract hc hg, ← outs_edges, mem_edges_contract hc hg.toOrdered]
  constructor
  · rintro ⟨hv, hne, b, hb, a, ha, rfl⟩
    have hlt := unitIndex_lt (hunits a (hg.lt_of_mem_ins ha))
    exact ⟨hlt, Ne.symm hne, a, mem_getElem_unitIndex hlt, b, hg.mem_ins.mp ha,
      unitIndex_eq hc hv hb⟩
  · rintro ⟨hu, hne, a, ha, b, hb, rfl⟩
    have hlt := unitIndex_lt (hunits b (hg.outs_lt hb))
    exact ⟨hlt, Ne.symm hne, b, mem_getElem_unitIndex hlt, a, hg.mem_ins.mpr hb,
      unitIndex_eq hc hu ha⟩

theorem op_contract_cases (u : Nat) :
    (∃ h : u < c.units.length,
      c.graph.op u = g.unitOp (g.unitIndices c.units) u c.units[u]) ∨
        c.graph.op u = Op.isolated u "" := by
  by_cases hu : u < c.units.length
  · exact .inl ⟨hu, op_contract hc hu⟩
  · exact .inr (op_of_ge (opCount_contract hc ▸ Nat.le_of_not_lt hu))

theorem links_contract (u : Nat) :
    (c.graph.op u).fwdLink = none ∧ (c.graph.op u).bwdLink = none := by
  rcases op_contract_cases hc u with ⟨_, he⟩ | he
  · exact he ▸ ⟨rfl, rfl⟩
  · exact he ▸ ⟨rfl, rfl⟩

theorem sorted_contract (u : Nat) : (c.graph.op u).ins.Pairwise (· < ·) ∧
    (c.graph.op u).outs.Pairwise (· < ·) ∧ (c.graph.op u).allocs.Pairwise (· < ·) := by
  rcases op_contract_cases hc u with ⟨_, he⟩ | he
  · exact he ▸ ⟨Ascending.ofList_pairwise _, Ascending.ofList_pairwise _,
      Ascending.ofList_pairwise _⟩
  · exact he ▸ ⟨.nil, .nil, .nil⟩

theorem Ordered.contract [Zero W] (hg : g.WellFormed) : c.graph.Ordered where
  op_address u hu := by
    rw [op_contract hc (opCount_contract hc ▸ hu)]
    rfl
  ins_sorted u := (sorted_contract hc u).1
  outs_sorted u := (sorted_contract hc u).2.1
  outs_lt {u v} hv := by
    have := edges_contract_inRange hc hg.toOrdered (outs_edges c.graph u ▸ hv)
    rwa [size_edges_contract hc, ← opCount_contract hc] at this
  mem_ins := ins_contract_iff hc hg
  irrefl u hu := by
    rw [← outs_edges, mem_edges_contract hc hg.toOrdered] at hu
    exact hu.choose_spec.1 rfl
  link_lt {u v} hv := by
    rw [(links_contract hc u).1] at hv
    cases hv
  bwdLink {u v} := by
    rw [(links_contract hc u).1, (links_contract hc v).2]
    exact iff_of_false nofun nofun

theorem lt_of_mem_ops_contract [Zero W] (hg : g.WellFormed) {r : Nat}
    (hu : u ∈ (c.graph.alloc r).ops) : u < c.graph.opCount := by
  rw [alloc_contract hc, unitAlloc, Ascending.mem_ofList, List.mem_map] at hu
  obtain ⟨a, ha, rfl⟩ := hu
  rw [getD_unitIndices (hg.ops_lt ha), opCount_contract hc]
  exact unitIndex_lt ((units_of_contract hc).1 a (hg.ops_lt ha))

theorem Supplied.contract [Zero W] (hg : g.WellFormed) : c.graph.Supplied where
  alloc_address r hr := by
    have hlt : r < g.allocCount := by
      obtain ⟨-, -, rfl⟩ := contract_eq_ok.mp hc
      simpa [allocCount] using hr
    rw [alloc_contract hc]
    exact hg.alloc_address r hlt
  allocs_sorted u := (sorted_contract hc u).2.2
  ops_sorted r := by
    rw [alloc_contract hc]
    exact Ascending.ofList_pairwise _
  ops_lt := lt_of_mem_ops_contract hc hg
  mem_allocs {u r} := by
    by_cases hu : u < c.graph.opCount
    · exact (mem_ops_contract hc hg.toSupplied hu).symm
    · rw [op_of_ge (Nat.le_of_not_lt hu)]
      exact iff_of_false List.not_mem_nil fun hm => hu (lt_of_mem_ops_contract hc hg hm)

theorem contract_wellFormed [Zero W] (hg : g.WellFormed) :
    c.graph.WellFormed ∧ ∀ u, (c.graph.op u).fwdLink = none ∧ (c.graph.op u).bwdLink = none :=
  ⟨{ toOrdered := .contract hc hg, toSupplied := .contract hc hg }, links_contract hc⟩

end Contracted

theorem contract_built {W : Type} [Weight W] {g : Graph W} {chains : List (List Nat)}
    {c : Contraction W} (hg : g.Built) (hc : g.contract chains = .ok c) : c.graph.Built := by
  obtain ⟨hw, hl⟩ := contract_wellFormed hc hg.wellFormed
  exact built_iff.mpr ⟨hw, fun u hu => by rw [(hl u).1] at hu; cases hu⟩

theorem Built.edit {g h : Graph (Tiered Float)} {out : List Nat} (hg : g.Built) (c : Call)
    (h' : c.edit g = .ok (h, out)) : h.Built := by
  have hpair : ∀ {x : Except Error (Graph (Tiered Float))} {added : List Nat},
      (do return (← x, added)) = Except.ok (h, out) → x = .ok h := by
    intro x added hx
    obtain ⟨k, hk, he⟩ := bind_eq_ok.mp hx
    obtain ⟨rfl, -⟩ := Prod.mk.inj (pure_eq_ok.mp he)
    exact hk
  cases c with
  | addOp name => exact (Prod.mk.inj (Except.ok.inj h')).1 ▸ hg.addOp name
  | addOps names => exact (Prod.mk.inj (Except.ok.inj h')).1 ▸ hg.addOps names
  | addOpWith ins allocs name => exact hg.addOpWith (hpair h')
  | addAlloc w => exact (Prod.mk.inj (Except.ok.inj h')).1 ▸ hg.addAlloc w
  | need a r => exact hg.need (hpair h')
  | needAll as r => exact hg.needAll (hpair h')
  | constrain u v => exact hg.constrain (hpair h')
  | constrainAll pairs => exact hg.constrainAll (hpair h')
  | unconstrain u v => exact hg.unconstrain (hpair h')
  | link u v => exact hg.link (hpair h')
  | separateBins bins stem => exact hg.separateBins h'
  | attract pairs w => exact hg.attract h'
  | attractToStart as priorities tier step => exact hg.attractToStart h'
  | releaseAll r => exact hg.releaseAll (hpair h')
  | release a r => exact hg.release (hpair h')
  | reweigh r w => exact hg.reweigh (hpair h')

/-- A graph that comes from the empty one by public calls, contractions and
texts that are restored by any codec. -/
inductive Obtained : Graph (Tiered Float) → Prop where
  | empty : Obtained empty
  | called {g h : Graph (Tiered Float)} {c : Call} {out : List Nat} :
    Obtained g → c.perform g = .ok out h → Obtained h
  | failed {g h : Graph (Tiered Float)} {c : Call} {e : Error} :
    Obtained g → c.perform g = .error e h → Obtained h
  | contracted {g : Graph (Tiered Float)} {chains : List (List Nat)}
    {c : Contraction (Tiered Float)} :
    Obtained g → g.contract chains = .ok c → Obtained c.graph
  | restored {g : Graph (Tiered Float)} {codec : Codec} {text : String} :
    restore codec text = .ok g → Obtained g

theorem Built.eq_of_error {g h : Graph (Tiered Float)} {c : Call} {e : Error} (hg : g.Built)
    (h' : c.perform g = .error e h) : h = g := by
  rw [Call.perform_eq hg] at h'
  cases he : c.edit g with
  | ok p =>
    rw [he] at h'
    cases h'
  | error e' =>
    rw [he] at h'
    cases h'
    rfl

theorem Obtained.built {g : Graph (Tiered Float)} (hg : g.Obtained) : g.Built := by
  induction hg with
  | empty => exact .empty
  | @called g h c out _ hc ih =>
    rw [Call.perform_eq ih] at hc
    cases he : c.edit g with
    | ok p =>
      rw [he] at hc
      cases hc
      exact ih.edit c he
    | error e =>
      rw [he] at hc
      cases hc
  | failed _ hc ih => exact ih.eq_of_error hc ▸ ih
  | contracted _ hc ih => exact contract_built ih hc
  | restored hr => exact restore_built hr

/-- In every graph that calls can obtain, Ops and Allocs are at their addresses, all lists are
strictly ascending and in range, constraints, needs and links are recorded at both ends, no Op
is its own successor, and links are injective. A call on it that fails leaves it as it was. -/
theorem Obtained.consistent {g : Graph (Tiered Float)} (hg : g.Obtained) :
    (∀ a < g.opCount, (g.op a).address = a) ∧ (∀ r < g.allocCount, (g.alloc r).address = r) ∧
    (∀ a, (g.op a).ins.Pairwise (· < ·) ∧ ∀ b ∈ (g.op a).ins, b < g.opCount) ∧
    (∀ a, (g.op a).outs.Pairwise (· < ·) ∧ ∀ b ∈ (g.op a).outs, b < g.opCount) ∧
    (∀ a, (g.op a).allocs.Pairwise (· < ·) ∧ ∀ r ∈ (g.op a).allocs, r < g.allocCount) ∧
    (∀ r, (g.alloc r).ops.Pairwise (· < ·) ∧ ∀ a ∈ (g.alloc r).ops, a < g.opCount) ∧
    (∀ a b, b ∈ (g.op a).outs ↔ a ∈ (g.op b).ins) ∧
    (∀ a r, r ∈ (g.op a).allocs ↔ a ∈ (g.alloc r).ops) ∧
    (∀ a, a ∉ (g.op a).outs) ∧
    (∀ a b, (g.op a).fwdLink = some b ↔ (g.op b).bwdLink = some a) ∧
    (∀ a b c, (g.op a).fwdLink = some c → (g.op b).fwdLink = some c → a = b) ∧
    (∀ a b c, (g.op a).bwdLink = some c → (g.op b).bwdLink = some c → a = b) ∧
    ∀ (c : Call) (e : Error) (h : Graph (Tiered Float)), c.perform g = .error e h → h = g := by
  have hw := hg.built.wellFormed
  refine ⟨hw.op_address, hw.alloc_address, fun a => ⟨hw.ins_sorted a, fun b hb => ?_⟩,
    fun a => ⟨hw.outs_sorted a, fun b hb => hw.outs_lt hb⟩,
    fun a => ⟨hw.allocs_sorted a, fun r hr => hw.lt_of_mem_allocs hr⟩,
    fun r => ⟨hw.ops_sorted r, fun a ha => hw.ops_lt ha⟩, fun a b => hw.mem_ins.symm,
    fun a r => hw.mem_allocs, hw.irrefl, fun a b => hw.bwdLink.symm,
    fun a b c ha hb => hw.toOrdered.link_injective ha hb, fun a b c ha hb => ?_,
    fun c e h h' => hg.built.eq_of_error h'⟩
  · exact hw.lt_of_mem_ins hb
  · exact Option.some.inj ((hw.bwdLink.mp ha).symm.trans (hw.bwdLink.mp hb))

section LinkedPair

theorem linkedPair_obtained : linkedPair.Obtained :=
  .failed (c := .constrain 0 0) (.called (c := .link 0 1)
    (.called (c := .addOps ["a", "b"]) .empty rfl) rfl) rfl

/-- The link of the two Ops is recorded at both of them, and one that leads to no Op fails. -/
theorem linkedPair_consistent : (linkedPair.op 1).bwdLink = some 0 ∧
    ∃ e, (Call.link 0 2).perform linkedPair = .error e linkedPair := by
  obtain ⟨-, -, -, -, -, -, -, -, -, hlink, -, -, hfail⟩ := linkedPair_obtained.consistent
  refine ⟨(hlink 0 1).mp rfl, ?_⟩
  obtain ⟨e, h, he⟩ : ∃ e h, (Call.link 0 2).perform linkedPair = .error e h := ⟨_, _, rfl⟩
  exact ⟨e, hfail (.link 0 2) e h he ▸ he⟩

end LinkedPair

end Liveness.Graph
