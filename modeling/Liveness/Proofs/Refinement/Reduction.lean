import Liveness.Proofs.Closure.Reduction
import Liveness.Proofs.Refinement.RoundSuccess

/-! # Settling reduces the constraints

A graph settles with any closure that only knows of its paths: the constraints that are implied
are gone, apart from those of links. What is left constrains the Ops as before, so the valid
orders are the same.
-/

namespace Liveness

open Success

variable {W : Type} {g : Graph W}

theorem Graph.acyclic_of_edges (ha : g.edges.Acyclic) : g.Acyclic := by
  obtain ⟨f, hf⟩ := ha.exists_rank
  exact ⟨f, fun hb => hf (outs_edges g _ ▸ hb)⟩

namespace Draft

variable [Weight W] {d d' : Draft W} {c : Closure} {log : Log W} {order : List Nat}

theorem settle_mem_outs (hg : g.WellFormed) (h' : settle g c = .ok (d, log)) {a b : Nat} :
    b ∈ (d.graph.op a).outs ↔ b ∈ (g.op a).outs ∧
      ((a, b) ∈ c.impliedPairs g.edges → (g.op a).fwdLink = some b) := by
  obtain ⟨k, hk, h'⟩ := bind_eq_ok.mp h'
  obtain ⟨rfl, -⟩ := Prod.mk.inj (pure_eq_ok.mp h')
  obtain ⟨-, -, -, hmem⟩ := Graph.dropImplied_spec hg hk
  exact hmem

theorem settle_validOrder (hg : g.WellFormed) (ha : g.Acyclic) (hc : c.Within g.Path)
    (h' : settle g c = .ok (d, log)) : d.graph.ValidOrder order ↔ g.ValidOrder order := by
  obtain ⟨k, hk, h'⟩ := bind_eq_ok.mp h'
  obtain ⟨rfl, -⟩ := Prod.mk.inj (pure_eq_ok.mp h')
  obtain ⟨-, hcount, hlink, hmem⟩ := Graph.dropImplied_spec hg hk
  have hback : k.Refines g := ⟨hcount.symm, fun hb => .of_mem (hmem.mp hb).1,
    fun hb => (hlink _).symm.trans hb⟩
  exact ⟨(Graph.dropImplied_refines hg ha hc hk).validOrder, hback.validOrder⟩

/-- Without the implied edges, edges without a cycle are reduced to those that are needed. A graph
has a closure that only knows of paths, and settles with every such closure. The implied
constraints are then gone unless they belong to a link, and the valid orders are the same. -/
theorem settle_reduces :
    (∀ edges : Edges, edges.InRange → edges.Acyclic → ∃ c, Closure.ofEdges edges = .ok c ∧
      edges.Reduction (edges.without (c.impliedPairs edges))) ∧
    ∀ g : Graph W, g.WellFormed → g.edges.Acyclic →
      (∃ c, Closure.ofEdges g.edges = .ok c ∧ c.Within g.Path) ∧
      ∀ c : Closure, c.Within g.Path → ∃ d log, settle g c = .ok (d, log) ∧
        (∀ a b, b ∈ (d.graph.op a).outs ↔ b ∈ (g.op a).outs ∧
          ((a, b) ∈ c.impliedPairs g.edges → (g.op a).fwdLink = some b)) ∧
        ∀ order, d.graph.ValidOrder order ↔ g.ValidOrder order := by
  refine ⟨fun edges hr hac => ?_, fun g hg hac => ?_⟩
  · obtain ⟨c, hc, he⟩ := (Closure.ofEdges_eq hr).1 hac
    exact ⟨c, hc, he.reduction hr hac⟩
  · have ha := Graph.acyclic_of_edges hac
    refine ⟨Graph.exists_closure hg.toOrdered ha, fun c hc => ?_⟩
    obtain ⟨d, log, hd⟩ := settle_succeeds hg c
    exact ⟨d, log, hd, fun a b => settle_mem_outs hg hd, fun order => settle_validOrder hg ha hc hd⟩

end Draft

section ShortcutChains

open Numbers Liveness.Graph

/-- The linked chain before the other one, with a constraint that skips the end of the former. -/
def Graph.shortcutChains : Graph (Tiered Int) := linkedChains.connectAll [(1, 2), (0, 2)]

/-- The shortcut is the only constraint that is implied, and only one order is valid with it or
without it. -/
theorem Draft.shortcutChains_reduces : shortcutChains.Built ∧ ∃ c d log,
    Closure.ofEdges shortcutChains.edges = .ok c ∧ settle shortcutChains c = .ok (d, log) ∧
      c.impliedPairs shortcutChains.edges = [(0, 2)] ∧
      shortcutChains.edges.Reduction (shortcutChains.edges.without [(0, 2)]) ∧
      2 ∉ (d.graph.op 0).outs ∧ d.graph.ValidOrder [0, 1, 2, 3] := by
  have hg : shortcutChains.Built := linkedChains_built.connectAll (by decide)
  obtain ⟨hr, hac⟩ := Edges.isSchedulable_iff.mp
    (show shortcutChains.edges.isSchedulable = true by decide +kernel)
  obtain ⟨hedges, hsettle⟩ := settle_reduces (W := Tiered Int)
  obtain ⟨c, hc, hred⟩ := hedges _ hr hac
  obtain ⟨⟨c', hc', hw⟩, hall⟩ := hsettle _ hg.wellFormed hac
  obtain rfl := Except.ok.inj (hc.symm.trans hc')
  obtain ⟨d, log, hd, houts, horders⟩ := hall c hw
  have hv : (Closure.ofEdges shortcutChains.edges).map
      (fun c => c.impliedPairs shortcutChains.edges) = .ok [(0, 2)] := by decide +kernel
  rw [hc] at hv
  have hpairs : c.impliedPairs shortcutChains.edges = [(0, 2)] := Except.ok.inj hv
  rw [hpairs] at hred houts
  have hlink : (shortcutChains.op 0).fwdLink ≠ some 2 := by decide
  exact ⟨hg, c, d, log, hc, hd, hpairs, hred,
    fun hm => hlink (((houts 0 2).mp hm).2 (List.mem_singleton_self _)),
    (horders _).mpr (by decide)⟩

end ShortcutChains

end Liveness
