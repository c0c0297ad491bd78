import Liveness.Proofs.Refinement.Rounds

/-! # Passes that report no change

A pass tells whether it changed the graph. Where it says that it did not, the graph is the
same one as before, so after a round in which no pass reports a change the draft is the same
as well.
-/

namespace Liveness

open Success

variable {W : Type} [Weight W] {g h : Graph W} {d d' : Draft W} {n : Nat}

namespace Graph

omit [Weight W] in
theorem linkWherePossible_eq_self {pairs : List (Nat × Nat)}
    (h' : g.linkWherePossible pairs = .ok (h, 0)) : h = g := by
  refine foldlM_keeps (P := fun s : Graph W × Nat => s.2 = 0 → s.1 = g) (fun _ => rfl)
    (fun p _ s t hs ht => ?_) h' rfl
  dsimp only at ht
  split at ht
  · obtain ⟨k, -, ht⟩ := bind_eq_ok.mp ht
    obtain rfl := pure_eq_ok.mp ht
    exact nofun
  · obtain rfl := pure_eq_ok.mp ht
    exact hs

omit [Weight W] in
theorem foldlM_refined_eq_self {ι : Type} {f : Graph W → ι → Except Error (Graph W)}
    {items : List ι} {log : Log W} {result : Refined W}
    (h' : (do return ⟨← items.foldlM f g, !items.isEmpty, log⟩) = Except.ok result)
    (hc : result.changed = false) : result.graph = g := by
  obtain ⟨k, hk, h'⟩ := bind_eq_ok.mp h'
  obtain rfl := pure_eq_ok.mp h'
  simp only [Bool.not_eq_false', List.isEmpty_iff] at hc
  rw [hc] at hk
  exact (pure_eq_ok.mp hk).symm

end Graph

namespace Draft

variable {result : Refined W} {pass : Pass}

theorem tryConstrain_eq_self {p : Nat × Nat} (hg : d.graph.WellFormed)
    (hp : p.2 ∉ (d.graph.op p.1).outs) (hn : n = 0 → g = d.graph)
    (h' : d.tryConstrain (g, n) p = .ok (h, 0)) : h = d.graph := by
  unfold tryConstrain at h'
  dsimp only at h'
  split at h'
  · obtain ⟨rfl, rfl⟩ := Prod.mk.inj (pure_eq_ok.mp h')
    exact hn rfl
  · obtain ⟨k, hk, h'⟩ := bind_eq_ok.mp h'
    obtain ⟨⟨hu, hv, hne⟩, rfl⟩ := Graph.constrain_eq_ok.mp hk
    split at h'
    · exact absurd (Prod.mk.inj (pure_eq_ok.mp h')).2 (Nat.succ_ne_zero n)
    · obtain ⟨k, hk, h'⟩ := bind_eq_ok.mp h'
      obtain ⟨-, -, rfl⟩ := Graph.unconstrain_eq_ok.mp hk
      obtain ⟨rfl, rfl⟩ := Prod.mk.inj (pure_eq_ok.mp h')
      obtain rfl := hn rfl
      exact hg.disconnect_connect hu hv hne hp

theorem orderParallelChains_eq_self (hg : d.graph.WellFormed)
    (h' : d.orderParallelChains = .ok result) (hc : result.changed = false) :
    result.graph = d.graph := by
  obtain ⟨⟨k, count⟩, hk, h'⟩ := bind_eq_ok.mp h'
  obtain rfl := pure_eq_ok.mp h'
  have hzero : count = 0 := by simpa using hc
  refine foldlM_keeps (P := fun s : Graph W × Nat => s.2 = 0 → s.1 = d.graph) (fun _ => rfl)
    (fun p hp s t hs ht hz => ?_) hk hzero
  obtain ⟨t, m⟩ := t
  obtain rfl : m = 0 := hz
  obtain ⟨a, -, hp⟩ := List.mem_flatMap.mp (Graph.mem_sortPairs.mp hp)
  exact tryConstrain_eq_self hg (not_mem_of_mem_constraintsFrom hp) hs ht

/-- What a pass says of the graph is true: if it reports no change, there is none. -/
theorem run_eq_self (hg : d.graph.WellFormed) (hl : d.graph.LinksHeld)
    (h' : d.run pass = .ok result) (hc : result.changed = false) : result.graph = d.graph := by
  have hlinks : ∀ (log : Nat → Log W) {pairs : List (Nat × Nat)},
      (d.graph.linkWherePossible pairs >>= fun found =>
        pure ⟨found.1, decide (0 < found.2), log found.2⟩) = Except.ok result →
        result.graph = d.graph := by
    intro log pairs h'
    obtain ⟨⟨k, count⟩, hk, h'⟩ := bind_eq_ok.mp h'
    obtain rfl := pure_eq_ok.mp h'
    obtain rfl : count = 0 := by simpa using hc
    exact Graph.linkWherePossible_eq_self hk
  cases pass with
  | slideLinks => exact (Graph.slideLinks_tightens hg hl h').2 hc
  | linkTightDrops => exact hlinks (fun count => [.dropsLinked count]) h'
  | linkClosePairs => exact hlinks (fun count => [.closePairsLinked count]) h'
  | orderParallelChains => exact orderParallelChains_eq_self hg h' hc
  | dropWeightless => exact Graph.foldlM_refined_eq_self h' hc
  | dropSolitary => exact Graph.foldlM_refined_eq_self h' hc
  | dropInner => exact Graph.foldlM_refined_eq_self h' hc
  | dropFixed => exact Graph.foldlM_refined_eq_self h' hc
  | combine => exact Graph.foldlM_refined_eq_self h' hc

theorem runChecked_eq_self (hg : d.graph.WellFormed) (hl : d.graph.LinksHeld)
    (h' : d.runChecked pass = .ok result) (hc : result.changed = false) :
    result.graph = d.graph := by
  obtain ⟨found, hr, hgraph, hchanged, -⟩ := runChecked_eq_ok h'
  exact hgraph ▸ run_eq_self hg hl hr (hchanged.trans hc)

variable {passes changers : List Pass} {log : Log W}

theorem runAll_eq_self (hg : d.graph.WellFormed) (hl : d.graph.LinksHeld)
    (h' : d.runAll passes = .ok (d', [], log)) : d' = d := by
  induction passes generalizing log with
  | nil => exact (Prod.mk.inj (Except.ok.inj h')).1.symm
  | cons pass passes ih =>
    obtain ⟨result, hr, h'⟩ := bind_eq_ok.mp h'
    obtain ⟨⟨last, changers, log⟩, hrest, h'⟩ := bind_eq_ok.mp h'
    obtain ⟨rfl, hc, -⟩ := by simpa using pure_eq_ok.mp h'
    split at hc
    · cases hc
    · next hchanged =>
      subst hc
      rw [runChecked_eq_self hg hl hr (by simpa using hchanged)] at hrest
      exact ih hrest

theorem runAll_sublist (h' : d.runAll passes = .ok (d', changers, log)) :
    changers.Sublist passes := by
  induction passes generalizing d d' changers log with
  | nil =>
    obtain ⟨-, rfl, -⟩ := by simpa [runAll] using h'
    exact List.Sublist.refl []
  | cons pass passes ih =>
    obtain ⟨result, -, h'⟩ := bind_eq_ok.mp h'
    obtain ⟨⟨last, changers, log⟩, hrest, h'⟩ := bind_eq_ok.mp h'
    obtain ⟨-, rfl, -⟩ := by simpa using pure_eq_ok.mp h'
    split
    · exact (ih hrest).cons_cons pass
    · exact (ih hrest).cons pass

end Draft

end Liveness
