import Liveness.Proofs.Refinement.Rounds

/-! # Refinement only edits graphs

Every pass is made of single edits of a graph. So refinement keeps whatever each single edit
keeps, even where links have lost their constraints: the number of Allocs, and that edits make
the graph out of the empty one.
-/

namespace Liveness

open Success

variable {W : Type} [Weight W] {g h : Graph W}

structure Graph.KeptByEdits (P : Graph W → Prop) : Prop where
  constrain : ∀ {g h u v}, P g → g.constrain u v = .ok h → P h
  unconstrain : ∀ {g h u v}, P g → g.unconstrain u v = .ok h → P h
  link : ∀ {g h u v}, P g → g.link u v = .ok h → P h
  release : ∀ {g h a r}, P g → g.release a r = .ok h → P h
  releaseAll : ∀ {g h r}, P g → g.releaseAll r = .ok h → P h
  reweigh : ∀ {g h r w}, P g → g.reweigh r w = .ok h → P h

namespace Graph.KeptByEdits

variable {P : Graph W → Prop} {result : Refined W}

omit [Weight W] in
theorem foldlM {ι : Type} {f : Graph W → ι → Except Error (Graph W)} {items : List ι}
    (hf : ∀ {g h : Graph W} i, P g → f g i = .ok h → P h) (hg : P g)
    (h' : items.foldlM f g = .ok h) : P h :=
  foldlM_keeps (P := P) hg (fun i _ _ _ hk hs => hf i hk hs) h'

variable (he : KeptByEdits P)

include he

theorem dropImplied {pairs : List (Nat × Nat)} (hg : P g)
    (h' : g.dropImplied pairs = .ok h) : P h := by
  refine foldlM (fun p hk hs => ?_) hg h'
  split at hs
  · obtain rfl := Except.ok.inj hs
    exact hk
  · exact he.unconstrain hk hs

theorem dropWhere {p : Alloc W → Bool} (hg : P g) (h' : g.dropWhere p = .ok result) :
    P result.graph := by
  obtain ⟨k, hk, h'⟩ := bind_eq_ok.mp h'
  obtain rfl := pure_eq_ok.mp h'
  exact foldlM (fun _ => he.releaseAll) hg hk

theorem dropInner {c : Closure} (hg : P g) (h' : g.dropInner c = .ok result) :
    P result.graph := by
  obtain ⟨k, hk, h'⟩ := bind_eq_ok.mp h'
  obtain rfl := pure_eq_ok.mp h'
  exact foldlM (fun _ => he.release) hg hk

theorem combine (hg : P g) (h' : g.combine = .ok result) : P result.graph := by
  obtain ⟨k, hk, h'⟩ := bind_eq_ok.mp h'
  obtain rfl := pure_eq_ok.mp h'
  refine foldlM (fun alloc hg ha => ?_) hg hk
  obtain ⟨k, hk, ha⟩ := bind_eq_ok.mp ha
  exact he.reweigh (foldlM (fun _ => he.releaseAll) hg hk) ha

theorem slideOp {chain : List Nat} {head tail a : Nat} {changed changed' : Bool} (hg : P g)
    (h' : Graph.slideOp chain head tail (g, changed) a = .ok (h, changed')) : P h := by
  obtain ⟨k, hk, h'⟩ := bind_eq_ok.mp h'
  obtain ⟨k', hk', h'⟩ := bind_eq_ok.mp h'
  obtain ⟨rfl, -⟩ := Prod.mk.inj (pure_eq_ok.mp h')
  refine foldlM (fun b hg hs => ?_) (foldlM (fun b hg hs => ?_) hg hk) hk'
  · obtain ⟨_, hu, hs⟩ := bind_eq_ok.mp hs
    exact he.constrain (he.unconstrain hg hu) hs
  · obtain ⟨_, hu, hs⟩ := bind_eq_ok.mp hs
    exact he.constrain (he.unconstrain hg hu) hs

theorem slideLinks (hg : P g) (h' : g.slideLinks = .ok result) : P result.graph := by
  obtain ⟨⟨k, changed⟩, hk, h'⟩ := bind_eq_ok.mp h'
  obtain rfl := pure_eq_ok.mp h'
  refine foldlM_keeps (P := fun state : Graph W × Bool => P state.1) hg
    (fun chain _ s t hs ht => ?_) hk
  unfold slideChain at ht
  split at ht
  · exact foldlM_keeps (P := fun state : Graph W × Bool => P state.1) hs
      (fun a _ s t hs ht => he.slideOp hs ht) ht
  · obtain rfl := Except.ok.inj ht
    exact hs

theorem linkWherePossible {pairs : List (Nat × Nat)} {count : Nat} (hg : P g)
    (h' : g.linkWherePossible pairs = .ok (h, count)) : P h := by
  refine foldlM_keeps (P := fun state : Graph W × Nat => P state.1) hg
    (fun p _ s t hs ht => ?_) h'
  dsimp only at ht
  split at ht
  · obtain ⟨k, hk, ht⟩ := bind_eq_ok.mp ht
    obtain rfl := pure_eq_ok.mp ht
    exact he.link hs hk
  · obtain rfl := pure_eq_ok.mp ht
    exact hs

end Graph.KeptByEdits

namespace Draft

variable {P : Graph W → Prop} {d d' : Draft W} {log : Log W} {result : Refined W}
  (he : Graph.KeptByEdits P)

include he

theorem orderParallelChains_keeps (hd : P d.graph)
    (h' : d.orderParallelChains = .ok result) : P result.graph := by
  obtain ⟨⟨k, count⟩, hk, h'⟩ := bind_eq_ok.mp h'
  obtain rfl := pure_eq_ok.mp h'
  refine foldlM_keeps (P := fun state : Graph W × Nat => P state.1) hd
    (fun p _ s t hs ht => ?_) hk
  unfold tryConstrain at ht
  dsimp only at ht
  split at ht
  · obtain rfl := pure_eq_ok.mp ht
    exact hs
  · obtain ⟨k, hk, ht⟩ := bind_eq_ok.mp ht
    split at ht
    · obtain rfl := pure_eq_ok.mp ht
      exact he.constrain hs hk
    · obtain ⟨k', hk', ht⟩ := bind_eq_ok.mp ht
      obtain rfl := pure_eq_ok.mp ht
      exact he.unconstrain (he.constrain hs hk) hk'

theorem run_keeps {pass : Pass} (hd : P d.graph) (h' : d.run pass = .ok result) :
    P result.graph := by
  cases pass with
  | slideLinks => exact he.slideLinks hd h'
  | linkTightDrops =>
    obtain ⟨⟨k, count⟩, hk, h'⟩ := bind_eq_ok.mp h'
    obtain rfl := pure_eq_ok.mp h'
    exact he.linkWherePossible hd hk
  | linkClosePairs =>
    obtain ⟨⟨k, count⟩, hk, h'⟩ := bind_eq_ok.mp h'
    obtain rfl := pure_eq_ok.mp h'
    exact he.linkWherePossible hd hk
  | orderParallelChains => exact orderParallelChains_keeps he hd h'
  | dropWeightless => exact he.dropWhere hd h'
  | dropSolitary => exact he.dropWhere hd h'
  | dropInner => exact he.dropInner hd h'
  | dropFixed => exact he.dropWhere hd h'
  | combine => exact he.combine hd h'

theorem runChecked_keeps {pass : Pass} (hd : P d.graph)
    (h' : d.runChecked pass = .ok result) : P result.graph := by
  obtain ⟨found, hr, hgraph, -⟩ := runChecked_eq_ok h'
  exact hgraph ▸ run_keeps he hd hr

theorem settle_keeps {c : Closure} (hg : P g) (h' : settle g c = .ok (d, log)) :
    P d.graph := by
  obtain ⟨k, hk, h'⟩ := bind_eq_ok.mp h'
  obtain ⟨rfl, -⟩ := Prod.mk.inj (pure_eq_ok.mp h')
  exact he.dropImplied hg hk

theorem ofGraph_keeps (hg : P g) (h' : ofGraph g = .ok (d, log)) : P d.graph := by
  obtain ⟨c, -, h'⟩ := bind_eq_ok.mp h'
  exact settle_keeps he hg h'

theorem refresh_keeps {previous : Edges} {round : Nat} (hd : P d.graph)
    (h' : d.refresh previous round = .ok (d', log)) : P d'.graph := by
  rcases refresh_cases h' with ⟨_, _, _, _, _, hk⟩ | ⟨_, hk⟩
  · exact settle_keeps he hd hk
  · exact ofGraph_keeps he hd hk

end Draft

theorem Graph.KeptByEdits.refine {P : Graph W → Prop} (he : KeptByEdits P) {passes : Passes}
    {log : Log W} (hg : P g) (h' : g.refine passes = .ok (h, log)) : P h := by
  have hkept := refine_keeps (P := fun d : Draft W => P d.graph) (Draft.runChecked_keeps he)
    (Draft.refresh_keeps he) (fun _ hd => Draft.ofGraph_keeps he hg hd) h'
  rcases hkept with rfl | ⟨d, hd, rfl⟩
  · exact hg
  · exact hd

theorem Graph.refine_allocCount {passes : Passes} {log : Log W}
    (h' : g.refine passes = .ok (h, log)) : h.allocCount = g.allocCount := by
  refine KeptByEdits.refine (P := fun k => k.allocCount = g.allocCount) ?_ rfl h'
  constructor
  · intro k l u v hk hl
    obtain ⟨-, rfl⟩ := constrain_eq_ok.mp hl
    exact (allocCount_connect k u v).trans hk
  · intro k l u v hk hl
    obtain ⟨-, -, rfl⟩ := unconstrain_eq_ok.mp hl
    exact (allocCount_disconnect k u v).trans hk
  · intro k l u v hk hl
    obtain ⟨-, -, -, rfl⟩ := link_eq_ok.mp hl
    exact (allocCount_join k u v).trans hk
  · intro k l a r hk hl
    obtain ⟨-, -, rfl⟩ := release_eq_ok.mp hl
    exact (allocCount_detach k a r).trans hk
  · exact fun hk hl => (allocCount_releaseAll hl).trans hk
  · exact fun hk hl => (allocCount_reweigh hl).trans hk

theorem Graph.refine_built {passes : Passes} {log : Log W} (hg : g.Built)
    (h' : g.refine passes = .ok (h, log)) : h.Built :=
  KeptByEdits.refine ⟨.constrain, .unconstrain, .link, .release, .releaseAll, .reweigh⟩ hg h'

end Liveness
