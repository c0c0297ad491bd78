import Liveness.Proofs.Closure
import Liveness.Proofs.Refinement.Slides

/-! # Refinement keeps the meaning of a graph

Every pass tightens the graph, and dropping implied constraints does too. So whatever
passes are on and however many rounds they run, the refined graph refines the original.
-/

namespace Liveness

open Success

variable {W : Type} [Weight W] {g h : Graph W} {d d' : Draft W} {a b : Nat}

namespace Draft

theorem runChecked_eq_ok {pass : Pass} {result : Refined W} (h' : d.runChecked pass = .ok result) :
    ∃ found, d.run pass = .ok found ∧ found.graph = result.graph ∧
      found.changed = result.changed ∧
      (found.changed = true → result.graph.checkSchedulable = .ok ()) := by
  obtain ⟨found, hf, h'⟩ := bind_eq_ok.mp h'
  refine ⟨found, hf, ?_⟩
  split at h'
  · split at h'
    · next hc =>
      obtain rfl := pure_eq_ok.mp h'
      exact ⟨rfl, rfl, fun _ => hc⟩
    · obtain ⟨_, he, -⟩ := bind_eq_ok.mp h'
      exact (throw_eq_ok.mp he).elim
  · next hc =>
    obtain rfl := pure_eq_ok.mp h'
    exact ⟨rfl, rfl, fun hc' => absurd hc' hc⟩

/-- New constraints are taken up edge by edge, or the closure is computed again. -/
theorem refresh_cases {previous : Edges} {round : Nat} {log : Log W}
    (h' : d.refresh previous round = .ok (d', log)) :
    (∃ added c log', d.graph.newEdges previous = .ok added ∧ d.closure.updated added = .ok c ∧
      settle d.graph c = .ok (d', log')) ∨ ∃ log', ofGraph d.graph = .ok (d', log') := by
  obtain ⟨added, hadd, h'⟩ := bind_eq_ok.mp h'
  dsimp only at h'
  split at h'
  · obtain ⟨⟨k, log⟩, hk, h'⟩ := bind_eq_ok.mp h'
    obtain rfl := (Prod.mk.inj (pure_eq_ok.mp h')).1
    obtain ⟨c, hc, hk⟩ := bind_eq_ok.mp hk
    exact .inl ⟨added, c, log, hadd, hc, hk⟩
  · obtain ⟨⟨k, log⟩, hk, h'⟩ := bind_eq_ok.mp h'
    obtain rfl := (Prod.mk.inj (pure_eq_ok.mp h')).1
    exact .inr ⟨log, hk⟩

end Draft

theorem Rounds.start_eq_ok {r : Rounds W} {draft : Draft W} {fresh : Log W}
    (h' : r.start = .ok (draft, fresh)) : (r.count = 0 ∧ draft = r.draft) ∨
      (r.count ≠ 0 ∧ r.draft.refresh r.previous r.count = .ok (draft, fresh)) := by
  unfold start at h'
  split at h'
  · next hc => exact .inl ⟨hc, (Prod.mk.inj (Except.ok.inj h')).1.symm⟩
  · next hc => exact .inr ⟨hc, h'⟩

theorem Graph.refine_eq_ok {passes : Passes} {log : Log W} :
    g.refine passes = .ok (h, log) ↔ ∃ quiet, g.refineTelling passes = .ok (h, log, quiet) := by
  unfold refine
  rw [map_eq_ok]
  constructor
  · rintro ⟨⟨h, log, quiet⟩, h', he⟩
    obtain ⟨rfl, rfl⟩ := Prod.mk.inj he
    exact ⟨quiet, h'⟩
  · rintro ⟨quiet, h'⟩
    exact ⟨_, h', rfl⟩

section Keeps

variable {P : Draft W → Prop}
  (hpass : ∀ {d : Draft W} {pass result}, P d → d.runChecked pass = .ok result →
    P { d with graph := result.graph })
  (hrefresh : ∀ {d d' : Draft W} {previous round log}, P d →
    d.refresh previous round = .ok (d', log) → P d')

include hpass

theorem Draft.runAll_keeps {passes changers : List Pass} {log : Log W} (hd : P d)
    (h' : d.runAll passes = .ok (d', changers, log)) : P d' := by
  induction passes generalizing d d' changers log with
  | nil =>
    obtain rfl := (Prod.mk.inj (Except.ok.inj h')).1
    exact hd
  | cons pass passes ih =>
    obtain ⟨result, hr, h'⟩ := bind_eq_ok.mp h'
    obtain ⟨⟨last, changers, log⟩, hl, h'⟩ := bind_eq_ok.mp h'
    obtain rfl := (Prod.mk.inj (pure_eq_ok.mp h')).1
    exact ih (hpass hd hr) hl

include hrefresh

theorem Rounds.runTelling_keeps {all : List Pass} {left : Nat} {r : Rounds W} {log : Log W}
    {quiet : Bool} (hr : P r.draft) (h' : runTelling all left r = .ok (h, log, quiet)) :
    ∃ d, P d ∧ d.graph = h := by
  induction left generalizing r with
  | zero =>
    obtain rfl := (Prod.mk.inj (Except.ok.inj h')).1
    exact ⟨r.draft, hr, rfl⟩
  | succ left ih =>
    obtain ⟨⟨draft, fresh⟩, hstart, h'⟩ := bind_eq_ok.mp h'
    have hdraft : P draft := by
      rcases start_eq_ok hstart with ⟨-, rfl⟩ | ⟨-, hd⟩
      · exact hr
      · exact hrefresh hr hd
    obtain ⟨⟨last, changers, told⟩, hl, h'⟩ := bind_eq_ok.mp h'
    have hlast := Draft.runAll_keeps hpass hdraft hl
    dsimp only at h'
    split at h'
    · obtain rfl := (Prod.mk.inj (pure_eq_ok.mp h')).1
      exact ⟨last, hlast, rfl⟩
    · exact ih hlast h'

/-- What holds of the first draft, and is kept by passes and fresh closures, holds of the
draft with the refined graph. Without passes there is no draft. -/
theorem Graph.refine_keeps {passes : Passes} {log : Log W}
    (hfirst : ∀ {d log}, g.checkSchedulable = .ok () → Draft.ofGraph g = .ok (d, log) → P d)
    (h' : g.refine passes = .ok (h, log)) : h = g ∨ ∃ d, P d ∧ d.graph = h := by
  obtain ⟨quiet, h'⟩ := refine_eq_ok.mp h'
  unfold refineTelling at h'
  dsimp only at h'
  split at h'
  · exact .inl (Prod.mk.inj (pure_eq_ok.mp h')).1.symm
  · rw [seq_eq_ok] at h'
    obtain ⟨hc, h'⟩ := h'
    obtain ⟨⟨draft, log⟩, hd, h'⟩ := bind_eq_ok.mp h'
    exact .inr (Rounds.runTelling_keeps hpass hrefresh (hfirst hc hd) h')

end Keeps

namespace Graph

theorem dropImplied_spec {pairs : List (Nat × Nat)} (hg : g.WellFormed)
    (h' : g.dropImplied pairs = .ok h) :
    h.WellFormed ∧ h.opCount = g.opCount ∧ (∀ x, (h.op x).fwdLink = (g.op x).fwdLink) ∧
      ∀ {a b}, b ∈ (h.op a).outs ↔
        b ∈ (g.op a).outs ∧ ((a, b) ∈ pairs → (g.op a).fwdLink = some b) := by
  induction pairs generalizing g with
  | nil =>
    obtain rfl := Except.ok.inj h'
    exact ⟨hg, rfl, fun _ => rfl, by simp⟩
  | cons p pairs ih =>
    obtain ⟨u, v⟩ := p
    obtain ⟨k, hk, h'⟩ := bind_eq_ok.mp h'
    dsimp only at hk
    split at hk
    · next hl =>
      obtain rfl := Except.ok.inj hk
      obtain ⟨hwf, hcount, hlink, hmem⟩ := ih hg h'
      refine ⟨hwf, hcount, hlink, fun {a b} => hmem.trans (and_congr_right fun _ => ?_)⟩
      grind
    · next hl =>
      obtain ⟨hu, hv, rfl⟩ := unconstrain_eq_ok.mp hk
      obtain ⟨hwf, hcount, hlink, hmem⟩ := ih (hg.disconnect hu hv) h'
      simp only [fwdLink_disconnect hu hv, opCount_disconnect,
        mem_outs_disconnect hg.toOrdered hu hv] at hcount hlink hmem
      refine ⟨hwf, hcount, hlink, fun {a b} => hmem.trans ?_⟩
      grind

theorem dropImplied_refines {cl : Closure} (hg : g.WellFormed) (ha : g.Acyclic)
    (hc : cl.Within g.Path) (h' : g.dropImplied (cl.impliedPairs g.edges) = .ok h) :
    g.Refines h := by
  obtain ⟨-, hcount, hlink, hmem⟩ := dropImplied_spec hg h'
  refine ⟨hcount, path_of_implied ha fun {a b} hb => ?_, fun hb => (hlink _).trans hb⟩
  by_cases hp : (a, b) ∈ cl.impliedPairs g.edges
  · obtain ⟨-, x, hx, hpre⟩ := Closure.mem_impliedPairs hp
    exact .inr ⟨x, hc hpre, outs_edges g x ▸ hx⟩
  · exact .inl (hmem.mpr ⟨hb, fun h => absurd h hp⟩)

end Graph

namespace Draft

/-- A draft of a tightened graph without cycles. Its closure only knows of paths. -/
structure Sound (g : Graph W) (d : Draft W) : Prop where
  tightens : g.Tightens d.graph
  acyclic : d.graph.Acyclic
  within : d.closure.Within d.graph.Path

theorem settle_sound {cl : Closure} {log : Log W} (hg : g.WellFormed) (hl : g.LinksHeld)
    (ha : g.Acyclic) (hc : cl.Within g.Path) (h' : settle g cl = .ok (d, log)) : d.Sound g := by
  obtain ⟨k, hk, h'⟩ := bind_eq_ok.mp h'
  obtain ⟨rfl, -⟩ := Prod.mk.inj (pure_eq_ok.mp h')
  obtain ⟨hwf, -, hlink, hmem⟩ := Graph.dropImplied_spec hg hk
  have hr := Graph.dropImplied_refines hg ha hc hk
  refine ⟨⟨hr, hwf, fun a b hb => ?_⟩, ha.mono fun hb => (hmem.mp hb).1,
    fun a b hab => (hc hab).lift hr.path⟩
  rw [hlink] at hb
  exact hmem.mpr ⟨hl hb, fun _ => hb⟩

theorem ofGraph_sound {log : Log W} (hg : g.WellFormed) (hl : g.LinksHeld) (ha : g.Acyclic)
    (h' : Draft.ofGraph g = .ok (d, log)) : d.Sound g := by
  obtain ⟨cl, hc, h'⟩ := bind_eq_ok.mp h'
  refine settle_sound hg hl ha (Closure.ofEdges_within (fun a b c => .trans) (fun a b hb => ?_) hc) h'
  rw [Graph.outs_edges] at hb
  exact .of_mem hb

/-- A pass tightens the graph. If it reports no change, the graph has no cycle. -/
theorem run_tightens {pass : Pass} {result : Refined W} (hs : d.Sound g)
    (h' : d.run pass = .ok result) : d.graph.Tightens result.graph ∧
      (result.changed = false → result.graph.Acyclic) := by
  have hg := hs.tightens.wellFormed
  have hl := hs.tightens.linksHeld
  have halloc : d.graph.Reallocates result.graph → d.graph.Tightens result.graph ∧
      (result.changed = false → result.graph.Acyclic) := fun hr =>
    ⟨hr.tightens hr.wellFormed hl, fun _ => hr.acyclic hs.acyclic⟩
  cases pass with
  | slideLinks =>
    obtain ⟨ht, hn⟩ := Graph.slideLinks_tightens hg hl h'
    exact ⟨ht, fun hc => hn hc ▸ hs.acyclic⟩
  | linkTightDrops =>
    obtain ⟨⟨k, count⟩, hk, h'⟩ := bind_eq_ok.mp h'
    obtain rfl := pure_eq_ok.mp h'
    have := Graph.linkWherePossible_tightens hg hl hs.acyclic hk
    exact ⟨this.1, fun _ => this.2⟩
  | linkClosePairs =>
    obtain ⟨⟨k, count⟩, hk, h'⟩ := bind_eq_ok.mp h'
    obtain rfl := pure_eq_ok.mp h'
    have := Graph.linkWherePossible_tightens hg hl hs.acyclic hk
    exact ⟨this.1, fun _ => this.2⟩
  | orderParallelChains =>
    have := orderParallelChains_tightens hg hl hs.acyclic h'
    exact ⟨this.1, fun _ => this.2⟩
  | dropWeightless => exact halloc (Graph.dropWhere_reallocates hg h')
  | dropSolitary => exact halloc (Graph.dropWhere_reallocates hg h')
  | dropInner => exact halloc (Graph.dropInner_reallocates hg h')
  | dropFixed => exact halloc (Graph.dropWhere_reallocates hg h')
  | combine => exact halloc (Graph.combine_reallocates hg h')

theorem runChecked_sound {pass : Pass} {result : Refined W} (hs : d.Sound g)
    (h' : d.runChecked pass = .ok result) :
    ({ d with graph := result.graph } : Draft W).Sound g := by
  obtain ⟨found, hr, he, -, hc⟩ := runChecked_eq_ok h'
  obtain ⟨ht, hn⟩ := run_tightens hs hr
  rw [he] at ht hn
  have ha : result.graph.Acyclic := by
    cases hchanged : found.changed with
    | false => exact hn hchanged
    | true => exact Graph.acyclic_of_checkSchedulable ht.wellFormed.toOrdered (hc hchanged)
  exact ⟨hs.tightens.trans ht, ha, fun a b hab => (hs.within hab).lift ht.path⟩

omit [Weight W] in
theorem mem_newEdges_iff {old added : Edges} (h' : g.newEdges old = .ok added) :
    b ∈ added.outs a ↔ b ∈ (g.op a).outs ∧ b ∉ old.outs a := by
  unfold Graph.newEdges at h'
  split at h'
  · cases h'
  · obtain rfl := Except.ok.inj h'
    rw [← Graph.outs_edges]
    simp only [Edges.outs, Array.getD_eq_getD_getElem?, Array.getElem?_mapIdx]
    cases g.edges[a]? <;> simp

omit [Weight W] in
theorem mem_newEdges {old added : Edges} (h' : g.newEdges old = .ok added)
    (hb : b ∈ added.outs a) : b ∈ (g.op a).outs :=
  ((mem_newEdges_iff h').mp hb).1

theorem refresh_sound {previous : Edges} {round : Nat} {log : Log W} (hs : d.Sound g)
    (h' : d.refresh previous round = .ok (d', log)) : d'.Sound g := by
  have hg := hs.tightens.wellFormed
  have hl := hs.tightens.linksHeld
  have hown : ∀ {d' : Draft W}, d'.Sound d.graph → d'.Sound g := fun h =>
    ⟨hs.tightens.trans h.tightens, h.acyclic, h.within⟩
  rcases refresh_cases h' with ⟨added, cl, log', hadd, hc, hk⟩ | ⟨log', hk⟩
  · refine hown (settle_sound hg hl hs.acyclic ?_ hk)
    exact hs.within.updated (fun a b c => .trans) (fun a b hb => .of_mem (mem_newEdges hadd hb)) hc
  · exact hown (ofGraph_sound hg hl hs.acyclic hk)

end Draft

/-- Refinement leaves a well-formed graph that refines the original one. -/
theorem Graph.refine_tightens {passes : Passes} {log : Log W} (hg : g.WellFormed)
    (hl : g.LinksHeld) (h' : g.refine passes = .ok (h, log)) : g.Tightens h := by
  have hkept := refine_keeps (P := Draft.Sound g) Draft.runChecked_sound Draft.refresh_sound
    (fun hc hd => Draft.ofGraph_sound hg hl (acyclic_of_checkSchedulable hg.toOrdered hc) hd) h'
  rcases hkept with rfl | ⟨d, hd, rfl⟩
  · exact .refl hg hl
  · exact hd.tightens

end Liveness
