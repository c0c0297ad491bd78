import Liveness.Proofs.Refinement.Reduction
import Liveness.Proofs.Refinement.Unchanged

/-! # Quiet stops are fixed points

Every round starts with the draft that its own graph has, whether the closure was computed
again or brought up to date: no constraint is left that is implied, apart from those of links.
So after a round of all passes that changed nothing, refinement of the graph starts with that
draft, and its first round is that round again.
-/

namespace Liveness

open Success

variable {W : Type} [Weight W] {g h : Graph W} {d d' : Draft W} {c : Closure} {log : Log W}

omit [Weight W] in
theorem Graph.path_edges (g : Graph W) : g.edges.Path = g.Path := by
  unfold Edges.Path Graph.Path
  simp only [outs_edges]

namespace Draft

/-- A draft whose closure is that of its graph, in which there is nothing left to settle. -/
structure Fresh (d : Draft W) : Prop where
  wellFormed : d.graph.WellFormed
  linksHeld : d.graph.LinksHeld
  closure : Closure.ofEdges d.graph.edges = .ok d.closure
  settled : ∃ log, settle d.graph d.closure = .ok (d, log)

theorem Fresh.ofGraph_eq (hd : d.Fresh) : ∃ log, ofGraph d.graph = .ok (d, log) := by
  rw [ofGraph_eq_settle hd.closure]
  exact hd.settled

theorem Fresh.acyclic (hd : d.Fresh) : d.graph.Acyclic :=
  Graph.acyclic_of_edges (Closure.ofEdges_eq_ok.mp hd.closure).2.1

/-- A graph that settles with its own closure is settled then. -/
theorem settle_fresh (hg : g.WellFormed) (hl : g.LinksHeld)
    (hc : Closure.ofEdges g.edges = .ok c) (h' : settle g c = .ok (d, log)) : d.Fresh := by
  obtain ⟨hr, ha, he⟩ := Closure.ofEdges_eq_ok.mp hc
  have hac := Graph.acyclic_of_edges ha
  have hw : c.Within g.Path := by
    rw [← g.path_edges]
    exact fun a b hab => he.precedes_iff.mp hab
  have hs := settle_sound hg hl hac hw h'
  obtain ⟨k, hk, h'⟩ := bind_eq_ok.mp h'
  obtain ⟨rfl, -⟩ := Prod.mk.inj (pure_eq_ok.mp h')
  obtain ⟨hwf, hcount, hlink, hmem⟩ := Graph.dropImplied_spec hg hk
  have hpath : k.edges.Path = g.edges.Path := by
    rw [k.path_edges, g.path_edges]
    funext a b
    exact propext ⟨.lift fun hb => .of_mem (hmem.mp hb).1, .lift hs.tightens.path⟩
  have hsize : k.edges.size = g.edges.size := by rw [k.size_edges, g.size_edges, hcount]
  have hc' := Closure.ofEdges_congr hc hwf.toOrdered.edges_inRange hsize hpath
  have he' := (Closure.ofEdges_eq_ok.mp hc').2.2
  -- what is implied in the settled graph was implied before, and kept for a link
  have hkept : k.dropImplied (c.impliedPairs k.edges) = .ok k := by
    refine foldlM_eq_self fun p hp => if_pos ?_
    obtain ⟨hb, x, hx, hxb⟩ := (he'.mem_impliedPairs hwf.toOrdered.edges_inRange).mp hp
    rw [k.outs_edges] at hb hxb
    rw [hlink]
    apply (hmem.mp hb).2
    rw [he.mem_impliedPairs hr, g.outs_edges, ← hpath]
    exact ⟨(hmem.mp hb).1, x, hx, (g.outs_edges x).symm ▸ (hmem.mp hxb).1⟩
  refine ⟨hwf, hs.tightens.linksHeld, hc', ?_⟩
  unfold settle
  dsimp only
  rw [hkept]
  exact ⟨_, rfl⟩

theorem ofGraph_fresh (hg : g.WellFormed) (hl : g.LinksHeld)
    (h' : ofGraph g = .ok (d, log)) : d.Fresh := by
  obtain ⟨c, hc, h'⟩ := bind_eq_ok.mp h'
  exact settle_fresh hg hl hc h'

/-- What passes make of a fresh draft: the graph is tightened, and the closure is as it was. -/
structure Follows (d d' : Draft W) : Prop extends d'.Sound d.graph where
  closure : d'.closure = d.closure

theorem Fresh.follows (hd : d.Fresh) : d.Follows d := by
  refine ⟨⟨.refl hd.wellFormed hd.linksHeld, hd.acyclic, fun a b hab => ?_⟩, rfl⟩
  rw [← d.graph.path_edges]
  exact (Closure.ofEdges_eq_ok.mp hd.closure).2.2.precedes_iff.mp hab

theorem Follows.runAll {last : Draft W} {passes changers : List Pass} (hd : d.Follows d')
    (h' : d'.runAll passes = .ok (last, changers, log)) : d.Follows last :=
  runAll_keeps (P := d.Follows) (fun hd hr => ⟨runChecked_sound hd.toSound hr, hd.closure⟩) hd h'

theorem Follows.path_union (hd : d.Follows d') {added : Edges}
    (hn : d'.graph.newEdges d.graph.edges = .ok added) (hf : added.FitsIn d.graph.edges.size) :
    d'.graph.edges.Path = (d.graph.edges.union added).Path := by
  have hmem : ∀ {a b : Nat}, b ∈ (d.graph.edges.union added).outs a ↔
      b ∈ d.graph.edges.outs a ∨ b ∈ added.outs a := Edges.mem_outs_union hf
  funext a b
  refine propext ⟨fun hp => ?_, fun hp => ?_⟩
  · refine Relation.TransGen.mono (fun x y hxy => hmem.mpr ?_) a b hp
    rw [mem_newEdges_iff hn, ← d'.graph.outs_edges]
    exact (Classical.em _).imp_right fun hno => ⟨hxy, hno⟩
  · rw [d'.graph.path_edges]
    refine Relation.TransGen.trans_induction_on hp (fun {x y} hxy => ?_) fun _ _ => .trans
    rcases hmem.mp hxy with hxy | hxy
    · rw [d.graph.outs_edges] at hxy
      exact hd.tightens.path hxy
    · exact .of_mem (mem_newEdges hn hxy)

theorem Follows.refresh {fresh : Draft W} {round : Nat} (hd : d.Fresh) (hf : d.Follows d')
    (h' : d'.refresh d.graph.edges round = .ok (fresh, log)) : fresh.Fresh := by
  have hg := hf.tightens.wellFormed
  have hl := hf.tightens.linksHeld
  rcases refresh_cases h' with ⟨added, c, log', hadd, hc, hk⟩ | ⟨log', hk⟩
  · have hsize : d'.graph.edges.size = d.graph.edges.size := by
      rw [d'.graph.size_edges, d.graph.size_edges, hf.tightens.opCount]
    have hfits : added.FitsIn d.graph.edges.size := by
      rw [← hsize, d'.graph.size_edges]
      exact newEdges_fitsIn hg.toOrdered hadd
    have hunion : Closure.ofEdges (d.graph.edges.union added) = .ok c :=
      ((Closure.updated_eq_ok hd.closure).mp (hf.closure ▸ hc)).2
    refine settle_fresh hg hl (Closure.ofEdges_congr hunion hg.toOrdered.edges_inRange ?_ ?_) hk
    · rw [hsize, Edges.size_union]
    · exact hf.path_union hadd hfits
  · exact ofGraph_fresh hg hl hk

end Draft

namespace Rounds

variable {all changers next : List Pass} {ran left : Nat} {r : Rounds W}

omit [Weight W] in
theorem passesAfter_eq_none : passesAfter all ran changers = none ↔
    changers = [] ∧ ran = all.length := by
  unfold passesAfter
  split
  · split <;> simp_all
  · simp
  · next hne _ => simpa using fun he => absurd he hne

/-- Where rounds stand: at a fresh draft, and later at what the passes of a round made of one,
of which the edges are remembered. -/
structure Standing (all : List Pass) (r : Rounds W) : Prop where
  next : r.next.Sublist all
  first : r.count = 0 → r.draft.Fresh
  later : r.count ≠ 0 → ∃ d : Draft W, d.Fresh ∧ d.Follows r.draft ∧ r.previous = d.graph.edges

/-- Every round starts with a fresh draft. -/
theorem Standing.fresh (hr : r.Standing all) {draft : Draft W} {fresh : Log W}
    (h' : r.start = .ok (draft, fresh)) : draft.Fresh := by
  rcases start_eq_ok h' with ⟨hc, rfl⟩ | ⟨hc, h'⟩
  · exact hr.first hc
  · obtain ⟨d, hd, hf, hp⟩ := hr.later hc
    rw [hp] at h'
    exact hf.refresh hd h'

/-- After a quiet stop, all passes leave the fresh draft of the graph as it is. -/
theorem runTelling_quiet (hr : r.Standing all)
    (h' : runTelling all left r = .ok (h, log, true)) :
    0 < left ∧ ∃ (d : Draft W) (told : Log W), d.Fresh ∧ d.graph = h ∧
      d.runAll all = .ok (d, [], told) := by
  induction left generalizing r with
  | zero => cases h'
  | succ left ih =>
    refine ⟨Nat.succ_pos left, ?_⟩
    unfold runTelling at h'
    obtain ⟨⟨draft, fresh⟩, hstart, hround⟩ := bind_eq_ok.mp h'
    obtain ⟨⟨last, changers, told⟩, hall, hend⟩ := bind_eq_ok.mp hround
    have hdraft := hr.fresh hstart
    dsimp only at hend hall
    split at hend
    · next hnone =>
      obtain ⟨rfl, hlength⟩ := passesAfter_eq_none.mp hnone
      obtain rfl := Draft.runAll_eq_self hdraft.wellFormed hdraft.linksHeld hall
      rw [hr.next.eq_of_length hlength] at hall
      exact ⟨last, told, hdraft, (Prod.mk.inj (pure_eq_ok.mp hend)).1, hall⟩
    · next next hnext =>
      have hc := (Draft.runAll_sublist hall).trans hr.next
      have hstanding : Standing all
          ⟨last, next, draft.graph.edges, r.count + 1, r.log ++ fresh ++ told⟩ := by
        refine ⟨?_, fun hz => absurd hz (Nat.succ_ne_zero r.count), fun _ =>
          ⟨draft, hdraft, hdraft.follows.runAll hall, rfl⟩⟩
        rcases passesAfter_cases hnext with rfl | rfl
        · exact List.Sublist.refl next
        · exact hc
      exact (ih hstanding hend).2

end Rounds

namespace Graph

/-- When refinement stops because a round of all passes changed nothing, refining the graph that
it leaves by the same passes leaves that graph as it is. -/
theorem refine_refined (hg : g.Built) (hl : g.LinksHeld) {passes : Passes}
    (h' : g.refineTelling passes = .ok (h, log, true)) :
    g.refine passes = .ok (h, log) ∧ ∃ again, h.refine passes = .ok (h, again) := by
  have hwf := hg.wellFormed
  have hrefine := refine_eq_ok.mpr ⟨true, h'⟩
  refine ⟨hrefine, ?_⟩
  unfold refineTelling at h'
  dsimp only at h'
  split at h'
  · next hempty =>
    obtain rfl := (Prod.mk.inj (pure_eq_ok.mp h')).1
    exact ⟨log, hrefine⟩
  · next hsome =>
    rw [seq_eq_ok] at h'
    obtain ⟨hcheck, h'⟩ := h'
    obtain ⟨⟨draft, first⟩, hdraft, hrounds⟩ := bind_eq_ok.mp h'
    have hstanding : Rounds.Standing passes.enabled
        ⟨draft, passes.enabled, #[], 0, .closureBuilt :: first⟩ :=
      ⟨List.Sublist.refl _, fun _ => Draft.ofGraph_fresh hwf hl hdraft, fun hz => absurd rfl hz⟩
    obtain ⟨hpos, d, told, hd, rfl, hall⟩ := Rounds.runTelling_quiet hstanding hrounds
    have hs : d.graph.Schedulable := by
      have hout := refine_outcome hwf hl ((checkSchedulable_iff hwf.toOrdered hl).mp hcheck) passes
      rw [hrefine] at hout
      exact hout
    obtain ⟨own, hown⟩ := hd.ofGraph_eq
    obtain ⟨left, hleft⟩ := Nat.exists_eq_succ_of_ne_zero (Nat.ne_of_gt hpos)
    have hagain : d.graph.refineTelling passes =
        .ok (d.graph, (.closureBuilt :: own) ++ [] ++ told, true) := by
      unfold refineTelling
      dsimp only
      rw [if_neg hsome, hs.check hd.wellFormed.toOrdered, hown, hleft]
      simp only [bind, Except.bind, Rounds.runTelling, Rounds.start, if_true, hall,
        Rounds.passesAfter]
      rfl
    exact ⟨_, refine_eq_ok.mpr ⟨true, hagain⟩⟩

section TwoChains

open Numbers

/-- With all passes on, the first round links both of the two chains and the second one changes
nothing, so the linked chains stay as they are. -/
theorem twoChains_refine_refined : ∃ h log again, twoChains.refine .allOn = .ok (h, log) ∧
    ((h.op 0).fwdLink = some 1 ∧ (h.op 2).fwdLink = some 3) ∧
      h.refine .allOn = .ok (h, again) := by
  have hrun : (twoChains.refineTelling .allOn).map
      (fun p => (p.2.2, (p.1.op 0).fwdLink, (p.1.op 2).fwdLink)) =
        .ok (true, some 1, some 3) := by decide +kernel
  cases hq : twoChains.refineTelling .allOn with
  | error e =>
    rw [hq] at hrun
    cases hrun
  | ok p =>
    obtain ⟨h, log, quiet⟩ := p
    rw [hq] at hrun
    obtain ⟨hquiet, hlinks⟩ := Prod.mk.inj (Except.ok.inj hrun)
    dsimp only at hquiet
    subst hquiet
    obtain ⟨hrefine, again, hagain⟩ := refine_refined twoChains_built (by decide) hq
    exact ⟨h, log, again, hrefine, Prod.mk.inj hlinks, hagain⟩

end TwoChains

end Graph

end Liveness
