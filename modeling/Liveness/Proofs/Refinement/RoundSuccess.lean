import Liveness.Proofs.Closure.Update
import Liveness.Proofs.Refinement.Rounds
import Liveness.Proofs.Refinement.SlideSuccess

/-! # Refinement succeeds

The constraints that passes add to a graph that can be scheduled close no cycle with those
that the closure knows of, since all of them hold in every valid order. So every fresh closure
succeeds, every pass does unless a combined weight is not finite, and the refined graph can be
scheduled.
-/

namespace Liveness

open Success

variable {W : Type} [Weight W] {g h : Graph W} {d d' : Draft W} {cl : Closure}

namespace Graph

omit [Weight W] in
theorem Acyclic.edges (ha : g.Acyclic) : g.edges.Acyclic := by
  obtain ⟨f, hf⟩ := ha
  apply Edges.Acyclic.of_rank (f := f)
  intro a b hb
  exact hf (outs_edges g a ▸ hb)

omit [Weight W] in
theorem Schedulable.acyclic (hg : g.Ordered) (hs : g.Schedulable) : g.Acyclic :=
  acyclic_of_checkSchedulable hg (hs.check hg)

omit [Weight W] in
theorem exists_closure (hg : g.Ordered) (ha : g.Acyclic) :
    ∃ c, Closure.ofEdges g.edges = .ok c ∧ c.Within g.Path := by
  obtain ⟨c, hc, -⟩ := (Closure.ofEdges_eq hg.edges_inRange).1 ha.edges
  refine ⟨c, hc, Closure.ofEdges_within (fun a b c => .trans) (fun a b hb => ?_) hc⟩
  exact .of_mem (outs_edges g a ▸ hb)

end Graph

namespace Draft

/-- A sound draft of a graph that can be scheduled. Its closure is that of edges between
the Ops. -/
structure Viable (g : Graph W) (d : Draft W) : Prop extends d.Sound g where
  schedulable : d.graph.Schedulable
  closed : ∃ edges, Closure.ofEdges edges = .ok d.closure ∧ edges.size = d.graph.opCount

theorem dropImplied_succeeds (hg : g.WellFormed) (cl : Closure) :
    ∃ h, g.dropImplied (cl.impliedPairs g.edges) = .ok h ∧ h.opCount = g.opCount := by
  apply foldlM_succeeds (P := fun k : Graph W => k.opCount = g.opCount) rfl
  rintro ⟨a, b⟩ hp k hk
  have hb := (Closure.mem_impliedPairs hp).1
  rw [Graph.outs_edges] at hb
  dsimp only
  split
  · exact ⟨k, rfl, hk⟩
  · exact ⟨_, Graph.unconstrain_eq_ok.mpr
      ⟨hk.symm ▸ Graph.lt_of_mem_outs hb, hk.symm ▸ hg.outs_lt hb, rfl⟩, by simpa using hk⟩

theorem settle_succeeds (hg : g.WellFormed) (cl : Closure) :
    ∃ d log, settle g cl = .ok (d, log) := by
  obtain ⟨h, hh, -⟩ := dropImplied_succeeds hg cl
  unfold settle
  dsimp only
  rw [hh]
  exact ⟨_, _, rfl⟩

theorem settle_viable (hg : g.WellFormed) (hl : g.LinksHeld) (ha : g.Acyclic)
    (hs : g.Schedulable) (hc : cl.Within g.Path)
    (he : ∃ edges, Closure.ofEdges edges = .ok cl ∧ edges.size = g.opCount) :
    ∃ d log, settle g cl = .ok (d, log) ∧ d.Viable g := by
  obtain ⟨h, hh, hcount⟩ := dropImplied_succeeds hg cl
  obtain ⟨-, -, hlink, hmem⟩ := Graph.dropImplied_spec hg hh
  have hsched : h.Schedulable := Graph.Refines.schedulable (h := g)
    ⟨hcount.symm, fun hb => .of_mem (hmem.mp hb).1, fun hb => (hlink _).symm.trans hb⟩ hs
  have hsettle : settle g cl = .ok (⟨h, cl, Bounds.ofGraph h cl⟩,
      [.impliedRemoved (cl.impliedPairs g.edges).length]) := by
    unfold settle
    dsimp only
    rw [hh]
    rfl
  obtain ⟨edges, hedges, hsize⟩ := he
  exact ⟨_, _, hsettle, settle_sound hg hl ha hc hsettle, hsched, edges, hedges,
    hsize.trans hcount.symm⟩

theorem ofGraph_eq_settle (hc : Closure.ofEdges g.edges = .ok cl) : ofGraph g = settle g cl := by
  unfold ofGraph
  rw [hc]
  rfl

theorem ofGraph_viable (hg : g.WellFormed) (hl : g.LinksHeld) (hs : g.Schedulable) :
    ∃ d log, Draft.ofGraph g = .ok (d, log) ∧ d.Viable g := by
  have ha := hs.acyclic hg.toOrdered
  obtain ⟨cl, hc, hw⟩ := Graph.exists_closure hg.toOrdered ha
  obtain ⟨d, log, hd, hv⟩ := settle_viable hg hl ha hs hw ⟨g.edges, hc, g.size_edges⟩
  exact ⟨d, log, (ofGraph_eq_settle hc).trans hd, hv⟩

theorem Viable.tightened (hd : d'.Viable d.graph) (hs : d.Sound g) : d'.Viable g :=
  ⟨⟨hs.tightens.trans hd.tightens, hd.acyclic, hd.within⟩, hd.schedulable, hd.closed⟩

omit [Weight W] in
theorem newEdges_fitsIn (hg : g.Ordered) {previous added : Edges}
    (hn : g.newEdges previous = .ok added) : added.FitsIn g.opCount := by
  refine ⟨fun a b hb => hg.outs_lt (mem_newEdges hn hb), ?_⟩
  unfold Graph.newEdges at hn
  split at hn
  · cases hn
  · obtain rfl := Except.ok.inj hn
    rw [Array.size_mapIdx, Graph.size_edges]

theorem Viable.update (hd : d.Viable g) {previous added : Edges}
    (hn : d.graph.newEdges previous = .ok added) :
    ∃ d' log, d.update added = .ok (d', log) ∧ d'.Viable g := by
  have hg := hd.tightens.wellFormed
  obtain ⟨edges, hedges, hsize⟩ := hd.closed
  obtain ⟨-, ha, he⟩ := Closure.ofEdges_eq_ok.mp hedges
  have hfits : added.FitsIn edges.size := hsize ▸ newEdges_fitsIn hg.toOrdered hn
  -- the edges taken up before and the new ones all go up in the rank of the constraints
  have hunion : (edges.union added).Acyclic := by
    obtain ⟨f, hf⟩ := hd.acyclic
    apply Edges.Acyclic.of_rank (f := f)
    intro a b hb
    rcases (Edges.mem_outs_union hfits).mp hb with hb | hb
    · exact (hd.within (he.precedes_iff.mpr (.of_mem hb))).rank_lt hf
    · exact hf (mem_newEdges hn hb)
  obtain ⟨cl, hcl, -⟩ := (he.updated ha hfits).1 hunion
  have hw : cl.Within d.graph.Path :=
    hd.within.updated (fun a b c => .trans) (fun a b hb => .of_mem (mem_newEdges hn hb)) hcl
  have hclosed := ((Closure.updated_eq_ok hedges).mp hcl).2
  obtain ⟨d', log, hd', hv⟩ := settle_viable hg hd.tightens.linksHeld hd.acyclic hd.schedulable hw
    ⟨_, hclosed, (Edges.size_union edges added).trans hsize⟩
  unfold Draft.update
  rw [hcl]
  exact ⟨d', log, hd', hv.tightened hd.toSound⟩

theorem refresh_viable (hd : d.Viable g) {previous : Edges} (hp : previous.size = g.opCount)
    (round : Nat) : ∃ d' log, d.refresh previous round = .ok (d', log) ∧ d'.Viable g := by
  obtain ⟨added, hadded⟩ : ∃ added, d.graph.newEdges previous = .ok added := by
    unfold Graph.newEdges
    rw [if_neg (not_not_intro (hp.trans hd.tightens.opCount.symm))]
    exact ⟨_, rfl⟩
  unfold refresh
  rw [hadded]
  simp only [bind, Except.bind]
  split
  · obtain ⟨d', log, hd', hv⟩ := hd.update hadded
    rw [hd']
    exact ⟨_, _, rfl, hv⟩
  · obtain ⟨d', log, hd', hv⟩ :=
      ofGraph_viable hd.tightens.wellFormed hd.tightens.linksHeld hd.schedulable
    unfold rebuild
    rw [hd']
    exact ⟨_, _, rfl, hv.tightened hd.toSound⟩

inductive Reached (g : Graph W) (all : List Pass) : Draft W → Prop where
  | first {d : Draft W} {log : Log W} : ofGraph g = .ok (d, log) → Reached g all d
  | pass {d : Draft W} {pass : Pass} {result : Refined W} : Reached g all d → pass ∈ all →
      d.runChecked pass = .ok result → Reached g all { d with graph := result.graph }
  | refresh {d d' : Draft W} {previous : Edges} {round : Nat} {log : Log W} : Reached g all d →
      d.refresh previous round = .ok (d', log) → Reached g all d'

/-- The error when Allocs of a draft that comes up have a combined weight that is not finite. -/
def OverflowIn (g : Graph W) (all : List Pass) (e : Error) : Prop :=
  .combine ∈ all ∧ ∃ d : Draft W, d.Reached g all ∧ d.graph.Overflow e

section Passes

/-- Every pass succeeds, and leaves a graph that can be scheduled, unless it takes Allocs
together. -/
theorem run_outcome (hd : d.Viable g) (pass : Pass) :
    Outcome (fun result => result.graph.Schedulable)
      (fun e => pass = .combine ∧ d.graph.Overflow e) (d.run pass) := by
  have hg := hd.tightens.wellFormed
  have hl := hd.tightens.linksHeld
  have hs := hd.schedulable
  have halloc : ∀ {found : Except Error (Refined W)} {E : Error → Prop},
      (∃ result, found = .ok result) →
      (∀ {result}, found = .ok result → d.graph.Reallocates result.graph) →
      Outcome (fun result => result.graph.Schedulable) E found := by
    rintro found E ⟨result, hr⟩ hk
    exact .of_succeeds ⟨result, hr, (hk hr).toSameOrder.schedulable hs⟩
  cases pass with
  | slideLinks => exact .of_succeeds (Graph.slideLinks_succeeds hg hl hs)
  | linkTightDrops =>
    obtain ⟨h, count, hh, hsched⟩ := Graph.linkWherePossible_succeeds hg hl hs d.tightDrops
    simp only [run, linkTightDrops, hh]
    exact hsched
  | linkClosePairs =>
    obtain ⟨h, count, hh, hsched⟩ := Graph.linkWherePossible_succeeds hg hl hs d.closePairs
    simp only [run, linkClosePairs, hh]
    exact hsched
  | orderParallelChains => exact .of_succeeds (orderParallelChains_succeeds hg hs)
  | dropWeightless =>
    exact halloc (Graph.dropWhere_succeeds hg.toSupplied _) (Graph.dropWhere_reallocates hg)
  | dropSolitary =>
    exact halloc (Graph.dropWhere_succeeds hg.toSupplied _) (Graph.dropWhere_reallocates hg)
  | dropInner =>
    exact halloc (Graph.dropInner_succeeds hg.toSupplied _) (Graph.dropInner_reallocates hg)
  | dropFixed =>
    exact halloc (Graph.dropWhere_succeeds hg.toSupplied _) (Graph.dropWhere_reallocates hg)
  | combine =>
    apply (Graph.combine_outcome hg.toSupplied).mono
    · exact fun result hr _ => (Graph.combine_reallocates hg hr).toSameOrder.schedulable hs
    · exact fun e he => ⟨rfl, he⟩

theorem runChecked_outcome (hd : d.Viable g) (pass : Pass) :
    Outcome (fun result => ({ d with graph := result.graph } : Draft W).Viable g)
      (fun e => pass = .combine ∧ d.graph.Overflow e) (d.runChecked pass) := by
  rcases (run_outcome hd pass).cases with ⟨found, hf, hs⟩ | ⟨e, hf, he⟩
  · obtain ⟨ht, -⟩ := run_tightens hd.toSound hf
    obtain ⟨result, hr, hgraph⟩ : ∃ result, d.runChecked pass = .ok result ∧
        result.graph = found.graph := by
      unfold runChecked
      rw [hf]
      simp only [bind, Except.bind, hs.check ht.wellFormed.toOrdered]
      split
      · exact ⟨_, rfl, rfl⟩
      · exact ⟨_, rfl, rfl⟩
    refine .of_succeeds ⟨result, hr, runChecked_sound hd.toSound hr, hgraph ▸ hs, ?_⟩
    obtain ⟨edges, hedges, hsize⟩ := hd.closed
    exact ⟨edges, hedges, hsize.trans (hgraph ▸ ht.opCount).symm⟩
  · unfold runChecked
    rw [hf]
    exact he

theorem runAll_outcome {all passes : List Pass} (hd : d.Viable g) (hr : d.Reached g all)
    (hp : passes ⊆ all) :
    Outcome (fun r => (r.1.Viable g ∧ r.1.Reached g all) ∧ r.2.1 ⊆ all) (OverflowIn g all)
      (d.runAll passes) := by
  induction passes generalizing d with
  | nil => exact ⟨⟨hd, hr⟩, List.nil_subset all⟩
  | cons pass passes ih =>
    obtain ⟨hm, hp⟩ := List.cons_subset.mp hp
    unfold runAll
    apply ((runChecked_outcome hd pass).mono (fun _ _ => id) _).bind
    · intro result hresult hv
      apply (ih hv (hr.pass hm hresult) hp).bind
      rintro ⟨last, changers, log⟩ - ⟨hlast, hc⟩
      refine ⟨hlast, ?_⟩
      split
      · exact List.cons_subset.mpr ⟨hm, hc⟩
      · exact hc
    · rintro e ⟨rfl, he⟩
      exact ⟨hm, d, hr, he⟩

end Passes

end Draft

open Draft (OverflowIn)

theorem Rounds.passesAfter_cases {all changers next : List Pass} {ran : Nat}
    (h : passesAfter all ran changers = some next) : next = all ∨ next = changers := by
  unfold passesAfter at h
  split at h
  · split at h
    · cases h
    · exact .inl (Option.some.inj h).symm
  · exact .inl (Option.some.inj h).symm
  · exact .inr (Option.some.inj h).symm

theorem Rounds.passesAfter_subset {all changers next : List Pass} {ran : Nat}
    (hc : changers ⊆ all) (h : passesAfter all ran changers = some next) : next ⊆ all := by
  rcases passesAfter_cases h with rfl | rfl
  · exact List.Subset.refl next
  · exact hc

theorem Rounds.continue_outcome {all : List Pass} {left : Nat} {r : Rounds W} {draft : Draft W}
    (hd : draft.Viable g) (hr : draft.Reached g all) (hn : r.next ⊆ all) (log : Log W)
    (hleft : ∀ {r : Rounds W}, r.draft.Viable g → r.draft.Reached g all → r.next ⊆ all →
      r.previous.size = g.opCount →
        Outcome (fun p => p.1.Schedulable) (OverflowIn g all) (runTelling all left r)) :
    Outcome (fun p => p.1.Schedulable) (OverflowIn g all)
      (draft.runAll r.next >>= fun (last, changers, told) =>
        let log := log ++ told
        match passesAfter all r.next.length changers with
        | none => pure (last.graph, log, true)
        | some next =>
          runTelling all left ⟨last, next, draft.graph.edges, r.count + 1, log⟩) := by
  apply (Draft.runAll_outcome hd hr hn).bind
  rintro ⟨last, changers, told⟩ - ⟨⟨hv, hlast⟩, hc⟩
  dsimp only
  split
  · exact hv.schedulable
  · next next hnext =>
    exact hleft hv hlast (passesAfter_subset hc hnext)
      (draft.graph.size_edges.trans hd.tightens.opCount)

theorem Rounds.runTelling_outcome {all : List Pass} (left : Nat) {r : Rounds W} (hd : r.draft.Viable g)
    (hr : r.draft.Reached g all) (hn : r.next ⊆ all)
    (hp : r.count ≠ 0 → r.previous.size = g.opCount) :
    Outcome (fun p => p.1.Schedulable) (OverflowIn g all) (runTelling all left r) := by
  induction left generalizing r with
  | zero => exact hd.schedulable
  | succ left ih =>
    unfold runTelling start
    split
    · exact continue_outcome hd hr hn _ fun hd hr hn hp => ih hd hr hn fun _ => hp
    · next hc =>
      obtain ⟨draft, fresh, hfresh, hv⟩ := Draft.refresh_viable hd (hp hc) r.count
      have hreach := hr.refresh hfresh
      rw [hfresh]
      exact continue_outcome hv hreach hn _ fun hd hr hn hp => ih hd hr hn fun _ => hp

/-- A graph that can be scheduled can be refined, and then still be scheduled, unless the
combined weight of some Allocs is not finite. -/
theorem Graph.refine_outcome (hg : g.WellFormed) (hl : g.LinksHeld) (hs : g.Schedulable)
    (passes : Passes) : Outcome (fun p => p.1.Schedulable) (OverflowIn g passes.enabled)
      (g.refine passes) := by
  refine Outcome.map ?_
  unfold refineTelling
  dsimp only
  split
  · exact hs
  · obtain ⟨d, log, hd, hv⟩ := Draft.ofGraph_viable hg hl hs
    have hr : d.Reached g passes.enabled := .first hd
    rw [hs.check hg.toOrdered]
    simp only [bind, Except.bind, hd]
    exact Rounds.runTelling_outcome _ hv hr (List.Subset.refl _) fun h => absurd rfl h

variable [FiniteWeight W]

theorem Graph.refine_succeeds (hg : g.WellFormed) (hl : g.LinksHeld) (hs : g.Schedulable)
    (passes : Passes) : ∃ h log, g.refine passes = .ok (h, log) ∧ h.Schedulable := by
  have hno : ∀ e, ¬ OverflowIn g passes.enabled e := by
    rintro e ⟨-, d, -, he⟩
    exact not_overflow e he
  obtain ⟨⟨h, log⟩, hh, hsched⟩ := (refine_outcome hg hl hs passes).succeeds hno
  exact ⟨h, log, hh, hsched⟩

/-- Refinement only fails on a graph that cannot be scheduled, and it names a cycle. -/
theorem Graph.kind_of_refine (hg : g.WellFormed) (hl : g.LinksHeld) {passes : Passes} {e : Error}
    (h : g.refine passes = .error e) : e.kind = .cycle := by
  by_cases hs : g.Schedulable
  · obtain ⟨h', log, hh, -⟩ := refine_succeeds hg hl hs passes
    cases hh.symm.trans h
  · unfold refine refineTelling at h
    dsimp only at h
    split at h
    · cases h
    · cases hc : g.checkSchedulable with
      | ok => exact absurd ((checkSchedulable_iff hg.toOrdered hl).mp hc) hs
      | error e' =>
        rw [hc] at h
        obtain rfl := Except.error.inj h
        exact kind_of_checkSchedulable hg.toOrdered hc

end Liveness
