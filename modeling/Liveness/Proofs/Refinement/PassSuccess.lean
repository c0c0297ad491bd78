import Liveness.Proofs.Graph.Schedulable
import Liveness.Proofs.Graph.TightChains
import Liveness.Proofs.Refinement.Passes
import Liveness.Proofs.Weight.Exact

/-! # Passes over Allocs, links and chains succeed

These passes edit Ops and Allocs that exist, try no constraint of an Op with itself, and
leave a graph that can be scheduled if it could be scheduled before. Only a combined weight
that is not finite can make one of them fail.
-/

namespace Liveness

open Success

variable {W : Type} {g h k : Graph W} {a b r : Nat}

namespace Graph

theorem Refines.schedulable (hr : g.Refines h) (hs : h.Schedulable) : g.Schedulable :=
  hs.imp fun _ => hr.validOrder

variable [Weight W]

section Allocs

theorem Supplied.address_lt (hg : g.Supplied) {alloc : Alloc W} (h : alloc ∈ g.allocs.toList) :
    alloc.address < g.allocCount ∧ g.alloc alloc.address = alloc := by
  obtain ⟨r, hr, rfl⟩ := Array.mem_iff_getElem.mp (Array.mem_toList_iff.mp h)
  have he : g.alloc r = g.allocs[r] := by simp [alloc, Array.getD, hr]
  have ha : g.allocs[r].address = r := he ▸ hg.alloc_address r hr
  rw [ha]
  exact ⟨hr, he⟩

omit [Weight W] in
theorem SameOrder.schedulable (hs : g.SameOrder h) (hg : g.Schedulable) : h.Schedulable := by
  apply Refines.schedulable (h := g) _ hg
  exact ⟨hs.opCount.symm, fun hb => .of_mem (hs.outs _ ▸ hb), fun hb => hs.fwdLink _ ▸ hb⟩

theorem foldlM_releaseAll_succeeds {rs : List Nat} (hr : ∀ r ∈ rs, r < g.allocCount) :
    ∃ h, rs.foldlM releaseAll g = .ok h ∧ h.allocCount = g.allocCount := by
  apply foldlM_succeeds (P := fun k : Graph W => k.allocCount = g.allocCount) rfl
  intro r hm k hk
  have hl := releaseAll_eq_ok.mpr ⟨hk.symm ▸ hr r hm, rfl⟩
  exact ⟨_, hl, (allocCount_releaseAll hl).trans hk⟩

theorem dropWhere_succeeds (hg : g.Supplied) (p : Alloc W → Bool) :
    ∃ result, g.dropWhere p = .ok result := by
  have hr : ∀ r ∈ g.allocsWhere p, r < g.allocCount := by
    intro r hr
    obtain ⟨alloc, hm, rfl⟩ := List.mem_map.mp hr
    exact (hg.address_lt (List.mem_filter.mp hm).1).1
  obtain ⟨h, hh, -⟩ := foldlM_releaseAll_succeeds hr
  unfold dropWhere
  dsimp only
  rw [hh]
  exact ⟨_, rfl⟩

theorem dropInner_succeeds (hg : g.Supplied) (c : Closure) :
    ∃ result, g.dropInner c = .ok result := by
  unfold dropInner
  dsimp only
  generalize hp : (g.allocs.toList.flatMap fun alloc =>
    (innerOps c alloc).map fun a => (a, alloc.address)) = pairs
  have hlt : ∀ p ∈ pairs, p.1 < g.opCount ∧ p.2 < g.allocCount := by
    rw [← hp]
    rintro p hp
    obtain ⟨alloc, hm, hp⟩ := List.mem_flatMap.mp hp
    obtain ⟨a, ha, rfl⟩ := List.mem_map.mp hp
    obtain ⟨hr, he⟩ := hg.address_lt hm
    refine ⟨hg.ops_lt (r := alloc.address) ?_, hr⟩
    rw [he]
    exact (List.mem_filter.mp ha).1
  obtain ⟨h, hh, -⟩ : ∃ h, pairs.foldlM (fun g p => g.release p.1 p.2) g = .ok h ∧
      h.opCount = g.opCount ∧ h.allocCount = g.allocCount := by
    apply foldlM_succeeds
      (P := fun k : Graph W => k.opCount = g.opCount ∧ k.allocCount = g.allocCount) ⟨rfl, rfl⟩
    rintro p hm k ⟨hko, hka⟩
    obtain ⟨ha, hr⟩ := hlt p hm
    exact ⟨_, release_eq_ok.mpr ⟨hko.symm ▸ ha, hka.symm ▸ hr, rfl⟩,
      (opCount_detach k _ _).trans hko, (allocCount_detach k _ _).trans hka⟩
  rw [hh]
  exact ⟨_, rfl⟩

def combinedWeight (g : Graph W) (alloc : Alloc W) : W :=
  (g.twins alloc).foldl (fun w other => w + other.weight) alloc.weight

def Overflow (g : Graph W) (e : Error) : Prop :=
  ∃ alloc ∈ g.leaders, ∃ magnitude, Weight.defect? (g.combinedWeight alloc) = some magnitude ∧
    e = .nonFiniteWeight magnitude

theorem not_overflow [FiniteWeight W] (e : Error) : ¬ g.Overflow e := by
  rintro ⟨alloc, -, magnitude, hd, -⟩
  rw [FiniteWeight.defect?_eq_none] at hd
  cases hd

theorem reweigh_outcome {w : W} (hr : r < g.allocCount) :
    Outcome (fun h : Graph W => h.allocCount = g.allocCount)
      (fun e => ∃ magnitude, Weight.defect? w = some magnitude ∧ e = .nonFiniteWeight magnitude)
      (g.reweigh r w) := by
  unfold reweigh
  rw [checkAlloc_eq_ok.mpr hr]
  simp only [bind, Except.bind]
  split
  · next magnitude hd => exact ⟨magnitude, hd, rfl⟩
  · exact allocCount_modifyAlloc _

theorem combine_outcome (hg : g.Supplied) : Outcome (fun _ => True) g.Overflow g.combine := by
  have hfold : Outcome (fun h : Graph W => h.allocCount = g.allocCount) g.Overflow
      (g.leaders.foldlM (fun h alloc => h.absorb alloc (g.twins alloc)) g) := by
    apply Outcome.foldlM (P := fun k : Graph W => k.allocCount = g.allocCount) rfl
    intro alloc hm k hk
    have hlt : ∀ {p : Alloc W → Bool} {other}, other ∈ g.allocs.toList.filter p →
        other.address < k.allocCount := fun hm =>
      hk.symm ▸ (hg.address_lt (List.mem_filter.mp hm).1).1
    have hr : ∀ r ∈ (g.twins alloc).map Alloc.address, r < k.allocCount := by
      intro r hr
      obtain ⟨other, ho, rfl⟩ := List.mem_map.mp hr
      exact hlt ho
    obtain ⟨l, hl, hc⟩ := foldlM_releaseAll_succeeds hr
    rw [List.foldlM_map] at hl
    unfold absorb
    dsimp only
    rw [hl]
    apply (reweigh_outcome (hc.symm ▸ hlt hm)).mono
    · exact fun h _ hh => (hh.trans hc).trans hk
    · rintro e ⟨magnitude, hd, rfl⟩
      exact ⟨alloc, hm, magnitude, hd, rfl⟩
  unfold combine
  exact hfold.bind fun h _ _ => trivial

theorem combine_succeeds [FiniteWeight W] (hg : g.Supplied) : ∃ result, g.combine = .ok result := by
  obtain ⟨result, hr, -⟩ := (combine_outcome hg).succeeds not_overflow
  exact ⟨result, hr⟩

end Allocs

section Links

/-- Where a link still allows a schedule it can be inserted, and so all such links can. -/
theorem linkWherePossible_succeeds (hg : g.WellFormed) (hl : g.LinksHeld) (hs : g.Schedulable)
    (pairs : List (Nat × Nat)) :
    ∃ h count, g.linkWherePossible pairs = .ok (h, count) ∧ h.Schedulable := by
  have hfold : ∃ state, g.linkWherePossible pairs = .ok state ∧
      state.1.WellFormed ∧ state.1.LinksHeld ∧ state.1.Schedulable := by
    apply foldlM_succeeds (P := fun s : Graph W × Nat =>
      s.1.WellFormed ∧ s.1.LinksHeld ∧ s.1.Schedulable) ⟨hg, hl, hs⟩
    rintro p - ⟨k, n⟩ ⟨hk, hkl, hks⟩
    dsimp only
    split
    · next hc =>
      obtain ⟨k', hk', hsched⟩ := canLink_iff.mp hc
      rw [hk']
      obtain ⟨⟨hu, hv, hne⟩, hf, hb, rfl⟩ := link_eq_ok.mp hk'
      have hj := join_tightens hk hkl hu hv hne hf hb
      refine ⟨_, rfl, hj.wellFormed, hj.linksHeld, ?_⟩
      rw [← checkSchedulable_iff hj.wellFormed.toOrdered hj.linksHeld]
      exact isSchedulable_iff.mp hsched
    · exact ⟨_, rfl, hk, hkl, hks⟩
  obtain ⟨⟨h, count⟩, hh, -, -, hsched⟩ := hfold
  exact ⟨h, count, hh, hsched⟩

end Links

end Graph

namespace Draft

variable [Weight W] {d : Draft W} {p : Nat × Nat}

theorem mem_constraintsFrom (hg : d.graph.Ordered) (ha : a < d.graph.opCount)
    (hp : p ∈ d.constraintsFrom a) :
    p.1 < d.graph.opCount ∧ p.2 < d.graph.opCount ∧ p.1 ≠ p.2 := by
  unfold constraintsFrom at hp
  obtain ⟨b, hb, hp⟩ := List.mem_flatMap.mp (List.mem_ite_nil_left.mp hp).2
  obtain ⟨hb, hne⟩ := List.mem_filter.mp hb
  unfold chainConstraints at hp
  have hp := (List.mem_filter.mp
    (List.mem_ite_nil_right.mp (List.mem_ite_nil_left.mp hp).2).2).1
  obtain ⟨hp₁, hp₂⟩ := List.of_mem_zip hp
  refine ⟨hg.lt_of_mem_tightChain ha hp₁,
    hg.lt_of_mem_tightChain (hg.lt_of_mem_siblings hb) hp₂, ?_⟩
  exact hg.ne_of_mem_zip_tightChains (by simpa using Ne.symm (bne_iff_ne.mp hne)) hp

theorem tryConstrain_succeeds {n : Nat} (hg : g.WellFormed) (hs : g.Schedulable)
    (hp : p.1 < g.opCount ∧ p.2 < g.opCount ∧ p.1 ≠ p.2) :
    ∃ h count, d.tryConstrain (g, n) p = .ok (h, count) ∧ h.WellFormed ∧
      h.opCount = g.opCount ∧ h.Schedulable := by
  obtain ⟨hu, hv, hne⟩ := hp
  have hc := hg.connect hu hv hne
  have hu' : p.1 < (g.connect p.1 p.2).opCount := by simpa using hu
  have hv' : p.2 < (g.connect p.1 p.2).opCount := by simpa using hv
  unfold tryConstrain
  dsimp only
  split
  · exact ⟨g, n, rfl, hg, rfl, hs⟩
  · rw [Graph.constrain_eq_ok.mpr ⟨⟨hu, hv, hne⟩, rfl⟩]
    simp only [bind, Except.bind]
    split
    · next hsched =>
      refine ⟨_, _, rfl, hc, Graph.opCount_connect _ _ _, ?_⟩
      -- the links are those of a graph with a valid order
      obtain ⟨order, ho⟩ := hs
      apply Graph.Schedulable.of_check (f := order.idxOf) _ hc.toOrdered
        (Graph.isSchedulable_iff.mp hsched)
      intro a b hab
      rw [Graph.fwdLink_connect hu hv] at hab
      rw [ho.linked hab]
      exact Nat.lt_succ_self _
    · rw [Graph.unconstrain_eq_ok.mpr ⟨hu', hv', rfl⟩]
      refine ⟨_, _, rfl, hc.disconnect hu' hv', by simp, ?_⟩
      apply Graph.Refines.schedulable (h := g) _ hs
      refine ⟨by simp, fun {a b} hb => .of_mem ?_, fun {a b} hb => ?_⟩
      · obtain ⟨hb, hn⟩ := (Graph.mem_outs_disconnect hc.toOrdered hu' hv').mp hb
        exact ((Graph.mem_outs_connect hu hv).mp hb).resolve_left hn
      · rwa [Graph.fwdLink_disconnect hu' hv', Graph.fwdLink_connect hu hv] at hb

theorem orderParallelChains_succeeds (hg : d.graph.WellFormed) (hs : d.graph.Schedulable) :
    ∃ result, d.orderParallelChains = .ok result ∧ result.graph.Schedulable := by
  unfold orderParallelChains
  dsimp only
  generalize hpairs : Graph.sortPairs _ = pairs
  have hp : ∀ p ∈ pairs, p.1 < d.graph.opCount ∧ p.2 < d.graph.opCount ∧ p.1 ≠ p.2 := by
    rw [← hpairs]
    intro p hp
    obtain ⟨a, ha, hp⟩ := List.mem_flatMap.mp (Graph.mem_sortPairs.mp hp)
    exact mem_constraintsFrom hg.toOrdered (List.mem_range.mp ha) hp
  have hfold : ∃ state, pairs.foldlM d.tryConstrain (d.graph, 0) = .ok state ∧
      state.1.WellFormed ∧ state.1.opCount = d.graph.opCount ∧ state.1.Schedulable := by
    apply foldlM_succeeds (P := fun s : Graph W × Nat =>
      s.1.WellFormed ∧ s.1.opCount = d.graph.opCount ∧ s.1.Schedulable) ⟨hg, rfl, hs⟩
    rintro p hm ⟨k, n⟩ ⟨hk, hc, hks⟩
    obtain ⟨h, count, hh, hwf, hcount, hsched⟩ := d.tryConstrain_succeeds hk hks (hc ▸ hp p hm)
    exact ⟨_, hh, hwf, hcount.trans hc, hsched⟩
  obtain ⟨⟨h, count⟩, hh, -, -, hsched⟩ := hfold
  rw [hh]
  exact ⟨_, rfl, hsched⟩

end Draft

end Liveness
