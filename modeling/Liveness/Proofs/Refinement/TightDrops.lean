import Liveness.Proofs.Refinement.ChangeBounds
import Liveness.Proofs.Graph.Repeated
import Liveness.Proofs.Graph.TightChains

/-! # Linking tight drops

The Ops that an order has between the two Ops of a tight pair can come on either side of both.
So the first Op can move forward to the second one, or the second one back to the first. Where the
second Op raises the liveness by no more than the first one, both moves together cost at most as
much as not to move twice, whatever Allocs the Ops share. So one of the moves does not raise the
cost.
-/

namespace Liveness

open Success

variable {W : Type} [Weight W] {g : Graph W} {c : Closure} {edges : Edges} {a b : Nat}
  {l r u v mid ops order : List Nat} {done : Finset Nat}

namespace Edges

theorem Topological.exchange (h : edges.Topological (l ++ u ++ v ++ r)) (hr : edges.InRange)
    (hfree : ∀ x ∈ u, ∀ y ∈ v, y ∉ edges.outs x) : edges.Topological (l ++ v ++ u ++ r) := by
  have hi : ∀ a, a ∉ edges.outs a := fun a ha => h.acyclic a (.of_mem ha)
  have hperm : (l ++ v ++ u ++ r).Perm (l ++ u ++ v ++ r) := by
    simp only [List.append_assoc]
    exact (List.perm_append_comm_assoc v u r).append_left l
  apply topological_of_forward hi hr (hperm.trans h.perm)
  have hf := h.forward
  simp only [List.pairwise_append, List.mem_append] at hf ⊢
  obtain ⟨⟨⟨hl, hu, hlu⟩, hv, hluv⟩, hr, hall⟩ := hf
  refine ⟨⟨⟨hl, hv, fun x hx => hluv x (.inl hx)⟩, hu, ?_⟩, hr, fun x hx => hall x (by tauto)⟩
  rintro x (hx | hx) y hy
  · exact hlu x hx y hy
  · exact hfree y hy x hx

theorem Topological.split (h : edges.Topological order) (hr : edges.InRange)
    (hab : b ∈ edges.outs a) : ∃ l mid r, order = l ++ (a :: mid ++ [b]) ++ r := by
  have hm : ∀ {x}, x < edges.size → x ∈ order := fun hx =>
    h.perm.mem_iff.mpr (List.mem_range.mpr hx)
  have hf := h.forward
  obtain ⟨l, rest, rfl⟩ := List.append_of_mem (hm (lt_of_mem_outs hab))
  rcases List.mem_append.mp (hm (hr hab)) with hb | hb
  · exact absurd hab ((List.pairwise_append.mp hf).2.2 b hb a List.mem_cons_self)
  · rcases List.mem_cons.mp hb with rfl | hb
    · exact absurd (.of_mem hab) (h.acyclic b)
    · obtain ⟨mid, r, rfl⟩ := List.append_of_mem hb
      exact ⟨l, mid, r, by simp⟩

end Edges

namespace Graph

omit [Weight W] in
theorem Unlinked.validOrder_iff (hn : g.Unlinked) :
    g.ValidOrder order ↔ g.edges.Topological order := by
  constructor
  · intro ho
    refine ⟨g.size_edges ▸ ho.perm, fun hb => ho.before ?_⟩
    rwa [outs_edges] at hb
  · intro ho
    refine ⟨g.size_edges ▸ ho.perm, fun hb => ho.before ?_, fun hb => ?_⟩
    · rwa [outs_edges]
    · rw [hn] at hb
      cases hb

omit [Weight W] in
theorem ValidOrder.exchange (ho : g.ValidOrder (l ++ u ++ v ++ r)) (hg : g.Ordered)
    (hn : g.Unlinked) (hfree : ∀ x ∈ u, ∀ y ∈ v, y ∉ (g.op x).outs) :
    g.ValidOrder (l ++ v ++ u ++ r) :=
  hn.validOrder_iff.mpr ((hn.validOrder_iff.mp ho).exchange hg.edges_inRange fun x hx y hy => by
    rw [outs_edges]
    exact hfree x hx y hy)

omit [Weight W] in
theorem Opening.insert_both (ha : g.Opening (insert a done)) (hb : g.Opening (insert b done)) :
    g.Opening (insert a (insert b done)) := by
  intro x y h hy
  rcases Finset.mem_insert.mp hy with rfl | hy
  · have := ha h (Finset.mem_insert_self y done)
    grind
  · exact Finset.mem_insert_of_mem (hb h hy)

def Opens (g : Graph W) (done : Finset Nat) (ops : List Nat) : Prop :=
  ∀ k, g.Opening (done ∪ (ops.take k).toFinset)

omit [Weight W] in
theorem Opens.opening (h : g.Opens done ops) : g.Opening done := by
  simpa using h 0

omit [Weight W] in
theorem Opens.tail (h : g.Opens done (a :: ops)) : g.Opens (insert a done) ops := fun k => by
  have := h (k + 1)
  rwa [List.take_succ_cons, List.toFinset_cons, Finset.union_insert, ← Finset.insert_union] at this

omit [Weight W] in
theorem opens_cons (ho : g.Opening done) (h : g.Opens (insert a done) ops) :
    g.Opens done (a :: ops) := by
  intro k
  cases k with
  | zero => simpa using ho
  | succ k =>
    rw [List.take_succ_cons, List.toFinset_cons, Finset.union_insert, ← Finset.insert_union]
    exact h k

omit [Weight W] in
theorem ValidOrder.opens (ho : g.ValidOrder (l ++ mid ++ r)) : g.Opens l.toFinset mid := by
  intro k
  have hopen := ho.opening (l.length + min k mid.length)
  rwa [firstOps_idxOf ho.perm, List.append_assoc, List.take_length_add_append,
    List.take_append_of_le_length (Nat.min_le_right _ _), ← List.take_eq_take_min,
    List.toFinset_append] at hopen

variable [ExactWeight W]

theorem totalLiveness_append (hs : g.Supplied) (hp : (l ++ mid ++ r).Perm (List.range g.opCount)) :
    g.totalLiveness (l ++ mid ++ r).idxOf = g.usedWeight + (g.carriedAlong ∅ l +
      g.carriedAlong l.toFinset mid + g.carriedAlong (l.toFinset ∪ mid.toFinset) r) := by
  rw [totalLiveness_eq_carriedAlong hs hp, carriedAlong_append, carriedAlong_append,
    List.toFinset_append, Finset.empty_union, Finset.empty_union]

namespace BoundedBy

variable {lower upper : Nat → W} (hb : g.BoundedBy lower upper) (hle : upper b ≤ lower a)
  (ha : a < g.opCount) (hlt : b < g.opCount)

include hb hle ha hlt

/-- After an Op that can come on either side of the pair, the first of the two raises what is
carried by at least as much as the second one does before this Op. -/
theorem carried_pair_le {m : Nat} (hab : a ≠ b) (hma : m ≠ a) (hna : a ∉ done) (hnb : b ∉ done)
    (hoa : g.Opening (insert a done)) (hob : g.Opening (insert b (insert a done)))
    (hom : g.Opening (insert m done)) :
    g.carried (insert b (insert a done)) + g.carried (insert m done) ≤
      g.carried (insert a done) + g.carried (insert a (insert m done)) := by
  have hnb : b ∉ insert a done := by simp [hab.symm, hnb]
  have hna : a ∉ insert m done := by simp [hma.symm, hna]
  have hsecond := (hb hoa hob hnb hlt).2
  have hfirst := (hb hom (hoa.insert_both hom) hna ha).1
  rw [carried_insert hnb, carried_insert hna]
  calc g.carried (insert a done) + g.change (insert a done) b + g.carried (insert m done)
      ≤ g.carried (insert a done) + g.change (insert m done) a + g.carried (insert m done) := by
        gcongr
        exact hsecond.trans (hle.trans hfirst)
    _ = g.carried (insert a done) + (g.carried (insert m done) + g.change (insert m done) a) := by
        abel

/-- Moving the first Op behind the Ops between the pair and moving the second one ahead of them
together carry no more than not to move twice. -/
theorem carriedAlong_moves (hn : (a :: b :: mid).Nodup) (hna : a ∉ done) (hnb : b ∉ done)
    (hpull : g.Opens done (a :: b :: mid)) (hmid : g.Opens done mid) :
    g.carriedAlong done (mid ++ [a, b]) + g.carriedAlong done (a :: b :: mid) ≤
      2 • g.carriedAlong done (a :: mid ++ [b]) := by
  induction mid generalizing done with
  | nil => exact (two_nsmul _).ge
  | cons m mid ih =>
    simp only [List.nodup_cons, List.mem_cons, not_or] at hn ih
    obtain ⟨⟨hab, ham, hamid⟩, ⟨hbm, hbmid⟩, -, hmid'⟩ := hn
    have hoa := hpull.tail.opening
    have hom := hmid.tail.opening
    have hcomm : insert m (insert b (insert a done)) = insert b (insert a (insert m done)) := by
      rw [Finset.insert_comm m b, Finset.insert_comm m a]
    have hrest := ih ⟨⟨hab, hamid⟩, hbmid, hmid'⟩ (by simp [ham, hna]) (by simp [hbm, hnb])
      (opens_cons hom (opens_cons (hoa.insert_both hom) (hcomm ▸ hpull.tail.tail.tail))) hmid.tail
    have hpair := hb.carried_pair_le hle ha hlt hab (Ne.symm ham) hna hnb hoa
      hpull.tail.tail.opening hom
    -- the two sides grow by what is carried past the first places, which `hpair` compares
    simp only [carriedAlong, List.cons_append, Finset.insert_comm a m, hcomm] at hrest hpair ⊢
    grind

end BoundedBy

section Between

variable (ho : g.ValidOrder (l ++ (a :: mid ++ [b]) ++ r)) (hn : g.Unlinked)
  (ht : g.tightNext a = some b)

include ho hn ht

omit [Weight W] [ExactWeight W] in
theorem ValidOrder.push (hg : g.Ordered) : g.ValidOrder (l ++ (mid ++ [a, b]) ++ r) := by
  have hnodup := ho.perm.nodup_iff.mpr List.nodup_range
  have ho' : g.ValidOrder (l ++ [a] ++ mid ++ (b :: r)) := by simpa using ho
  have := ho'.exchange hg hn fun x hx y hy h => by
    rw [List.mem_singleton.mp hx, (tightNext_eq_some.mp ht).1, List.mem_singleton] at h
    grind
  simpa using this

omit [Weight W] [ExactWeight W] in
theorem ValidOrder.pull (hg : g.Ordered) : g.ValidOrder (l ++ (a :: b :: mid) ++ r) := by
  have hnodup := ho.perm.nodup_iff.mpr List.nodup_range
  have ho' : g.ValidOrder ((l ++ [a]) ++ mid ++ [b] ++ r) := by simpa using ho
  have := ho'.exchange hg hn fun x hx y hy h => by
    rw [List.mem_singleton.mp hy, ← hg.mem_ins, hg.ins_of_tightNext ht, List.mem_singleton] at h
    grind
  simpa using this

theorem BoundedBy.totalLiveness_moves {lower upper : Nat → W} (hb : g.BoundedBy lower upper)
    (hg : g.WellFormed) (hle : upper b ≤ lower a) :
    g.totalLiveness (l ++ (mid ++ [a, b]) ++ r).idxOf +
        g.totalLiveness (l ++ (a :: b :: mid) ++ r).idxOf ≤
      2 • g.totalLiveness (l ++ (a :: mid ++ [b]) ++ r).idxOf := by
  have hpush := ho.push hn ht hg.toOrdered
  have hpull := ho.pull hn ht hg.toOrdered
  have hout := mem_outs_of_tightNext ht
  have hnodup := hpull.perm.nodup_iff.mpr List.nodup_range
  obtain ⟨-, hpair, hdisj⟩ := List.nodup_append.mp (List.nodup_append.mp hnodup).1
  have hnot : ∀ x ∈ a :: b :: mid, x ∉ l.toFinset := fun x hx hl =>
    hdisj x (List.mem_toFinset.mp hl) x hx rfl
  have hmid : g.ValidOrder (l ++ mid ++ ([a, b] ++ r)) := by simpa using hpush
  have hmoves := hb.carriedAlong_moves hle (lt_of_mem_outs hout) (hg.outs_lt hout) hpair
    (hnot a (by simp)) (hnot b (by simp)) hpull.opens hmid.opens
  have hafter : (mid ++ [a, b]).toFinset = (a :: mid ++ [b]).toFinset := by
    ext
    simp
  have hafter' : (a :: b :: mid).toFinset = (a :: mid ++ [b]).toFinset := by
    ext
    simp
  rw [totalLiveness_append hg.toSupplied hpush.perm, totalLiveness_append hg.toSupplied hpull.perm,
    totalLiveness_append hg.toSupplied ho.perm, hafter, hafter']
  -- what comes before and after costs the same in all three orders
  grind

end Between

/-- The Ops of a tight drop can be brought together without a rise of the cost, by a move of the
first one or of the second one. -/
theorem BoundedBy.exists_adjacent {lower upper : Nat → W} (hb : g.BoundedBy lower upper)
    (hg : g.WellFormed) (hn : g.Unlinked) (ht : g.tightNext a = some b) (hle : upper b ≤ lower a)
    (ho : g.ValidOrder order) : ∃ next, g.ValidOrder next ∧ next.idxOf b = next.idxOf a + 1 ∧
      g.totalLiveness next.idxOf ≤ g.totalLiveness order.idxOf := by
  have hmem : b ∈ g.edges.outs a := by
    rw [outs_edges]
    exact mem_outs_of_tightNext ht
  obtain ⟨l, mid, r, rfl⟩ := (hn.validOrder_iff.mp ho).split hg.toOrdered.edges_inRange hmem
  have hpush := ho.push hn ht hg.toOrdered
  have hpull := ho.pull hn ht hg.toOrdered
  have hboth := hb.totalLiveness_moves ho hn ht hg hle
  have hadj : ∀ {next}, g.ValidOrder next → [a, b] <:+: next → next.idxOf b = next.idxOf a + 1 :=
    fun hnext => idxOf_of_adjacent (hnext.perm.nodup_iff.mpr List.nodup_range)
  -- one of two costs with this sum is not above the cost before
  rcases le_total (g.totalLiveness (l ++ (mid ++ [a, b]) ++ r).idxOf)
    (g.totalLiveness (l ++ (a :: mid ++ [b]) ++ r).idxOf) with h | h
  · exact ⟨_, hpush, hadj hpush ⟨l ++ mid, r, by simp⟩, h⟩
  · rw [two_nsmul] at hboth
    exact ⟨_, hpull, hadj hpull ⟨l, mid ++ r, by simp⟩,
      le_of_add_le_add_left (hboth.trans (add_le_add_left h _))⟩

end Graph

namespace Draft

variable {d : Draft W}

/-- Tight pairs stay, as nothing else implies their constraint. -/
theorem Settled.tightNext (hs : d.Settled g c) (hd : d.Sound g) (hg : g.Ordered)
    (ht : g.tightNext a = some b) : d.graph.tightNext a = some b := by
  have houts := (Graph.tightNext_eq_some.mp ht).1
  have hout : ∀ {x}, x ∈ (d.graph.op a).outs → x = b := fun hx => by
    simpa [houts] using hs.outs hx
  have hkept : b ∈ (d.graph.op a).outs := by
    obtain ⟨x, hx, -⟩ := Relation.TransGen.head'_iff.mp
      (hd.tightens.path (Graph.mem_outs_of_tightNext ht))
    exact hout hx ▸ hx
  have hin : ∀ {x}, x ∈ (d.graph.op b).ins ↔ x = a := by
    intro x
    rw [hs.wellFormed.mem_ins]
    constructor
    · intro hx
      simpa [hg.ins_of_tightNext ht] using hg.mem_ins.mpr (hs.outs hx)
    · rintro rfl
      exact hkept
  refine Graph.tightNext_eq_some.mpr ⟨?_, ?_⟩
  · exact Ascending.eq_of_mem_iff (hs.wellFormed.outs_sorted a) (List.pairwise_singleton _ b) fun x =>
      ⟨fun hx => List.mem_singleton.mpr (hout hx), fun hx => List.mem_singleton.mp hx ▸ hkept⟩
  · rw [Ascending.eq_of_mem_iff (hs.wellFormed.ins_sorted b) (List.pairwise_singleton _ a) fun x =>
      hin.trans List.mem_singleton.symm]
    rfl

variable [ExactWeight W]

/-- A graph without links and without a cycle has a closure that only knows of paths, and with
every such closure it settles and keeps its tight pairs. Where the second Op of a tight pair has
its upper bound at most at the lower bound of the first, every valid order can be turned into one
that has the two Ops side by side, at no higher cost. -/
theorem settle_tightDrops (hg : g.Built) (hn : g.Unlinked) (ha : g.edges.Acyclic) :
    (∃ c, Closure.ofEdges g.edges = .ok c ∧ c.Within g.Path) ∧
    ∀ c : Closure, c.Within g.Path → ∃ d log, settle g c = .ok (d, log) ∧
      (∀ a b, (a, b) ∈ g.tightPairs → (a, b) ∈ d.graph.tightPairs) ∧
      ∀ a b, (a, b) ∈ d.graph.tightPairs → d.upper b ≤ d.lower a →
        ∀ order, g.ValidOrder order → ∃ next, g.ValidOrder next ∧
          next.idxOf b = next.idxOf a + 1 ∧
            g.totalLiveness next.idxOf ≤ g.totalLiveness order.idxOf := by
  have hwf := hg.wellFormed
  have hsched : g.Schedulable :=
    ⟨_, hn.validOrder_iff.mpr (Edges.topologicalOrder_topological hwf.toOrdered.edges_inRange ha)⟩
  have hac := hsched.acyclic hwf.toOrdered
  refine ⟨Graph.exists_closure hwf.toOrdered hac, fun c hc => ?_⟩
  obtain ⟨d, log, hd⟩ := settle_succeeds hwf c
  have hset := settle_settled hwf hd
  have hsound := settle_sound hwf hn.linksHeld hac hc hd
  obtain rfl := hset.closure
  refine ⟨d, log, hd, fun a b hab => ?_, fun a b hab hle order ho => ?_⟩
  · rw [Graph.mem_tightPairs] at hab ⊢
    exact hset.tightNext hsound hwf.toOrdered hab
  · have hbounded := hset.boundedBy hsound.within hset.wellFormed.toSupplied hset.opCount hset.allocs
    have hunlinked : d.graph.Unlinked := fun a => (hset.fwdLink a).trans (hn a)
    obtain ⟨next, hnext, hadj, hcost⟩ := hbounded.exists_adjacent hset.wellFormed hunlinked
      (Graph.mem_tightPairs.mp hab) hle (hset.refines.validOrder ho)
    rw [Graph.totalLiveness_congr hset.allocs, Graph.totalLiveness_congr hset.allocs] at hcost
    exact ⟨next, hsound.tightens.validOrder hnext, hadj, hcost⟩

end Draft

section TwoChains

open Numbers Liveness.Graph

/-- In the two chains the first pair is a tight drop, and so it need not be apart as in an order
that has the start of the other chain between its Ops. -/
theorem Draft.twoChains_tightDrop : twoChains.Built ∧ twoChains.Unlinked ∧
    twoChains.edges.Acyclic ∧ twoChains.ValidOrder [0, 2, 1, 3] ∧ ∃ d log,
      Draft.ofGraph twoChains = .ok (d, log) ∧ (0, 1) ∈ d.graph.tightPairs ∧
        d.upper 1 ≤ d.lower 0 ∧ ∃ next, twoChains.ValidOrder next ∧
          next.idxOf 1 = next.idxOf 0 + 1 ∧
            twoChains.totalLiveness next.idxOf ≤ twoChains.totalLiveness [0, 2, 1, 3].idxOf := by
  have hn : twoChains.Unlinked := by decide
  have ha : twoChains.edges.Acyclic := (Edges.isSchedulable_iff.mp (by decide +kernel)).2
  have hvalid : twoChains.ValidOrder [0, 2, 1, 3] := by decide
  obtain ⟨⟨c, hc, hw⟩, h⟩ := Draft.settle_tightDrops twoChains_built hn ha
  obtain ⟨d, log, hd, hkept, hdrops⟩ := h c hw
  have hof := (Draft.ofGraph_eq_settle hc).trans hd
  have hv : (Draft.ofGraph twoChains).map (fun r => Weight.le (r.1.upper 1) (r.1.lower 0)) =
      .ok true := by decide +kernel
  rw [hof] at hv
  have hle : d.upper 1 ≤ d.lower 0 := Except.ok.inj hv
  have hpair := hkept 0 1 (by decide)
  exact ⟨twoChains_built, hn, ha, hvalid, d, log, hof, hpair, hle, hdrops 0 1 hpair hle _ hvalid⟩

end TwoChains

end Liveness
