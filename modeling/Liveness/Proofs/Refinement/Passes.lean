import Liveness.Proofs.Graph.Repeated
import Liveness.Refinement.Rounds

/-! # Passes tighten the graph

Passes over Allocs leave the constraints and links alone. Passes over links and chains
move constraints along links, or add constraints and links with which the graph can still
be scheduled. A pass that reports no change leaves the graph without cycles.
-/

namespace Liveness

open Success

variable {W : Type} [Weight W] {g h : Graph W} {a b : Nat}

namespace Graph

structure SameOrder (g h : Graph W) : Prop where
  opCount : h.opCount = g.opCount
  outs : ∀ x, (h.op x).outs = (g.op x).outs
  fwdLink : ∀ x, (h.op x).fwdLink = (g.op x).fwdLink

omit [Weight W] in
theorem SameOrder.trans {k : Graph W} (h₁ : g.SameOrder h) (h₂ : h.SameOrder k) :
    g.SameOrder k :=
  ⟨h₂.opCount.trans h₁.opCount, fun x => (h₂.outs x).trans (h₁.outs x),
    fun x => (h₂.fwdLink x).trans (h₁.fwdLink x)⟩

theorem SameOrder.tightens (hs : g.SameOrder h) (hh : h.WellFormed) (hl : g.LinksHeld) :
    g.Tightens h := by
  refine ⟨⟨hs.opCount, fun {a b} hb => ?_, fun {a b} hb => ?_⟩, hh, fun a b hb => ?_⟩
  · exact .of_mem (by rwa [hs.outs])
  · rwa [hs.fwdLink]
  · rw [hs.fwdLink] at hb
    rw [hs.outs]
    exact hl hb

omit [Weight W] in
theorem SameOrder.acyclic (hs : g.SameOrder h) (ha : g.Acyclic) : h.Acyclic :=
  ha.mono fun {a b} hb => by rwa [hs.outs] at hb

structure Reallocates (g h : Graph W) : Prop extends g.SameOrder h where
  wellFormed : h.WellFormed

section Allocs

theorem detach_reallocates {r : Nat} (hg : g.WellFormed) (ha : a < g.opCount)
    (hr : r < g.allocCount) : g.Reallocates (g.detach a r) :=
  ⟨⟨opCount_detach g a r, fun x => by rw [op_detach ha], fun x => by rw [op_detach ha]⟩,
    hg.detach ha hr⟩

theorem release_reallocates {r : Nat} (hg : g.WellFormed) (h' : g.release a r = .ok h) :
    g.Reallocates h := by
  obtain ⟨ha, hr, rfl⟩ := release_eq_ok.mp h'
  exact detach_reallocates hg ha hr

theorem detachAll_reallocates {r : Nat} {as : List Nat} (hg : g.WellFormed)
    (hr : r < g.allocCount) (ha : ∀ a ∈ as, a < g.opCount) :
    g.Reallocates (as.foldl (fun g a => g.detach a r) g) := by
  induction as generalizing g with
  | nil => exact ⟨⟨rfl, fun _ => rfl, fun _ => rfl⟩, hg⟩
  | cons a as ih =>
    have h₁ := detach_reallocates hg (ha a List.mem_cons_self) hr
    have h₂ := ih h₁.wellFormed (by simpa using hr) fun b hb => by
      simpa using ha b (List.mem_cons_of_mem a hb)
    exact ⟨h₁.toSameOrder.trans h₂.toSameOrder, h₂.wellFormed⟩

theorem releaseAll_reallocates {r : Nat} (hg : g.WellFormed) (h' : g.releaseAll r = .ok h) :
    g.Reallocates h := by
  obtain ⟨hr, rfl⟩ := releaseAll_eq_ok.mp h'
  exact detachAll_reallocates hg hr fun a ha => hg.ops_lt ha

theorem reweigh_reallocates {r : Nat} {w : W} (hg : g.WellFormed) (h' : g.reweigh r w = .ok h) :
    g.Reallocates h := by
  obtain ⟨hr, -, rfl⟩ := reweigh_eq_ok.mp h'
  exact ⟨⟨rfl, fun _ => rfl, fun _ => rfl⟩, hg.reweigh hr w⟩

theorem foldlM_reallocates {ι : Type} {f : Graph W → ι → Except Error (Graph W)} {items : List ι}
    (hf : ∀ {g h : Graph W} i, g.WellFormed → f g i = .ok h → g.Reallocates h)
    (hg : g.WellFormed) (h' : items.foldlM f g = .ok h) : g.Reallocates h := by
  refine foldlM_keeps (P := g.Reallocates) ⟨⟨rfl, fun _ => rfl, fun _ => rfl⟩, hg⟩
    (fun i _ k k' hk hs => ?_) h'
  have hs := hf i hk.wellFormed hs
  exact ⟨hk.toSameOrder.trans hs.toSameOrder, hs.wellFormed⟩

theorem absorb_reallocates {alloc : Alloc W} {others : List (Alloc W)} (hg : g.WellFormed)
    (h' : g.absorb alloc others = .ok h) : g.Reallocates h := by
  obtain ⟨k, hk, h'⟩ := bind_eq_ok.mp h'
  have h₁ := foldlM_reallocates (fun _ hg hr => releaseAll_reallocates hg hr) hg hk
  have h₂ := reweigh_reallocates h₁.wellFormed h'
  exact ⟨h₁.toSameOrder.trans h₂.toSameOrder, h₂.wellFormed⟩

variable {result : Refined W}

theorem dropWhere_reallocates {p : Alloc W → Bool} (hg : g.WellFormed)
    (h' : g.dropWhere p = .ok result) : g.Reallocates result.graph := by
  obtain ⟨k, hk, h'⟩ := bind_eq_ok.mp h'
  obtain rfl := pure_eq_ok.mp h'
  exact foldlM_reallocates (fun _ hg hr => releaseAll_reallocates hg hr) hg hk

theorem dropInner_reallocates {c : Closure} (hg : g.WellFormed)
    (h' : g.dropInner c = .ok result) : g.Reallocates result.graph := by
  obtain ⟨k, hk, h'⟩ := bind_eq_ok.mp h'
  obtain rfl := pure_eq_ok.mp h'
  exact foldlM_reallocates (fun _ hg hr => release_reallocates hg hr) hg hk

theorem combine_reallocates (hg : g.WellFormed) (h' : g.combine = .ok result) :
    g.Reallocates result.graph := by
  obtain ⟨k, hk, h'⟩ := bind_eq_ok.mp h'
  obtain rfl := pure_eq_ok.mp h'
  exact foldlM_reallocates (fun _ hg hr => absorb_reallocates hg hr) hg hk

end Allocs

section Links

theorem linkWherePossible_tightens {pairs : List (Nat × Nat)} {count : Nat} (hg : g.WellFormed)
    (hl : g.LinksHeld) (ha : g.Acyclic) (h' : g.linkWherePossible pairs = .ok (h, count)) :
    g.Tightens h ∧ h.Acyclic := by
  refine foldlM_keeps (P := fun s : Graph W × Nat => g.Tightens s.1 ∧ s.1.Acyclic)
    ⟨.refl hg hl, ha⟩ (fun p _ s t hs ht => ?_) h'
  obtain ⟨k, n⟩ := s
  dsimp only at ht
  split at ht
  · next hc =>
    obtain ⟨k', hk, hsched⟩ := canLink_iff.mp hc
    obtain ⟨k'', hk', ht⟩ := bind_eq_ok.mp ht
    obtain rfl := pure_eq_ok.mp ht
    obtain rfl : k' = k'' := Except.ok.inj (hk.symm.trans hk')
    obtain ⟨⟨hu, hv, hne⟩, hf, hb, rfl⟩ := link_eq_ok.mp hk
    have hj := join_tightens hs.1.wellFormed hs.1.linksHeld hu hv hne hf hb
    exact ⟨hs.1.trans hj,
      acyclic_of_checkSchedulable hj.wellFormed.toOrdered (isSchedulable_iff.mp hsched)⟩
  · obtain rfl := pure_eq_ok.mp ht
    exact hs

end Links

section Parallel

def PairLt (p q : Nat × Nat) : Prop := p.1 < q.1 ∨ p.1 = q.1 ∧ p.2 < q.2

theorem mem_insertPair {p q : Nat × Nat} {qs : List (Nat × Nat)} :
    q ∈ insertPair p qs ↔ q = p ∨ q ∈ qs := by
  induction qs with
  | nil => simp [insertPair]
  | cons r qs ih =>
    unfold insertPair
    split
    · exact List.mem_cons
    · split
      · next he =>
        rw [he, List.mem_cons]
        exact ⟨.inr, fun h => h.elim .inl id⟩
      · rw [List.mem_cons, ih, List.mem_cons]
        exact ⟨fun h => h.elim (fun h => .inr (.inl h)) (Or.imp_right .inr),
          fun h => h.elim (fun h => .inr (.inl h)) (Or.imp_right .inr)⟩

theorem insertPair_pairwise {p : Nat × Nat} {qs : List (Nat × Nat)} (h : qs.Pairwise PairLt) :
    (insertPair p qs).Pairwise PairLt := by
  induction qs with
  | nil => simp [insertPair]
  | cons q qs ih =>
    obtain ⟨hq, hqs⟩ := List.pairwise_cons.mp h
    unfold insertPair
    split
    · next hlt =>
      have hpq : PairLt p q := by simpa [PairLt] using hlt
      refine List.pairwise_cons.mpr ⟨fun r hr => ?_, h⟩
      rcases List.mem_cons.mp hr with rfl | hr
      · exact hpq
      · have := hq r hr
        unfold PairLt at *
        omega
    · next hlt =>
      split
      · exact h
      · next hne =>
        refine List.pairwise_cons.mpr ⟨fun r hr => ?_, ih hqs⟩
        rcases mem_insertPair.mp hr with rfl | hr
        · have hn : ¬ PairLt r q := by simpa [PairLt] using hlt
          have : ¬ (r.1 = q.1 ∧ r.2 = q.2) := fun h => hne (Prod.ext h.1 h.2)
          unfold PairLt at *
          omega
        · exact hq r hr

theorem mem_sortPairs {p : Nat × Nat} {pairs : List (Nat × Nat)} :
    p ∈ sortPairs pairs ↔ p ∈ pairs := by
  induction pairs with
  | nil => exact Iff.rfl
  | cons q pairs ih =>
    rw [sortPairs, List.foldr_cons, mem_insertPair, List.mem_cons, ← ih]
    rfl

theorem sortPairs_nodup (pairs : List (Nat × Nat)) : (sortPairs pairs).Nodup := by
  have h : (sortPairs pairs).Pairwise PairLt := by
    induction pairs with
    | nil => exact List.Pairwise.nil
    | cons p pairs ih => exact insertPair_pairwise ih
  refine h.imp fun {p q} hlt he => ?_
  subst he
  unfold PairLt at hlt
  omega

end Parallel

end Graph

namespace Draft

variable {d : Draft W} {n count : Nat} {p : Nat × Nat}

omit [Weight W] in
/-- A constraint between chains is kept only if the graph can still be scheduled. -/
theorem tryConstrain_cases (h' : d.tryConstrain (g, n) p = .ok (h, count)) :
    h = g ∨ (p.1 < g.opCount ∧ p.2 < g.opCount ∧ p.1 ≠ p.2) ∧
      (h = g.connect p.1 p.2 ∧ h.isSchedulable = true ∨
        h = (g.connect p.1 p.2).disconnect p.1 p.2) := by
  unfold tryConstrain at h'
  dsimp only at h'
  split at h'
  · exact .inl (Prod.mk.inj (pure_eq_ok.mp h')).1.symm
  · obtain ⟨k, hk, h'⟩ := bind_eq_ok.mp h'
    obtain ⟨hr, rfl⟩ := Graph.constrain_eq_ok.mp hk
    refine .inr ⟨hr, ?_⟩
    split at h'
    · next hs =>
      obtain ⟨rfl, -⟩ := Prod.mk.inj (pure_eq_ok.mp h')
      exact .inl ⟨rfl, hs⟩
    · obtain ⟨k, hk, h'⟩ := bind_eq_ok.mp h'
      obtain ⟨-, -, rfl⟩ := Graph.unconstrain_eq_ok.mp hk
      exact .inr (Prod.mk.inj (pure_eq_ok.mp h')).1.symm

theorem foldlM_tryConstrain_tightens {pairs : List (Nat × Nat)} (hn : pairs.Nodup)
    (hp : ∀ p ∈ pairs, p.2 ∉ (g.op p.1).outs) (hg : g.WellFormed) (hl : g.LinksHeld)
    (ha : g.Acyclic) (h' : pairs.foldlM d.tryConstrain (g, n) = .ok (h, count)) :
    g.Tightens h ∧ h.Acyclic := by
  induction pairs generalizing g n with
  | nil =>
    obtain ⟨rfl, -⟩ := Prod.mk.inj (pure_eq_ok.mp h')
    exact ⟨.refl hg hl, ha⟩
  | cons p pairs ih =>
    rw [List.foldlM_cons, bind_eq_ok] at h'
    obtain ⟨⟨k, m⟩, hk, h'⟩ := h'
    obtain ⟨hnp, hn⟩ := List.nodup_cons.mp hn
    have hps : ∀ q ∈ pairs, q.2 ∉ (g.op q.1).outs := fun q hq => hp q (List.mem_cons_of_mem p hq)
    rcases tryConstrain_cases hk with rfl | ⟨⟨hu, hv, hne⟩, ⟨rfl, hs⟩ | rfl⟩
    · exact ih hn hps hg hl ha h'
    · have ht := Graph.connect_tightens hg hl hu hv hne
      have hac := Graph.acyclic_of_checkSchedulable ht.wellFormed.toOrdered
        (Graph.isSchedulable_iff.mp hs)
      have := ih hn (fun q hq hm => ?_) ht.wellFormed ht.linksHeld hac h'
      · exact ⟨ht.trans this.1, this.2⟩
      · rcases (Graph.mem_outs_connect hu hv).mp hm with ⟨h₁, h₂⟩ | hm
        · exact hnp (Prod.ext h₁ h₂ ▸ hq)
        · exact hps q hq hm
    · rw [hg.disconnect_connect hu hv hne (hp p List.mem_cons_self)] at h'
      exact ih hn hps hg hl ha h'

theorem not_mem_of_mem_constraintsFrom (hp : p ∈ d.constraintsFrom a) :
    p.2 ∉ (d.graph.op p.1).outs := by
  unfold constraintsFrom at hp
  obtain ⟨b, -, hp⟩ := List.mem_flatMap.mp (List.mem_ite_nil_left.mp hp).2
  unfold chainConstraints at hp
  have hp := (List.mem_ite_nil_right.mp (List.mem_ite_nil_left.mp hp).2).2
  simpa using (List.mem_filter.mp hp).2

theorem orderParallelChains_tightens {result : Refined W} (hg : d.graph.WellFormed)
    (hl : d.graph.LinksHeld) (ha : d.graph.Acyclic) (h' : d.orderParallelChains = .ok result) :
    d.graph.Tightens result.graph ∧ result.graph.Acyclic := by
  unfold orderParallelChains at h'
  obtain ⟨⟨k, count⟩, hk, h'⟩ := bind_eq_ok.mp h'
  obtain rfl := pure_eq_ok.mp h'
  refine foldlM_tryConstrain_tightens (Graph.sortPairs_nodup _) (fun p hp => ?_) hg hl ha hk
  obtain ⟨a, -, hp⟩ := List.mem_flatMap.mp (Graph.mem_sortPairs.mp hp)
  exact not_mem_of_mem_constraintsFrom hp

end Draft

end Liveness
