import Liveness.Proofs.Refinement.ChangeBounds
import Liveness.Proofs.Graph.ParallelChains

/-! # Ordering parallel chains

Of two parallel chains, one is ordered before the other when every start of it costs no more than
the equally long start of the other one. Orders can have any two starts side by side, so what
matters is that every stretch costs no more, and so every single Op. Where this holds, the Ops of
the two chains can trade places until all constraints that are offered hold, at no cost.
-/

namespace Liveness

open Success

variable {W : Type} [Weight W] {g h : Graph W} {order first second : List Nat} {p : Nat × Nat}
  {a b x : Nat}

namespace Bounds

variable [ExactWeight W] {w : W}

theorem range_neg_of_flat {v : Verdict} (hv : v ≠ .always)
    (hflat : (range w v).lower = (range w v).upper) : range (Weight.neg w) v = ⟨0, 0⟩ := by
  cases v with
  | always => exact absurd rfl hv
  | never => rfl
  | sometimes =>
    dsimp only [range] at hflat
    rw [ExactWeight.min_eq, ExactWeight.max_eq] at hflat
    obtain rfl : w = 0 := by
      apply le_antisymm
      · exact (le_max_left w 0).trans (hflat ▸ min_le_right w 0)
      · exact (le_max_right w 0).trans (hflat ▸ min_le_left w 0)
    have hneg : Weight.neg (0 : W) = 0 := neg_zero
    simp [range, hneg, ExactWeight.min_eq, ExactWeight.max_eq]

theorem widen_neg_of_flat {s : Verdict × Verdict} (hs : s.1 ≠ .always ∧ s.2 ≠ .always)
    (hflat : (zero.widen w s).lower = (zero.widen w s).upper) (b : Bounds W) :
    b.widen (Weight.neg w) s = b := by
  dsimp only [widen, zero] at hflat
  rw [zero_add, zero_add,
    add_eq_add_iff_eq_and_eq (range_le w s.1) (range_le (Weight.neg w) s.2)] at hflat
  unfold widen
  rw [range_neg_of_flat hs.1 hflat.1, range_neg_of_flat hs.2 hflat.2]
  simp

end Bounds

namespace Draft

variable {d : Draft W}

def Offered (d : Draft W) (p : Nat × Nat) : Prop :=
  ∃ a < d.graph.opCount, p ∈ d.constraintsFrom a

theorem mem_constraintsFrom_iff : p ∈ d.constraintsFrom a ↔
    1 < (d.graph.siblings a).length ∧ d.graph.hasLinks (d.graph.tightChainFrom a) = false ∧
      ∃ b ∈ d.graph.siblings a, b ≠ a ∧
        p ∈ d.chainConstraints (d.graph.tightChainFrom a) (d.graph.tightChainFrom b) := by
  unfold constraintsFrom
  simp [and_assoc]

theorem of_mem_chainConstraints (hp : p ∈ d.chainConstraints first second) :
    second.length ≤ first.length ∧
      (∀ a ∈ first.getLast?, ∀ b ∈ second.getLast?, (d.graph.op a).outs = (d.graph.op b).outs) ∧
      d.favours 0 0 (first.zip second) = true ∧ p ∈ first.zip second ∧
      ∀ q ∈ first.zip second, q.2 ∉ (d.graph.op q.1).outs →
        q ∈ d.chainConstraints first second := by
  unfold chainConstraints at hp ⊢
  dsimp only at hp ⊢
  obtain ⟨hpass, hp⟩ := List.mem_ite_nil_left.mp hp
  obtain ⟨hfav, hp⟩ := List.mem_ite_nil_right.mp hp
  rw [if_neg hpass, if_pos hfav]
  simp only [Bool.or_eq_true, Bool.not_eq_true', not_or, decide_eq_true_eq, not_lt] at hpass
  refine ⟨hpass.1.1, ?_, hfav, (List.mem_filter.mp hp).1, fun q hq hout => ?_⟩
  · intro a ha b hb
    rw [Option.mem_def] at ha hb
    simpa [ha, hb] using hpass.2
  · exact List.mem_filter.mpr ⟨hq, by simpa using hout⟩

theorem lt_or_lt_of_favours {high low : W} {rest : List (Nat × Nat)}
    (h : d.favours high low (p :: rest) = true) :
    Weight.lt (high + (d.ownBounds p.1 p.2).1) (low + (d.ownBounds p.1 p.2).2) = true ∨
      p.1 < p.2 := by
  unfold favours at h
  dsimp only at h
  split at h
  · next hc =>
    rw [Bool.or_eq_true, Bool.and_eq_true, decide_eq_true_eq] at hc
    exact hc.imp_right And.right
  · cases h

theorem Offered.exists_parallel (hg : d.graph.Ordered) (hp : d.Offered p) :
    ∃ first second, d.graph.Parallel first second ∧ p ∈ first.zip second ∧
      ∀ q ∈ first.zip second, q.2 ∉ (d.graph.op q.1).outs → d.Offered q := by
  obtain ⟨a, ha, hp⟩ := hp
  obtain ⟨hmany, hfree, b, hb, hne, hp⟩ := mem_constraintsFrom_iff.mp hp
  obtain ⟨hlength, hlasts, -, hzip, hall⟩ := of_mem_chainConstraints hp
  have hins := hg.ins_of_mem_siblings hb
  have hmany' : 1 < (d.graph.siblings b).length := by rwa [Graph.siblings_congr hins]
  refine ⟨_, _, ⟨hlength, ?_, ?_, d.graph.isChain_tightChain a, d.graph.isChain_tightChain b, ?_,
    hlasts⟩, hzip, fun q hq hout => ?_⟩
  · intro x hx
    rcases List.mem_append.mp hx with hx | hx
    · exact hg.lt_of_mem_tightChain ha hx
    · exact hg.lt_of_mem_tightChain (hg.lt_of_mem_siblings hb) hx
  · exact List.nodup_append'.mpr ⟨hg.nodup_tightChain hmany, hg.nodup_tightChain hmany',
      hg.disjoint_tightChains hmany hmany' hne.symm⟩
  · intro x hx y hy
    rw [Graph.head?_tightChain] at hx hy
    obtain rfl := Option.some.inj hx
    obtain rfl := Option.some.inj hy
    exact hins.symm
  · exact ⟨a, ha, mem_constraintsFrom_iff.mpr ⟨hmany, hfree, b, hb, hne, hall q hq hout⟩⟩

section Flat

variable [ExactWeight W]

theorem extremes_ne_always {c : Closure} {ids : List Nat} (hb : b ∈ ids) (hne : b ≠ a)
    (hab : c.precedes a b = false) (hba : c.precedes b a = false) :
    (c.extremes a ids).1 ≠ .always ∧ (c.extremes a ids).2 ≠ .always := by
  have hm : b ∈ ids.filter fun b => b != a := List.mem_filter.mpr ⟨hb, by simpa using hne⟩
  constructor
  · intro h
    have hbeat := Closure.verdict_eq_always h b hm
    rw [hab] at hbeat
    cases hbeat
  · intro h
    have hbeat : c.precedes b a = true := Closure.verdict_eq_always h b hm
    rw [hba] at hbeat
    cases hbeat

/-- What two Ops share counts for nothing where neither has to come first and the bounds of both
are flat. -/
theorem ownBounds_of_flat (hd : d.Measured g) (ha : a < d.graph.opCount)
    (hb : b < d.graph.opCount) (hne : a ≠ b) (hab : d.closure.precedes a b = false)
    (hba : d.closure.precedes b a = false) (hfa : d.lower a = d.upper a)
    (hfb : d.lower b = d.upper b) : d.ownBounds a b = (d.upper a, d.lower b) := by
  have hg := hd.tightens.wellFormed
  have hpart : ∀ {x r}, x < d.graph.opCount → d.lower x = d.upper x →
      x ∈ (d.graph.alloc r).ops →
      (Bounds.zero.widen (d.graph.alloc r).weight
          (d.closure.extremes x (d.graph.alloc r).ops)).lower =
        (Bounds.zero.widen (d.graph.alloc r).weight
          (d.closure.extremes x (d.graph.alloc r).ops)).upper := by
    intro x r hx hflat hm
    rw [lower, upper, hd.bounds] at hflat
    have hp := Bounds.part_eq_of_flat hg.toSupplied hx hflat (Graph.lt_of_mem_ops hm)
    rwa [Bounds.part, if_pos hm] at hp
  unfold ownBounds
  refine List.foldlRecOn (motive := (· = (d.upper a, d.lower b))) _ _ rfl
    fun bounds hbounds r hr => ?_
  unfold withoutShared
  split
  · next hshared =>
    have hra := hg.mem_allocs.mp (List.contains_iff_mem.mp hshared)
    have hrb := hg.mem_allocs.mp hr
    dsimp only
    rw [Bounds.widen_neg_of_flat (extremes_ne_always hrb hne.symm hab hba) (hpart ha hfa hra),
      Bounds.widen_neg_of_flat (extremes_ne_always hra hne hba hab) (hpart hb hfb hrb)]
    exact hbounds
  · exact hbounds

end Flat

section Ranks

open Classical in
/-- The Op with siblings at the start of the tight chain that an Op is on. -/
noncomputable def headOf (d : Draft W) (x : Nat) : Nat :=
  if h : ∃ a, 1 < (d.graph.siblings a).length ∧ x ∈ d.graph.tightChainFrom a then h.choose else x

omit [Weight W] in
theorem headOf_eq (hg : d.graph.Ordered) (ha : 1 < (d.graph.siblings a).length)
    (hx : x ∈ d.graph.tightChainFrom a) : d.headOf x = a := by
  have hex : ∃ a, 1 < (d.graph.siblings a).length ∧ x ∈ d.graph.tightChainFrom a := ⟨a, ha, hx⟩
  unfold headOf
  rw [dif_pos hex]
  obtain ⟨hb, hxb⟩ := hex.choose_spec
  by_contra hne
  exact hg.disjoint_tightChains hb ha hne hxb hx

variable [ExactWeight W]

def key (d : Draft W) (a : Nat) : W ×ₗ W ×ₗ Nat := toLex (d.upper a, toLex (d.lower a, a))

def keyRank (d : Draft W) (a : Nat) : Nat :=
  ((Finset.range d.graph.opCount).filter fun b => d.key a < d.key b).card

theorem keyRank_lt (hb : b < d.graph.opCount) (h : d.key a < d.key b) :
    d.keyRank b < d.keyRank a := by
  refine Finset.card_lt_card ((Finset.ssubset_iff_of_subset fun x hx => ?_).mpr ⟨b, ?_, ?_⟩)
  · obtain ⟨hx, hlt⟩ := Finset.mem_filter.mp hx
    exact Finset.mem_filter.mpr ⟨hx, h.trans hlt⟩
  · exact Finset.mem_filter.mpr ⟨Finset.mem_range.mpr hb, h⟩
  · exact fun hm => lt_irrefl _ (Finset.mem_filter.mp hm).2

theorem not_precedes_of_ins (hd : d.Measured g) (hins : (d.graph.op b).ins = (d.graph.op a).ins) :
    d.closure.precedes a b = false := by
  rw [Bool.eq_false_iff]
  intro h
  obtain ⟨f, hf⟩ := hd.acyclic
  obtain ⟨x, hpath, hx⟩ := Relation.TransGen.tail'_iff.mp (hd.within h)
  have hg := hd.tightens.wellFormed
  have hxa : a ∈ (d.graph.op x).outs := hg.mem_ins.mp (hins ▸ hg.mem_ins.mpr hx)
  have hback := hf hxa
  rcases Relation.reflTransGen_iff_eq_or_transGen.mp hpath with rfl | hpath
  · exact Nat.lt_irrefl _ hback
  · exact Nat.lt_asymm hback (Graph.Path.rank_lt hf hpath)

theorem key_lt_of_siblings (hd : d.Measured g) (ha : a < d.graph.opCount)
    (hb : b < d.graph.opCount) (hne : a ≠ b)
    (hins : (d.graph.op b).ins = (d.graph.op a).ins) (hle : d.upper a ≤ d.lower b)
    (hfav : Weight.lt (d.ownBounds a b).1 (d.ownBounds a b).2 = true ∨ a < b) :
    d.key a < d.key b := by
  obtain ⟨order, ho⟩ := hd.schedulable
  have hla := hd.bounded.lower_le_upper ho ha
  have hlb := hd.bounded.lower_le_upper ho hb
  unfold key
  rw [Prod.Lex.toLex_lt_toLex, Prod.Lex.toLex_lt_toLex]
  rcases (hle.trans hlb).lt_or_eq with hlt | hup
  · exact .inl hlt
  · have hflat : d.lower b = d.upper b := hlb.antisymm (hup ▸ hle)
    rcases (hla.trans hle).lt_or_eq with hlt | hlow
    · exact .inr ⟨hup, .inl hlt⟩
    · refine .inr ⟨hup, .inr ⟨hlow, hfav.resolve_left fun hlt => ?_⟩⟩
      rw [ownBounds_of_flat hd ha hb hne (not_precedes_of_ins hd hins)
        (not_precedes_of_ins hd hins.symm) (by rw [hlow, hflat, hup]) hflat] at hlt
      exact absurd (ExactWeight.lt_iff.mp hlt) (not_lt.mpr (hflat.trans hup.symm).le)

theorem Offered.rank_lt (hd : d.Measured g)
    (hle : ∀ q, d.Offered q → d.upper q.1 ≤ d.lower q.2) (hp : d.Offered p) :
    d.keyRank (d.headOf p.2) < d.keyRank (d.headOf p.1) := by
  have hg := hd.tightens.wellFormed
  obtain ⟨a, ha, hp⟩ := hp
  obtain ⟨hmany, hfree, b, hb, hne, hp⟩ := mem_constraintsFrom_iff.mp hp
  obtain ⟨-, -, hfav, hzip, hall⟩ := of_mem_chainConstraints hp
  have hins := hg.toOrdered.ins_of_mem_siblings hb
  have hlt := hg.toOrdered.lt_of_mem_siblings hb
  obtain ⟨hp₁, hp₂⟩ := List.of_mem_zip hzip
  rw [headOf_eq hg.toOrdered hmany hp₁,
    headOf_eq hg.toOrdered (by rwa [Graph.siblings_congr hins]) hp₂]
  -- the heads are counterparts as well, and the first two of them
  obtain ⟨as, hfirst⟩ := List.head?_eq_some_iff.mp (d.graph.head?_tightChain a)
  obtain ⟨bs, hsecond⟩ := List.head?_eq_some_iff.mp (d.graph.head?_tightChain b)
  rw [hfirst, hsecond, List.zip_cons_cons] at hfav hall
  have hout : b ∉ (d.graph.op a).outs := by
    intro hab
    have hself := hg.mem_ins.mpr hab
    rw [hins] at hself
    exact hg.irrefl a (hg.mem_ins.mp hself)
  have hheads : d.Offered (a, b) :=
    ⟨a, ha, mem_constraintsFrom_iff.mpr ⟨hmany, hfree, b, hb, hne, by
      rw [hfirst, hsecond]
      exact hall _ List.mem_cons_self hout⟩⟩
  have hfavours := lt_or_lt_of_favours hfav
  rw [zero_add, zero_add] at hfavours
  exact keyRank_lt hlt (key_lt_of_siblings hd ha hlt hne.symm hins (hle _ hheads) hfavours)

end Ranks

section Trading

variable [ExactWeight W] (hd : d.Measured g)

include hd

/-- Where a constraint that is offered does not hold, counterparts can trade places: the order
stays valid, does not cost more, and Ops of higher rank come forward. -/
theorem trade_step {rank : Nat → Nat} (hle : ∀ q, d.Offered q → d.upper q.1 ≤ d.lower q.2)
    (hrank : ∀ q, d.Offered q → rank q.2 < rank q.1) (ho : d.graph.ValidOrder order)
    (hp : d.Offered p) (hturn : order.idxOf p.2 < order.idxOf p.1) :
    ∃ next, d.graph.ValidOrder next ∧
      d.graph.totalLiveness next.idxOf ≤ d.graph.totalLiveness order.idxOf ∧
      d.graph.rankedPlaces rank next < d.graph.rankedPlaces rank order := by
  have hg := hd.tightens.wellFormed
  obtain ⟨first, second, hc, hzip, hall⟩ := hp.exists_parallel hg.toOrdered
  have hσ := Graph.traded_involutive hc.nodup order
  have hnext := hc.validOrder_traded hg.toOrdered ho hd.unlinked
  -- what comes forward is an Op of the first chain, which trades with its counterpart
  have hforward : ∀ a, order.idxOf (Graph.traded order first second a) < order.idxOf a →
      d.Offered (a, Graph.traded order first second a) := by
    intro a ha
    rcases Graph.traded_cases hc.nodup order a with he | ⟨i, hf, hs, hlt, ⟨he', he⟩ | ⟨he', he⟩⟩
    · rw [he] at ha
      exact absurd ha (Nat.lt_irrefl _)
    · rw [he, he']
      exact hall _ (mem_zip_iff.mpr ⟨i, hf, hs, rfl⟩) fun hout =>
        Nat.lt_asymm hlt (ho.before hout)
    · rw [he, he'] at ha
      exact absurd ha (Nat.lt_asymm hlt)
  refine ⟨_, hnext, ?_, ?_⟩
  · exact hd.bounded.totalLiveness_trade hσ hg.toSupplied ho hnext fun a _ ha =>
      hle _ (hforward a ha)
  · refine Graph.rankedPlaces_lt hσ ho hnext (fun a ha => hrank _ (hforward a ha)) ?_
    obtain ⟨i, hf, hs, rfl⟩ := mem_zip_iff.mp hzip
    refine ⟨first[i], hc.inRange _ (List.mem_append_left _ (List.getElem_mem hf)), ?_⟩
    rw [(Graph.idxOf_traded hc.nodup order hf hs).1]
    exact min_lt_of_right_lt hturn

/-- Every order can be traded into one with all constraints that are offered, at no cost. -/
theorem exists_all_offered (hle : ∀ q, d.Offered q → d.upper q.1 ≤ d.lower q.2)
    (ho : d.graph.ValidOrder order) : ∃ last, d.graph.ValidOrder last ∧
      (∀ p, d.Offered p → last.idxOf p.1 < last.idxOf p.2) ∧
      d.graph.totalLiveness last.idxOf ≤ d.graph.totalLiveness order.idxOf := by
  refine Graph.exists_shaped (fun order => ∀ p, d.Offered p → order.idxOf p.1 < order.idxOf p.2)
    (d.graph.rankedPlaces fun a => d.keyRank (d.headOf a)) (fun order ho hno => ?_) ho
  push Not at hno
  obtain ⟨p, hp, hturn⟩ := hno
  obtain ⟨a, ha, hfrom⟩ := id hp
  obtain ⟨hp₁, -, hne⟩ := mem_constraintsFrom hd.tightens.wellFormed.toOrdered ha hfrom
  have hne' : order.idxOf p.1 ≠ order.idxOf p.2 := fun he =>
    hne ((List.idxOf_inj (ho.mem_iff.mpr hp₁)).mp he)
  exact trade_step hd hle (fun q hq => hq.rank_lt hd hle) ho hp (by omega)

end Trading

omit [Weight W] in
theorem foldlM_tryConstrain_extendedBy {pairs : List (Nat × Nat)} {count : Nat}
    (h' : pairs.foldlM d.tryConstrain (g, 0) = .ok (h, count)) : g.ExtendedBy h pairs [] := by
  refine foldlM_keeps (P := fun s : Graph W × Nat => g.ExtendedBy s.1 pairs [])
    ⟨rfl, rfl, .inl, .inl⟩ (fun p hp s t hs ht => ?_) h'
  obtain ⟨k, n⟩ := s
  obtain ⟨l, m⟩ := t
  rcases tryConstrain_cases ht with rfl | ⟨⟨hu, hv, -⟩, ⟨rfl, -⟩ | rfl⟩
  · exact hs
  · exact hs.connect hu hv hp
  · exact (hs.connect hu hv hp).disconnect (by simpa using hu) (by simpa using hv)

/-- With exact weights, ordering parallel chains in a graph without links that has a valid order
succeeds, and leaves only orders that the graph had before, at their costs. A cheapest one is left
if of the two Ops of each constraint that is offered, the first raises the liveness by at most as
much as the second one. -/
theorem orderParallelChains_costs [ExactWeight W] (hg : g.Built) (hn : g.Unlinked)
    (hs : ∃ order, g.ValidOrder order) : ∃ d log result,
      Draft.ofGraph g = .ok (d, log) ∧ d.orderParallelChains = .ok result ∧
      result.graph.costs ⊆ g.costs ∧ result.graph.costs.Nonempty ∧
      ((∀ p, d.Offered p → d.upper p.1 ≤ d.lower p.2) →
        ∃ m, IsLeast g.costs m ∧ IsLeast result.graph.costs m) := by
  obtain ⟨d, log, hd, hm⟩ := ofGraph_measured hg.wellFormed hn hs
  have hwf := hm.tightens.wellFormed
  obtain ⟨result, hresult, hsched⟩ := orderParallelChains_succeeds hwf hm.schedulable
  have htight := (orderParallelChains_tightens hwf hm.tightens.linksHeld hm.acyclic hresult).1
  obtain ⟨⟨h, count⟩, hh, hpure⟩ := bind_eq_ok.mp hresult
  obtain rfl := pure_eq_ok.mp hpure
  have hext := foldlM_tryConstrain_extendedBy hh
  refine ⟨d, log, _, hd, hresult, hm.costs ▸ htight.costs_subset hext.allocs, ?_, fun hle => ?_⟩
  · obtain ⟨order, ho⟩ := hsched
    exact ⟨_, order, ho, rfl⟩
  · rw [← hm.costs]
    refine hext.isLeast_costs htight.toRefines hm.schedulable fun order ho => ?_
    obtain ⟨last, hlast, hall, hcost⟩ := exists_all_offered hm hle ho
    refine ⟨last, hlast, ⟨fun p hp => hall p ?_, by simp⟩, hcost⟩
    obtain ⟨a, ha, hp⟩ := List.mem_flatMap.mp (Graph.mem_sortPairs.mp hp)
    exact ⟨a, List.mem_range.mp ha, hp⟩

end Draft

section Rivals

open Numbers Liveness.Graph

/-- Two chains of two Ops before a common end, of which the second one raises the liveness by more
with each Op. -/
def Graph.lightAndHeavy : Graph (Tiered Int) :=
  let ordered := (empty.addOps ["a", "b", "x", "y", "end"]).connectAll
    [(0, 1), (1, 4), (2, 3), (3, 4)]
  let weighed := ((ordered.addAlloc (.onTier 5 0)).addAlloc (.onTier 10 0)).addAlloc (.onTier 7 0)
  ((weighed.attachAll [1, 4] 0).attachAll [2, 4] 1).attachAll [3, 4] 2

theorem Graph.lightAndHeavy_built : lightAndHeavy.Built := by
  have hordered : ((empty.addOps ["a", "b", "x", "y", "end"]).connectAll
      [(0, 1), (1, 4), (2, 3), (3, 4)] : Graph (Tiered Int)).Built :=
    (Built.empty.addOps _).connectAll (by decide)
  have hweighed :=
    ((hordered.addAlloc (.onTier 5 0)).addAlloc (.onTier 10 0)).addAlloc (.onTier 7 0)
  exact ((hweighed.attachAll (by decide) (by decide)).attachAll (by decide)
    (by decide)).attachAll (by decide) (by decide)

/-- The light chain is constrained to come first, at no cost. -/
theorem Draft.lightAndHeavy_costs : lightAndHeavy.Built ∧ lightAndHeavy.Unlinked ∧
    lightAndHeavy.ValidOrder [0, 1, 2, 3, 4] ∧ ∃ d log result,
      Draft.ofGraph lightAndHeavy = .ok (d, log) ∧ d.orderParallelChains = .ok result ∧
        result.changed = true ∧ ∃ m, IsLeast lightAndHeavy.costs m ∧ IsLeast result.graph.costs m := by
  have hvalid : lightAndHeavy.ValidOrder [0, 1, 2, 3, 4] := by decide
  have hn : lightAndHeavy.Unlinked := by decide
  have hrun : ((Draft.ofGraph lightAndHeavy).bind fun r => r.1.orderParallelChains).map
      Refined.changed = .ok true := by decide +kernel
  have hbounds : (Draft.ofGraph lightAndHeavy).map (fun r =>
      ((List.range r.1.graph.opCount).flatMap r.1.constraintsFrom).all fun p =>
        Weight.le (r.1.upper p.1) (r.1.lower p.2)) = .ok true := by decide +kernel
  obtain ⟨d, log, result, hd, hr, -, -, hmin⟩ :=
    Draft.orderParallelChains_costs lightAndHeavy_built hn ⟨_, hvalid⟩
  rw [hd, Except.bind, hr] at hrun
  rw [hd] at hbounds
  refine ⟨lightAndHeavy_built, hn, hvalid, d, log, result, hd, hr, Except.ok.inj hrun, hmin ?_⟩
  rintro p ⟨a, ha, hp⟩
  exact List.all_eq_true.mp (Except.ok.inj hbounds) p
    (List.mem_flatMap.mpr ⟨a, List.mem_range.mpr ha, hp⟩)

/-- Two chains of two Ops before a common end. The first one starts lighter, but its second Op
raises the liveness by more than that of the other chain. -/
def Graph.lateAndEarly : Graph (Tiered Int) :=
  let ordered := (empty.addOps ["a", "b", "x", "y", "end"]).connectAll
    [(0, 1), (2, 3), (1, 4), (3, 4)]
  let weighed := ((ordered.addAlloc (.onTier 10 0)).addAlloc (.onTier 10 0)).addAlloc (.onTier 1 0)
  ((weighed.attachAll [1, 4] 0).attachAll [2, 4] 1).attachAll [3, 4] 2

theorem Graph.lateAndEarly_built : lateAndEarly.Built := by
  have hordered : ((empty.addOps ["a", "b", "x", "y", "end"]).connectAll
      [(0, 1), (2, 3), (1, 4), (3, 4)] : Graph (Tiered Int)).Built :=
    (Built.empty.addOps _).connectAll (by decide)
  have hweighed :=
    ((hordered.addAlloc (.onTier 10 0)).addAlloc (.onTier 10 0)).addAlloc (.onTier 1 0)
  exact ((hweighed.attachAll (by decide) (by decide)).attachAll (by decide)
    (by decide)).attachAll (by decide) (by decide)

/-- Ordering the chains Op by Op loses the cheapest order, in which the second Op of the first
chain comes after the whole other chain. -/
theorem Draft.lateAndEarly_dearer : lateAndEarly.Built ∧ lateAndEarly.Unlinked ∧
    ∃ d log result, Draft.ofGraph lateAndEarly = .ok (d, log) ∧
      d.orderParallelChains = .ok result ∧
        ∃ m m', IsLeast lateAndEarly.costs m ∧ IsLeast result.graph.costs m' ∧ m < m' := by
  have hrun : ((Draft.ofGraph lateAndEarly).bind fun r => r.1.orderParallelChains).map
      Refined.graph = .ok (lateAndEarly.connectAll [(0, 2), (1, 3)]) := by decide +kernel
  have hcheap : lateAndEarly.ValidOrder [0, 2, 3, 1, 4] := by decide
  have hleft : (lateAndEarly.connectAll [(0, 2), (1, 3)]).ValidOrder [0, 1, 2, 3, 4] := by decide
  have hdear : ∀ other ∈ (List.range 5).permutations',
      (lateAndEarly.connectAll [(0, 2), (1, 3)]).ValidOrder other →
        Weight.lt (lateAndEarly.totalLiveness [0, 2, 3, 1, 4].idxOf)
          ((lateAndEarly.connectAll [(0, 2), (1, 3)]).totalLiveness other.idxOf) = true := by
    decide +kernel
  obtain ⟨d, log, result, hd, hr, hgraph⟩ := Draft.of_pass_eq_ok hrun
  refine ⟨lateAndEarly_built, by decide, d, log, result, hd, hr, ?_⟩
  rw [hgraph]
  exact exists_isLeast_lt ⟨_, hleft⟩ hcheap fun other ho =>
    hdear other (List.mem_permutations'.mpr ho.perm) ho

end Rivals

end Liveness
