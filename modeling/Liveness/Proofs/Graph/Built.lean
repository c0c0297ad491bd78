import Liveness.Graph.Group
import Liveness.Proofs.Graph.Edits
import Liveness.Proofs.Success
import Liveness.Weight.Whole

/-! # Built graphs

A graph is built when it comes from the empty one by edits that succeed. The edits for
whole groups of Ops and Allocs are sequences of single ones. Every built graph is
well-formed.
-/

namespace Liveness.Graph

open Success

variable {W : Type} [Weight W] {g h : Graph W} {u v a r : Nat}

/-- A graph that edits make out of the empty one. -/
inductive Built : Graph W → Prop where
  | empty : Built empty
  | addOp {g : Graph W} (name : String) : Built g → Built (g.addOp name)
  | addAlloc {g : Graph W} (w : W) : Built g → Built (g.addAlloc w)
  | need {g h : Graph W} {a r : Nat} : Built g → g.need a r = .ok h → Built h
  | constrain {g h : Graph W} {u v : Nat} : Built g → g.constrain u v = .ok h → Built h
  | unconstrain {g h : Graph W} {u v : Nat} : Built g → g.unconstrain u v = .ok h → Built h
  | link {g h : Graph W} {u v : Nat} : Built g → g.link u v = .ok h → Built h
  | releaseAll {g h : Graph W} {r : Nat} : Built g → g.releaseAll r = .ok h → Built h
  | release {g h : Graph W} {a r : Nat} : Built g → g.release a r = .ok h → Built h
  | reweigh {g h : Graph W} {r : Nat} {w : W} : Built g → g.reweigh r w = .ok h → Built h

section Checks

omit [Weight W]

theorem checkOps_eq_ok {as : List Nat} :
    g.checkOps as = .ok () ↔ ∀ a ∈ as, a < g.opCount := by
  simp only [checkOps, forM_eq_ok, checkOp_eq_ok]

theorem checkConstraint_eq_ok :
    g.checkConstraint u v = .ok () ↔ u < g.opCount ∧ v < g.opCount ∧ u ≠ v := by
  rw [checkConstraint]
  simp only [seq_eq_ok, checkOp_eq_ok, throwIf_eq_ok, pure_eq_ok, and_true, ne_eq]

theorem checkLink_eq_ok {found : Option Nat} {expected : Nat} {conflict : Nat → Error} :
    checkLink found expected conflict = .ok () ↔ ∀ b, found = some b → b = expected := by
  unfold checkLink
  split
  · simp
  · split <;> simp_all

end Checks

section Counts

omit [Weight W]

@[simp]
theorem opCount_connectAll (g : Graph W) (pairs : List (Nat × Nat)) :
    (g.connectAll pairs).opCount = g.opCount := by
  induction pairs generalizing g with
  | nil => rfl
  | cons p ps ih => exact (ih _).trans (opCount_connect g p.1 p.2)

@[simp]
theorem allocCount_connectAll (g : Graph W) (pairs : List (Nat × Nat)) :
    (g.connectAll pairs).allocCount = g.allocCount := by
  induction pairs generalizing g with
  | nil => rfl
  | cons p ps ih => exact (ih _).trans (allocCount_connect g p.1 p.2)

theorem allocCount_detachAll (g : Graph W) (as : List Nat) (r : Nat) :
    (as.foldl (fun g a => g.detach a r) g).allocCount = g.allocCount := by
  induction as generalizing g with
  | nil => rfl
  | cons a as ih => exact (ih _).trans (allocCount_detach g a r)

@[simp]
theorem opCount_connectChain (g : Graph W) (chain : List Nat) :
    (g.connectChain chain).opCount = g.opCount :=
  opCount_connectAll g _

theorem Ordered.mem_inputs (hg : g.Ordered) : a ∈ g.inputs ↔ a < g.opCount ∧ (g.op a).ins = [] := by
  simp only [inputs, ops_toList, List.mem_map, List.mem_filter, List.mem_range,
    List.isEmpty_iff]
  constructor
  · rintro ⟨_, ⟨⟨b, hb, rfl⟩, hins⟩, rfl⟩
    rw [hg.op_address b hb]
    exact ⟨hb, hins⟩
  · rintro ⟨ha, hins⟩
    exact ⟨g.op a, ⟨⟨a, ha, rfl⟩, hins⟩, hg.op_address a ha⟩

theorem Ordered.lt_of_mem_inputs (hg : g.Ordered) (h : a ∈ g.inputs) : a < g.opCount :=
  (hg.mem_inputs.mp h).1

theorem Ordered.inputs_inRange {last n : Nat} (hg : g.Ordered) (hle : g.opCount ≤ last)
    (hlt : last < n) :
    ∀ p ∈ g.inputs.map fun a => (last, a), p.1 < n ∧ p.2 < n ∧ p.1 ≠ p.2 := by
  intro p hp
  obtain ⟨a, ha, rfl⟩ := List.mem_map.mp hp
  have := hg.lt_of_mem_inputs ha
  dsimp only
  omega

end Counts

section Steps

omit [Weight W]

theorem need_eq_ok : g.need a r = .ok h ↔
    a < g.opCount ∧ r < g.allocCount ∧ g.attach a r = h := by
  simp only [need, seq_eq_ok, checkOp_eq_ok, checkAlloc_eq_ok, pure_eq_ok]

theorem constrain_eq_ok : g.constrain u v = .ok h ↔
    (u < g.opCount ∧ v < g.opCount ∧ u ≠ v) ∧ g.connect u v = h := by
  simp only [constrain, seq_eq_ok, checkConstraint_eq_ok, pure_eq_ok]

theorem unconstrain_eq_ok : g.unconstrain u v = .ok h ↔
    u < g.opCount ∧ v < g.opCount ∧ g.disconnect u v = h := by
  simp only [unconstrain, seq_eq_ok, checkOp_eq_ok, pure_eq_ok, disconnect]

theorem link_eq_ok : g.link u v = .ok h ↔
    (u < g.opCount ∧ v < g.opCount ∧ u ≠ v) ∧ (∀ b, (g.op u).fwdLink = some b → b = v) ∧
      (∀ a, (g.op v).bwdLink = some a → a = u) ∧ g.join u v = h := by
  simp only [link, seq_eq_ok, checkConstraint_eq_ok, checkLink_eq_ok, pure_eq_ok]

theorem release_eq_ok : g.release a r = .ok h ↔
    a < g.opCount ∧ r < g.allocCount ∧ g.detach a r = h := by
  simp only [release, seq_eq_ok, checkOp_eq_ok, checkAlloc_eq_ok, pure_eq_ok]

end Steps

theorem releaseAll_eq_ok : g.releaseAll r = .ok h ↔
    r < g.allocCount ∧ (g.alloc r).ops.foldl (fun g a => g.detach a r) g = h := by
  simp only [releaseAll, seq_eq_ok, checkAlloc_eq_ok, pure_eq_ok]

theorem reweigh_eq_ok {w : W} : g.reweigh r w = .ok h ↔
    r < g.allocCount ∧ Weight.defect? w = none ∧
      g.modifyAlloc r (fun alloc => { alloc with weight := w }) = h := by
  simp only [reweigh, seq_eq_ok, checkAlloc_eq_ok]
  split
  · next hd => simp [throw_eq_ok, hd]
  · next hd => simp [pure_eq_ok, hd]

theorem allocCount_releaseAll (h' : g.releaseAll r = .ok h) : h.allocCount = g.allocCount := by
  obtain ⟨-, rfl⟩ := releaseAll_eq_ok.mp h'
  exact allocCount_detachAll g _ r

theorem allocCount_reweigh {w : W} (h' : g.reweigh r w = .ok h) : h.allocCount = g.allocCount := by
  obtain ⟨-, -, rfl⟩ := reweigh_eq_ok.mp h'
  exact allocCount_modifyAlloc _

theorem WellFormed.detachAll {as : List Nat} (hg : g.WellFormed) (hr : r < g.allocCount)
    (ha : ∀ a ∈ as, a < g.opCount) : (as.foldl (fun g a => g.detach a r) g).WellFormed := by
  induction as generalizing g with
  | nil => exact hg
  | cons a as ih =>
    refine ih (hg.detach (ha a List.mem_cons_self) hr) (by simpa using hr) fun b hb => ?_
    simpa using ha b (List.mem_cons_of_mem a hb)

theorem Built.wellFormed (hg : g.Built) : g.WellFormed := by
  induction hg with
  | empty => exact .empty
  | addOp name _ ih => exact ih.addOp name
  | addAlloc w _ ih => exact ih.addAlloc w
  | need _ h ih =>
    obtain ⟨ha, hr, rfl⟩ := need_eq_ok.mp h
    exact ih.attach ha hr
  | constrain _ h ih =>
    obtain ⟨⟨hu, hv, hne⟩, rfl⟩ := constrain_eq_ok.mp h
    exact ih.connect hu hv hne
  | unconstrain _ h ih =>
    obtain ⟨hu, hv, rfl⟩ := unconstrain_eq_ok.mp h
    exact ih.disconnect hu hv
  | link _ h ih =>
    obtain ⟨⟨hu, hv, hne⟩, hf, hb, rfl⟩ := link_eq_ok.mp h
    exact ih.join hu hv hne hf hb
  | releaseAll _ h ih =>
    obtain ⟨hr, rfl⟩ := releaseAll_eq_ok.mp h
    exact ih.detachAll hr fun a ha => ih.ops_lt ha
  | release _ h ih =>
    obtain ⟨ha, hr, rfl⟩ := release_eq_ok.mp h
    exact ih.detach ha hr
  | reweigh _ h ih =>
    obtain ⟨hr, _, rfl⟩ := reweigh_eq_ok.mp h
    exact ih.reweigh hr _

namespace Built

theorem connect (hg : g.Built) (hu : u < g.opCount) (hv : v < g.opCount) (hne : u ≠ v) :
    (g.connect u v).Built :=
  hg.constrain (constrain_eq_ok.mpr ⟨⟨hu, hv, hne⟩, rfl⟩)

theorem attach (hg : g.Built) (ha : a < g.opCount) (hr : r < g.allocCount) :
    (g.attach a r).Built :=
  hg.need (need_eq_ok.mpr ⟨ha, hr, rfl⟩)

theorem connectAll {pairs : List (Nat × Nat)} (hg : g.Built)
    (hp : ∀ p ∈ pairs, p.1 < g.opCount ∧ p.2 < g.opCount ∧ p.1 ≠ p.2) :
    (g.connectAll pairs).Built := by
  induction pairs generalizing g with
  | nil => exact hg
  | cons p ps ih =>
    obtain ⟨hu, hv, hne⟩ := hp p List.mem_cons_self
    refine ih (hg.connect hu hv hne) fun q hq => ?_
    simpa using hp q (List.mem_cons_of_mem p hq)

theorem attachAll {as : List Nat} (hg : g.Built) (ha : ∀ a ∈ as, a < g.opCount)
    (hr : r < g.allocCount) : (g.attachAll as r).Built := by
  induction as generalizing g with
  | nil => exact hg
  | cons a as ih =>
    refine ih (hg.attach (ha a List.mem_cons_self) hr) (fun b hb => ?_) (by simpa using hr)
    simpa using ha b (List.mem_cons_of_mem a hb)

theorem attachEach {rs : List Nat} (hg : g.Built) (ha : a < g.opCount)
    (hr : ∀ r ∈ rs, r < g.allocCount) : (rs.foldl (fun g r => g.attach a r) g).Built := by
  induction rs generalizing g with
  | nil => exact hg
  | cons r rs ih =>
    refine ih (hg.attach ha (hr r List.mem_cons_self)) (by simpa using ha) fun q hq => ?_
    simpa using hr q (List.mem_cons_of_mem r hq)

theorem addOps (hg : g.Built) (names : List String) : (g.addOps names).Built := by
  induction names generalizing g with
  | nil => exact hg
  | cons name names ih => exact ih (hg.addOp name)

theorem addOpWith {ins allocs : List Nat} {name : String} (hg : g.Built)
    (h' : g.addOpWith ins allocs name = .ok h) : h.Built := by
  simp only [Graph.addOpWith, seq_eq_ok, checkOps_eq_ok, forM_eq_ok, checkAlloc_eq_ok,
    pure_eq_ok] at h'
  obtain ⟨hi, hr, rfl⟩ := h'
  have hc : ((g.addOp name).connectAll (ins.map fun i => (i, g.opCount))).Built := by
    refine (hg.addOp name).connectAll fun p hp => ?_
    obtain ⟨i, hm, rfl⟩ := List.mem_map.mp hp
    have := hi i hm
    simp only [opCount_addOp]
    omega
  exact hc.attachEach (by simp) (by simpa using hr)

theorem needAll {as : List Nat} (hg : g.Built) (h' : g.needAll as r = .ok h) : h.Built := by
  simp only [Graph.needAll, seq_eq_ok, checkOps_eq_ok, checkAlloc_eq_ok, pure_eq_ok] at h'
  obtain ⟨ha, hr, rfl⟩ := h'
  exact hg.attachAll ha hr

theorem constrainAll {pairs : List (Nat × Nat)} (hg : g.Built)
    (h' : g.constrainAll pairs = .ok h) : h.Built := by
  simp only [Graph.constrainAll, seq_eq_ok, forM_eq_ok, checkConstraint_eq_ok, pure_eq_ok] at h'
  obtain ⟨hp, rfl⟩ := h'
  exact hg.connectAll hp

omit [Weight W] in
theorem bottleneck_inRange {previous : Option Nat} {bin next : List Nat} (name : String)
    (hp : ∀ a ∈ previous, a < g.opCount) (hb : ∀ a ∈ bin, a < g.opCount)
    (hn : ∀ a ∈ next, a < g.opCount) :
    ∀ p ∈ bin.map (fun a => (a, g.opCount)) ++ next.map (fun a => (g.opCount, a)) ++
      previous.toList.map fun a => (a, g.opCount),
      p.1 < (g.addOp name).opCount ∧ p.2 < (g.addOp name).opCount ∧ p.1 ≠ p.2 := by
  intro p hm
  simp only [List.mem_append, List.mem_map, Option.mem_toList] at hm
  rw [opCount_addOp]
  rcases hm with (⟨a, ha, rfl⟩ | ⟨a, ha, rfl⟩) | ⟨a, ha, rfl⟩
  · have := hb a ha
    dsimp only
    omega
  · have := hn a ha
    dsimp only
    omega
  · have := hp a ha
    dsimp only
    omega

theorem addBottleneck {previous : Option Nat} {bin next : List Nat} (hg : g.Built)
    (hp : ∀ a ∈ previous, a < g.opCount) (hb : ∀ a ∈ bin, a < g.opCount)
    (hn : ∀ a ∈ next, a < g.opCount) (name : String) :
    (g.addBottleneck previous bin next name).Built :=
  (hg.addOp name).connectAll (bottleneck_inRange name hp hb hn)

theorem addBottlenecks {stem : String} {bins : List (List Nat)} (hg : g.Built)
    {previous : Option Nat} {i : Nat} (hp : ∀ a ∈ previous, a < g.opCount)
    (hb : ∀ bin ∈ bins, ∀ a ∈ bin, a < g.opCount) :
    (g.addBottlenecks stem previous i bins).1.Built := by
  induction bins generalizing g previous i with
  | nil => exact hg
  | cons bin rest ih =>
    cases rest with
    | nil => exact hg
    | cons next bins =>
      have hbin := hb bin List.mem_cons_self
      have hnext := hb next (List.mem_cons_of_mem bin List.mem_cons_self)
      have hk := hg.addBottleneck hp hbin hnext (stem ++ s!"{i}")
      have hc : (g.addBottleneck previous bin next (stem ++ s!"{i}")).opCount = g.opCount + 1 := by
        simp [Graph.addBottleneck]
      refine ih hk (fun a ha => ?_) fun b hm a ha => ?_
      · obtain rfl : g.opCount = a := Option.some.inj ha
        omega
      · have := hb b (List.mem_cons_of_mem bin hm) a ha
        omega

theorem separateBins {bins : List (List Nat)} {stem : String} {necks : List Nat} (hg : g.Built)
    (h' : g.separateBins bins stem = .ok (h, necks)) : h.Built := by
  simp only [Graph.separateBins, seq_eq_ok, checkOps_eq_ok, pure_eq_ok] at h'
  obtain ⟨hb, he⟩ := h'
  have hbuilt : (g.addBottlenecks stem none 0 bins).1.Built :=
    hg.addBottlenecks (by simp) fun bin hm a ha => hb a (List.mem_flatten.mpr ⟨bin, hm, ha⟩)
  rwa [he] at hbuilt

theorem addAttraction {b : Nat} (hg : g.Built) (ha : a < g.opCount) (hb : b < g.opCount) (w : W) :
    (g.addAttraction w a b).Built := by
  refine ((hg.addAlloc w).attach ?_ ?_).attach ?_ ?_ <;> simp [ha, hb]

theorem attract {pairs : List (Nat × Nat)} {w : W} {rs : List Nat} (hg : g.Built)
    (h' : g.attract pairs w = .ok (h, rs)) : h.Built := by
  simp only [Graph.attract, seq_eq_ok, forM_eq_ok, checkOp_eq_ok, pure_eq_ok, Prod.mk.injEq] at h'
  obtain ⟨hp, rfl, -⟩ := h'
  induction pairs generalizing g with
  | nil => exact hg
  | cons p ps ih =>
    obtain ⟨ha, hb⟩ := hp p List.mem_cons_self
    refine ih (hg.addAttraction ha hb w) fun q hq => ?_
    simpa [Graph.addAttraction] using hp q (List.mem_cons_of_mem p hq)

omit [Weight W] in
theorem chain_inRange {chain : List Nat} (hc : chain.Pairwise (· < ·))
    (hlt : ∀ a ∈ chain, a < g.opCount) :
    ∀ p ∈ chain.zip (chain.drop 1), p.1 < g.opCount ∧ p.2 < g.opCount ∧ p.1 ≠ p.2 := by
  intro p hp
  obtain ⟨i, hi, rfl⟩ := List.mem_iff_getElem.mp hp
  simp only [List.length_zip, List.length_drop] at hi
  simp only [List.getElem_zip, List.getElem_drop]
  have hne := List.pairwise_iff_getElem.mp hc i (1 + i) (by omega) (by omega) (by omega)
  exact ⟨hlt _ (List.getElem_mem _), hlt _ (List.getElem_mem _), Nat.ne_of_lt hne⟩

theorem connectChain {chain : List Nat} (hg : g.Built) (hc : chain.Pairwise (· < ·))
    (hlt : ∀ a ∈ chain, a < g.opCount) : (g.connectChain chain).Built :=
  hg.connectAll (chain_inRange hc hlt)

section Attractors

variable {k : Graph (Tiered Float)}

theorem addAttractor (hk : k.Built) (ha : a < k.opCount) (w : Tiered Float) :
    (k.addAttractor a w).Built := by
  refine (((hk.addAlloc w).addOp _).attach ?_ ?_).attach ?_ ?_
  all_goals simp
  all_goals omega

theorem opCount_addAttractor (a : Nat) (w : Tiered Float) :
    (k.addAttractor a w).opCount = k.opCount + 1 := by
  simp [Graph.addAttractor]

theorem addAttractors {items : List (Nat × Tiered Float)} (hk : k.Built)
    (hi : ∀ p ∈ items, p.1 < k.opCount) :
    (k.addAttractors items).1.Built ∧ k.opCount ≤ (k.addAttractors items).1.opCount ∧
      (k.addAttractors items).2.Pairwise (· < ·) ∧
      ∀ a ∈ (k.addAttractors items).2, k.opCount ≤ a ∧ a < (k.addAttractors items).1.opCount := by
  induction items generalizing k with
  | nil => exact ⟨hk, Nat.le_refl _, List.Pairwise.nil, by simp [Graph.addAttractors]⟩
  | cons p ps ih =>
    have hps : ∀ q ∈ ps, q.1 < k.opCount := fun q hq => hi q (List.mem_cons_of_mem p hq)
    unfold Graph.addAttractors
    split
    · exact ih hk hps
    · have hc := opCount_addAttractor (k := k) p.1 p.2
      obtain ⟨hb, hle, hs, hm⟩ := ih (hk.addAttractor (hi p List.mem_cons_self) p.2) fun q hq =>
        Nat.lt_of_lt_of_le (hps q hq) (by omega)
      dsimp only
      refine ⟨hb, by omega, List.pairwise_cons.mpr ⟨fun a ha => ?_, hs⟩, fun a ha => ?_⟩
      · have := (hm a ha).1
        omega
      · rcases List.mem_cons.mp ha with rfl | ha
        · omega
        · have := hm a ha
          omega

/-- An accepted call leaves the graph as it is, or adds attractors for some of its Ops: they form a
chain, and its last one comes before all Ops that had nothing before them. -/
theorem attractToStart_cases {h : Graph (Tiered Float)} {as attractors : List Nat}
    {priorities : List Decimal.Signed} {tier : Int} {step : Float}
    (h' : k.attractToStart as priorities tier step = .ok (h, attractors)) :
    h = k ∧ attractors = [] ∨ ∃ items, (∀ p ∈ items, p.1 < k.opCount) ∧
      attractors = (k.addAttractors items).2 ∧
      h = ((k.addAttractors items).1.connectChain attractors).connectAll
        (attractors.getLast?.toList.flatMap fun last => k.inputs.map fun a => (last, a)) := by
  unfold Graph.attractToStart at h'
  simp only [throwIf_bind_eq_ok, seq_eq_ok, checkOps_eq_ok] at h'
  obtain ⟨-, -, ha, h'⟩ := h'
  split at h'
  · simp only [pure_eq_ok, Prod.mk.injEq] at h'
    exact .inl ⟨h'.1.symm, h'.2.symm⟩
  generalize hw : as.zip _ = items at h'
  refine .inr ⟨items, ?_, ?_⟩
  · rw [← hw]
    rintro ⟨a, w⟩ hp
    exact ha a (List.of_mem_zip hp).1
  · split at h'
    · next hlast =>
      simp only [pure_eq_ok, Prod.mk.injEq] at h'
      obtain ⟨rfl, rfl⟩ := h'
      exact ⟨rfl, by rw [hlast]; rfl⟩
    · next last hlast =>
      simp only [pure_eq_ok, Prod.mk.injEq] at h'
      obtain ⟨rfl, rfl⟩ := h'
      exact ⟨rfl, by rw [hlast]; simp⟩

theorem attractToStart {h : Graph (Tiered Float)} {as attractors : List Nat}
    {priorities : List Decimal.Signed} {tier : Int} {step : Float} (hk : k.Built)
    (h' : k.attractToStart as priorities tier step = .ok (h, attractors)) : h.Built := by
  rcases attractToStart_cases h' with ⟨rfl, -⟩ | ⟨items, hi, rfl, rfl⟩
  · exact hk
  · obtain ⟨hb, hle, hs, hm⟩ := hk.addAttractors hi
    have hc := hb.connectChain hs fun a ha => (hm a ha).2
    refine hc.connectAll fun p hp => ?_
    obtain ⟨last, hlast, hp⟩ := List.mem_flatMap.mp hp
    have hlast := hm last (List.mem_of_getLast? (Option.mem_toList.mp hlast))
    rw [opCount_connectChain]
    exact hk.wellFormed.toOrdered.inputs_inRange hlast.1 hlast.2 p hp

end Attractors

end Built

section TwoChains

open Numbers

/-- Two chains of two Ops. Each chain has an Alloc of its own, and a third one is needed by
the last Op of the first chain and the first Op of the second. -/
def twoChains : Graph (Tiered Int) :=
  let chains := (empty.addOps ["a", "b", "c", "d"]).connectAll [(0, 1), (2, 3)]
  let weighed := ((chains.addAlloc (.onTier 10 0)).addAlloc (.onTier 10 0)).addAlloc (.onTier 1 0)
  ((weighed.attachAll [2, 3] 0).attachAll [0, 1] 1).attachAll [1, 2] 2

/-- The two chains with the Ops of the first one linked. -/
def linkedChains : Graph (Tiered Int) := twoChains.join 0 1

theorem twoChains_built : twoChains.Built := by
  have hchains : ((empty.addOps ["a", "b", "c", "d"]).connectAll [(0, 1), (2, 3)] :
      Graph (Tiered Int)).Built := (Built.empty.addOps _).connectAll (by decide)
  have hweighed := ((hchains.addAlloc (.onTier 10 0)).addAlloc (.onTier 10 0)).addAlloc
    (.onTier 1 0)
  exact ((hweighed.attachAll (by decide) (by decide)).attachAll (by decide) (by decide)).attachAll
    (by decide) (by decide)

theorem linkedChains_built : linkedChains.Built :=
  twoChains_built.link (link_eq_ok.mpr ⟨by decide, by decide, by decide, rfl⟩)

end TwoChains

end Liveness.Graph
