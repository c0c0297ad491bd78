import Liveness.Proofs.Graph.Attractors
import Liveness.Proofs.Graph.DistinctValues
import Liveness.Proofs.Weight.Tiers

/-! # Weights of attractors

An Op is drawn by the Allocs that it shares with attractors. Each item adds an Alloc of its weight
for its Op and a new attractor, and leaves all other needs as they are. So with the step one an Op is
drawn by as much as there are distinct priorities below its own, unless its priority is overlooked.
-/

namespace Liveness.Graph

open Decimal (Signed)
open Attraction Success

variable {k h : Graph (Tiered Float)} {items : List (Nat × Tiered Float)}
  {as attractors : List Nat} {ps : List Signed} {a b x r : Nat} {tier : Int} {w : Tiered Float}

def drawWeights (h : Graph (Tiered Float)) (attractors : List Nat) (a : Nat) :
    List (Tiered Float) :=
  ((h.op a).allocs.filter fun r => (h.alloc r).ops.any attractors.contains).map fun r =>
    (h.alloc r).weight

section Needs

variable {W : Type} {g : Graph W}

theorem allocs_modifyOp {f : Op → Op} (hf : ∀ o, (f o).allocs = o.allocs) :
    ((g.modifyOp a f).op x).allocs = (g.op x).allocs := by
  simp only [op, modifyOp, Array.getD_eq_getD_getElem?, Array.getElem?_modify]
  split
  · cases g.ops[x]? with
    | none => rfl
    | some o => exact hf o
  · rfl

theorem allocs_connectAll (pairs : List (Nat × Nat)) :
    ((g.connectAll pairs).op x).allocs = (g.op x).allocs := by
  induction pairs generalizing g with
  | nil => rfl
  | cons p ps ih =>
    refine (ih (g := g.connect p.1 p.2)).trans ?_
    exact (allocs_modifyOp (by intro _; rfl)).trans (allocs_modifyOp (by intro _; rfl))

end Needs

section Attractor

theorem alloc_addAttractor (ha : a < k.opCount) (w : Tiered Float) (r : Nat) :
    (k.addAttractor a w).alloc r =
      if r = k.allocCount then ⟨r, w, [a, k.opCount]⟩ else k.alloc r := by
  rw [addAttractor, alloc_attach (by simp), alloc_attach (by simp), alloc_addOp, alloc_addAlloc]
  split
  · simp [Alloc.unused, Ascending.insert, ha]
  · rfl

theorem allocs_addAttractor (hk : k.WellFormed) (ha : a < k.opCount) (hx : x < k.opCount)
    (w : Tiered Float) : ((k.addAttractor a w).op x).allocs =
      if x = a then (k.op x).allocs ++ [k.allocCount] else (k.op x).allocs := by
  rw [addAttractor, op_attach (by simp; omega), op_attach (by simp)]
  dsimp only
  rw [op_addOp, opCount_addAlloc, if_neg hx.ne, op_addAlloc, if_neg hx.ne,
    Ascending.insert_eq_append fun r hr => hk.lt_of_mem_allocs hr]

theorem allocCount_addAttractor (a : Nat) (w : Tiered Float) :
    (k.addAttractor a w).allocCount = k.allocCount + 1 := by
  simp [addAttractor]

end Attractor

/-- Each item that has a weight brings an Alloc of this weight to its Op, which shares it with an
attractor. The Allocs that were there are as before. -/
structure Drawn (k h : Graph (Tiered Float)) (attractors : List Nat)
    (items : List (Nat × Tiered Float)) : Prop where
  alloc : ∀ r < k.allocCount, h.alloc r = k.alloc r
  allocs : ∀ a < k.opCount, ∃ rs, (h.op a).allocs = (k.op a).allocs ++ rs ∧
    (∀ r ∈ rs, ∃ x ∈ attractors, (h.alloc r).ops = [a, x]) ∧
    rs.map (fun r => (h.alloc r).weight) =
      (items.filter fun p => p.1 = a ∧ p.2.isZero = false).map Prod.snd

theorem Drawn.cons (hk : k.Built) (ha : a < k.opCount) (hw : w.isZero = false)
    (hd : Drawn (k.addAttractor a w) h attractors items) :
    Drawn k h (k.opCount :: attractors) ((a, w) :: items) := by
  have hcount := allocCount_addAttractor (k := k) a w
  have hops := Built.opCount_addAttractor (k := k) a w
  have hnew : h.alloc k.allocCount = ⟨k.allocCount, w, [a, k.opCount]⟩ := by
    rw [hd.alloc _ (by omega), alloc_addAttractor ha, if_pos rfl]
  refine ⟨fun r hr => ?_, fun b hb => ?_⟩
  · rw [hd.alloc r (by omega), alloc_addAttractor ha, if_neg hr.ne]
  · obtain ⟨rs, hallocs, hshared, hweights⟩ := hd.allocs b (by omega)
    have hshared : ∀ r ∈ rs, ∃ x ∈ k.opCount :: attractors, (h.alloc r).ops = [b, x] :=
      fun r hr => (hshared r hr).imp fun x hx => ⟨List.mem_cons_of_mem _ hx.1, hx.2⟩
    rw [allocs_addAttractor hk.wellFormed ha hb] at hallocs
    by_cases hba : b = a
    · subst hba
      rw [if_pos rfl, List.append_assoc] at hallocs
      refine ⟨k.allocCount :: rs, hallocs, List.forall_mem_cons.mpr ⟨?_, hshared⟩, ?_⟩
      · exact ⟨k.opCount, List.mem_cons_self, by rw [hnew]⟩
      · rw [List.map_cons, hnew, hweights, List.filter_cons_of_pos (by simp [hw]), List.map_cons]
    · rw [if_neg hba] at hallocs
      refine ⟨rs, hallocs, hshared, ?_⟩
      rw [hweights, List.filter_cons_of_neg (by simp [Ne.symm hba])]

theorem Built.addAttractors_drawn (hk : k.Built) (hi : ∀ p ∈ items, p.1 < k.opCount) :
    Drawn k (k.addAttractors items).1 (k.addAttractors items).2 items := by
  induction items generalizing k with
  | nil => exact ⟨fun _ _ => rfl, fun a _ => ⟨[], (List.append_nil _).symm, by simp, rfl⟩⟩
  | cons p ps ih =>
    obtain ⟨hp, hps⟩ := List.forall_mem_cons.mp hi
    unfold Graph.addAttractors
    split
    · next hz =>
      obtain ⟨halloc, hallocs⟩ := ih hk hps
      refine ⟨halloc, fun a ha => ?_⟩
      rw [List.filter_cons_of_neg (by simp [hz])]
      exact hallocs a ha
    · next hz =>
      refine Drawn.cons hk hp (Bool.not_eq_true _ ▸ hz) (ih (hk.addAttractor hp p.2) fun q hq => ?_)
      rw [Built.opCount_addAttractor]
      exact Nat.lt_succ_of_lt (hps q hq)

theorem Drawn.drawWeights_eq (hd : Drawn k h attractors items) (hk : k.WellFormed)
    (hnew : ∀ x ∈ attractors, k.opCount ≤ x) (ha : a < k.opCount) : h.drawWeights attractors a =
      (items.filter fun p => p.1 = a ∧ p.2.isZero = false).map Prod.snd := by
  obtain ⟨rs, hallocs, hshared, hweights⟩ := hd.allocs a ha
  have hold : (k.op a).allocs.filter (fun r => (h.alloc r).ops.any attractors.contains) = [] := by
    rw [List.filter_eq_nil_iff]
    intro r hr hany
    obtain ⟨x, hx, hc⟩ := List.any_eq_true.mp hany
    rw [hd.alloc r (hk.lt_of_mem_allocs hr)] at hx
    exact (hk.ops_lt hx).not_ge (hnew x (List.contains_iff_mem.mp hc))
  have hrs : rs.filter (fun r => (h.alloc r).ops.any attractors.contains) = rs := by
    rw [List.filter_eq_self]
    intro r hr
    obtain ⟨x, hx, he⟩ := hshared r hr
    simp [he, hx]
  rw [drawWeights, hallocs, List.filter_append, hold, hrs, List.nil_append, hweights]

section Ranks

/-- The weights of an Op whose priority has a given number of distinct ones below it. -/
def rankWeights (tier : Int) (n : Nat) : List (Tiered Float) :=
  if n = 0 then [] else [.onTier (1 * Float.ofNat n) tier]

theorem isZero_rank (ht : Tiered.isTier tier = true) (n : Nat) :
    (Tiered.onTier (1 * Float.ofNat n) tier).isZero = true ↔ n = 0 := by
  rcases Nat.eq_zero_or_pos n with rfl | hpos
  · exact iff_of_true ((Binary64.keyed_ofNat_zero.one_mul_float.isZero_onTier ht).mpr rfl) rfl
  · obtain ⟨k, l, hkl, hk, hl⟩ := Binary64.exists_keyed_ofNat_lt hpos (by decide)
    have h0 := hk.unique Binary64.keyed_ofNat_zero
    rw [hl.one_mul_float.isZero_onTier ht]
    omega

/-- More distinct priorities below make a strictly larger weight, with an Op without a weight
counted as one of weight zero. -/
theorem rankWeights_lt (ht : Tiered.isTier tier = true) {m n : Nat} (hmn : m < n)
    (hm : m < 2 ^ 53) :
    Weight.lt ((rankWeights tier m).headD 0) ((rankWeights tier n).headD 0) = true := by
  obtain ⟨k, l, hkl, hk, hl⟩ := Binary64.exists_keyed_ofNat_lt hmn hm
  have hn : rankWeights tier n = [.onTier (1 * Float.ofNat n) tier] := if_neg (by omega)
  rw [hn, List.headD_cons]
  rcases Nat.eq_zero_or_pos m with rfl | hpos
  · have h0 := hk.unique Binary64.keyed_ofNat_zero
    have hzero : (rankWeights tier 0).headD 0 = Tiered.onTier 0 tier := (Tiered.onTier_zero tier).symm
    rw [hzero, Binary64.keyed_zero.lt_onTier hl.one_mul_float ht]
    omega
  · have hw : rankWeights tier m = [.onTier (1 * Float.ofNat m) tier] := if_neg (by omega)
    rwa [hw, List.headD_cons, hk.one_mul_float.lt_onTier hl.one_mul_float ht]

end Ranks

section Call

theorem filter_zip_map {α β : Type} {f : α → β} {P : β → Bool} {ps : List α} {p : α}
    (hn : as.Nodup) (h : (a, p) ∈ as.zip ps) :
    ((as.zip (ps.map f)).filter fun q => q.1 = a ∧ P q.2 = false).map Prod.snd =
      if P (f p) then [] else [f p] := by
  induction as generalizing ps with
  | nil => cases h
  | cons b bs ih =>
    cases ps with
    | nil => cases h
    | cons q qs =>
      obtain ⟨hb, hbs⟩ := List.nodup_cons.mp hn
      rw [List.map_cons, List.zip_cons_cons]
      rcases List.mem_cons.mp h with he | hm
      · obtain ⟨rfl, rfl⟩ := Prod.mk.inj he
        have hrest : (bs.zip (qs.map f)).filter (fun r => r.1 = a ∧ P r.2 = false) = [] := by
          rw [List.filter_eq_nil_iff]
          intro r hr hc
          have := (of_decide_eq_true hc).1 ▸ (List.of_mem_zip hr).1
          exact hb this
        rw [List.filter_cons, hrest]
        cases P (f p) <;> simp
      · have hne : b ≠ a := fun he => hb (he ▸ (List.of_mem_zip hm).1)
        rw [List.filter_cons_of_neg (by simp [hne]), ih hbs hm]

/-- A call for Ops of the graph is accepted. With several distinct priorities it adds the attractors
and then nothing but constraints. -/
theorem attractToStart_eq_ok {step : Float} (ha : ∀ a ∈ as, a < k.opCount)
    (hl : as.length = ps.length) (ht : Tiered.isTier tier = true)
    (hitems : items = as.zip (ps.map fun p =>
      Tiered.onTier (step * Float.ofNat (indexAmong (distinct ps) p)) tier)) :
    (distinct ps).length ≤ 1 ∧ k.attractToStart as ps tier step = .ok (k, []) ∨
      ∃ pairs, k.attractToStart as ps tier step =
        .ok ((k.addAttractors items).1.connectAll pairs, (k.addAttractors items).2) := by
  have hchecked : k.checkOps as = .ok () := checkOps_eq_ok.mpr ha
  unfold attractToStart
  simp only [hl, ht, hchecked, ne_eq, not_true_eq_false, if_false, Bool.not_true,
    Bool.false_eq_true]
  by_cases hd : (distinct ps).length ≤ 1
  · exact .inl ⟨hd, by rw [if_pos hd]; rfl⟩
  · refine .inr ?_
    rw [if_neg hd, ← hitems]
    cases (k.addAttractors items).2.getLast? with
    | none => exact ⟨_, rfl⟩
    | some last =>
      refine ⟨(k.addAttractors items).2.zip ((k.addAttractors items).2.drop 1) ++
        k.inputs.map fun a => (last, a), ?_⟩
      rw [connectAll, List.foldl_append]
      rfl

theorem drawWeights_connectAll (pairs : List (Nat × Nat)) :
    (k.connectAll pairs).drawWeights attractors a = k.drawWeights attractors a := by
  simp only [drawWeights, allocs_connectAll, alloc_connectAll]

/-- Each Op is drawn by the index of its priority among the distinct ones. -/
theorem Built.attractToStart_draws (hk : k.Built) (hn : as.Nodup) (ha : ∀ a ∈ as, a < k.opCount)
    (hl : as.length = ps.length) (hp : ∀ p ∈ ps, p.IsNumber) (ht : Tiered.isTier tier = true) :
    ∃ h attractors, k.attractToStart as ps tier 1 = .ok (h, attractors) ∧
      ∀ {a p}, (a, p) ∈ as.zip ps → h.drawWeights attractors a =
        rankWeights tier (indexAmong (distinct ps) p) := by
  have hv := values_distinct hp
  obtain ⟨items, hitems⟩ : ∃ items, items = as.zip (ps.map fun p =>
    Tiered.onTier (1 * Float.ofNat (indexAmong (distinct ps) p)) tier) := ⟨_, rfl⟩
  rcases attractToStart_eq_ok (k := k) ha hl ht hitems with ⟨hd, hcall⟩ | ⟨pairs, hcall⟩
  -- With one value there are no attractors, and no priority has one below it.
  · refine ⟨k, [], hcall, fun {a p} hm => ?_⟩
    have hp' := (List.of_mem_zip hm).2
    have hdraw : k.drawWeights [] a = [] := by simp [drawWeights]
    rw [hdraw, hv.indexAmong_eq hp hp', hv.valuesBelow_eq_zero hp hp' hd, ite_self]
    rfl
  · have hi : ∀ q ∈ items, q.1 < k.opCount := fun q hq =>
      ha q.1 (List.of_mem_zip (hitems ▸ hq)).1
    obtain ⟨-, -, -, hnew⟩ := hk.addAttractors hi
    refine ⟨_, _, hcall, fun {a p} hm => ?_⟩
    rw [drawWeights_connectAll, (hk.addAttractors_drawn hi).drawWeights_eq hk.wellFormed
      (fun x hx => (hnew x hx).1) (ha a (List.of_mem_zip hm).1), hitems,
      filter_zip_map hn hm, rankWeights]
    simp only [isZero_rank ht]

end Call

/-- Ops are drawn as their priorities say: by the number of distinct priorities below their own, with
one exception. A positive zero is overlooked among priorities with a negative zero, and its Op is not
drawn at all. -/
structure FollowsPriorities (h : Graph (Tiered Float)) (attractors as : List Nat)
    (ps : List Signed) (tier : Int) : Prop where
  weights : ∀ {a p}, (a, p) ∈ as.zip ps → h.drawWeights attractors a =
    if overlooked ps p then []
    else rankWeights tier (valuesBelow (ps.map Signed.toFloat) p.toFloat)
  equal : ∀ {a p b q}, (a, p) ∈ as.zip ps → (b, q) ∈ as.zip ps →
    overlooked ps p = overlooked ps q → (p.toFloat == q.toFloat) = true →
    h.drawWeights attractors a = h.drawWeights attractors b
  higher : ∀ {a p b q}, (a, p) ∈ as.zip ps → (b, q) ∈ as.zip ps → overlooked ps q = false →
    p.toFloat < q.toFloat → valuesBelow (ps.map Signed.toFloat) p.toFloat < 2 ^ 53 →
    Weight.lt ((h.drawWeights attractors a).headD 0) ((h.drawWeights attractors b).headD 0) = true
  lowest : ∀ {a p}, (a, p) ∈ as.zip ps → overlooked ps p = false →
    (h.drawWeights attractors a = [] ↔ ∀ q ∈ ps, ¬ q.toFloat < p.toFloat)

theorem attractToStart_follows (hk : k.Built) (hn : as.Nodup) (ha : ∀ a ∈ as, a < k.opCount)
    (hl : as.length = ps.length) (hp : ∀ p ∈ ps, p.IsNumber) (ht : Tiered.isTier tier = true) :
    ∃ h attractors, k.attractToStart as ps tier 1 = .ok (h, attractors) ∧
      FollowsPriorities h attractors as ps tier := by
  obtain ⟨h, attractors, hcall, hdraws⟩ := hk.attractToStart_draws hn ha hl hp ht
  have hmem : ∀ {a p}, (a, p) ∈ as.zip ps → p ∈ ps := fun hm => (List.of_mem_zip hm).2
  have hweights : ∀ {a p}, (a, p) ∈ as.zip ps → h.drawWeights attractors a =
      if overlooked ps p then []
      else rankWeights tier (valuesBelow (ps.map Signed.toFloat) p.toFloat) := by
    intro a p hm
    rw [hdraws hm, (values_distinct hp).indexAmong_eq hp (hmem hm)]
    split <;> rfl
  refine ⟨h, attractors, hcall, hweights, ?_, ?_, ?_⟩
  · intro a p b q hm hm' ho he
    rw [hweights hm, hweights hm', ho, valuesBelow_congr hp (hmem hm) (hmem hm') he]
  · intro a p b q hm hm' ho hlt hbound
    have hbelow := valuesBelow_lt hp (hmem hm) (hmem hm') hlt
    rw [hweights hm, hweights hm', ho]
    cases overlooked ps p with
    | true => exact rankWeights_lt ht (Nat.zero_lt_of_lt hbelow) (by decide)
    | false => exact rankWeights_lt ht hbelow hbound
  · intro a p hm ho
    rw [hweights hm, ho, if_neg Bool.false_ne_true, ← valuesBelow_eq_zero hp (hmem hm), rankWeights]
    split
    · next h0 => exact iff_of_true rfl h0
    · next h0 => exact iff_of_false (List.cons_ne_nil _ _) h0

/-- All doubles that are numbers have a sign and a magnitude. A call for different Ops of the graph,
such doubles as priorities and the step one is accepted, and the weights follow the priorities. -/
theorem attractToStart_ranks {xs : List Float} (hk : k.Built) (hn : as.Nodup)
    (ha : ∀ a ∈ as, a < k.opCount) (hl : as.length = xs.length)
    (hx : ∀ x ∈ xs, x.isNaN = false) (ht : Tiered.isTier tier = true) :
    (∃ ps : List Signed, ps.map Signed.toFloat = xs ∧ ∀ p ∈ ps, p.IsNumber) ∧
    ∀ ps : List Signed, ps.map Signed.toFloat = xs → (∀ p ∈ ps, p.IsNumber) →
      ∃ h attractors, k.attractToStart as ps tier 1 = .ok (h, attractors) ∧
        FollowsPriorities h attractors as ps tier := by
  refine ⟨Signed.exists_isNumbers hx, fun ps hps hp => ?_⟩
  have hl' : as.length = ps.length := by rw [hl, ← hps, List.length_map]
  exact attractToStart_follows hk hn ha hl' hp ht

section ThreeOps

def threeOps : Graph (Tiered Float) := empty.addOps ["a", "b", "c"]

theorem threeOps_built : threeOps.Built := Built.empty.addOps ["a", "b", "c"]

theorem threeOps_ranks : ∃ h attractors,
    threeOps.attractToStart [2, 0, 1] [⟨false, 3⟩, ⟨true, 1⟩, ⟨false, 3⟩] 1 1 = .ok (h, attractors) ∧
      FollowsPriorities h attractors [2, 0, 1] [⟨false, 3⟩, ⟨true, 1⟩, ⟨false, 3⟩] 1 := by
  refine (attractToStart_ranks threeOps_built (by decide) (by decide) rfl ?_ (by decide)).2 _ rfl ?_
  · decide +kernel
  · intro p hp
    simp only [List.mem_cons, List.not_mem_nil, or_false] at hp
    obtain rfl | rfl | rfl := hp <;> exact ⟨by decide +kernel, by decide +kernel⟩

def signedZeros : List Signed := [⟨true, 1⟩, ⟨true, 0⟩, ⟨false, 0⟩]

/-- The zeros are equal, and there is one priority below them. But only the Op of the negative one
is drawn, so that the weights are not those of the numbers of priorities below. -/
theorem signedZeros_overlooked : (∀ p ∈ signedZeros, p.IsNumber) ∧ ∃ h attractors,
    threeOps.attractToStart [0, 1, 2] signedZeros 0 1 = .ok (h, attractors) ∧
      (h.drawWeights attractors 1).length = 1 ∧ h.drawWeights attractors 2 = [] ∧
      ¬ ∀ {a p}, (a, p) ∈ [0, 1, 2].zip signedZeros → h.drawWeights attractors a =
        rankWeights 0 (valuesBelow (signedZeros.map Signed.toFloat) p.toFloat) := by
  have hok : (threeOps.attractToStart [0, 1, 2] signedZeros 0 1).map (fun r =>
      ((r.1.drawWeights r.2 1).length, (r.1.drawWeights r.2 2).length)) = .ok (1, 0) := by
    decide +kernel
  obtain ⟨⟨h, attractors⟩, hcall, he⟩ := Success.map_eq_ok.mp hok
  obtain ⟨h1, h2⟩ := Prod.mk.inj he
  have h2 := List.eq_nil_of_length_eq_zero h2
  refine ⟨?_, h, attractors, hcall, h1, h2, fun hall => ?_⟩
  · intro p hp
    simp only [signedZeros, List.mem_cons, List.not_mem_nil, or_false] at hp
    obtain rfl | rfl | rfl := hp <;> exact ⟨by decide +kernel, by decide +kernel⟩
  · have hbelow : valuesBelow (signedZeros.map Signed.toFloat) (Signed.toFloat ⟨false, 0⟩) = 1 := by
      decide +kernel
    have hz : (2, ⟨false, 0⟩) ∈ [0, 1, 2].zip signedZeros :=
      List.mem_cons_of_mem _ (List.mem_cons_of_mem _ List.mem_cons_self)
    have hdraw := hall hz
    rw [h2, hbelow] at hdraw
    cases hdraw

end ThreeOps

end Liveness.Graph
