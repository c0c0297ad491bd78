import Mathlib.Data.List.Permutation
import Mathlib.Data.Set.Finite.Lemmas
import Liveness.Proofs.Schedule.Trade
import Liveness.Proofs.Graph.Schedulable

/-! # The cheapest orders

There are finitely many valid orders, so one of them costs least. A refined graph has only some
of them. It keeps the least cost when each order of the original graph can be turned into one of
the refined graph, step by step and without a rise of the cost.
-/

namespace Liveness.Graph

variable {W : Type} [Weight W] {g h : Graph W} {order : List Nat}

def costs (g : Graph W) : Set W :=
  {w | ∃ order, g.ValidOrder order ∧ g.totalLiveness order.idxOf = w}

theorem totalLiveness_congr (ha : h.allocs = g.allocs) (placeOf : Nat → Nat) :
    h.totalLiveness placeOf = g.totalLiveness placeOf := by
  unfold totalLiveness
  rw [ha]

theorem Refines.costs_subset (hr : g.Refines h) (ha : h.allocs = g.allocs) :
    h.costs ⊆ g.costs := by
  rintro _ ⟨order, ho, rfl⟩
  exact ⟨order, hr.validOrder ho, (totalLiveness_congr ha _).symm⟩

/-- A graph with the same Allocs, and no further constraints and links than some pairs. -/
structure ExtendedBy (g h : Graph W) (pairs links : List (Nat × Nat)) : Prop where
  opCount : h.opCount = g.opCount
  allocs : h.allocs = g.allocs
  outs : ∀ {a b}, b ∈ (h.op a).outs → b ∈ (g.op a).outs ∨ (a, b) ∈ pairs
  fwdLink : ∀ {a b}, (h.op a).fwdLink = some b → (g.op a).fwdLink = some b ∨ (a, b) ∈ links

namespace ExtendedBy

variable {pairs links : List (Nat × Nat)} {u v : Nat} (he : g.ExtendedBy h pairs links)

include he

omit [Weight W] in
theorem connect (hu : u < h.opCount) (hv : v < h.opCount) (hp : (u, v) ∈ pairs) :
    g.ExtendedBy (h.connect u v) pairs links where
  opCount := (opCount_connect h u v).trans he.opCount
  allocs := he.allocs
  outs hb := by
    rcases (mem_outs_connect hu hv).mp hb with ⟨rfl, rfl⟩ | hb
    · exact .inr hp
    · exact he.outs hb
  fwdLink hb := he.fwdLink ((fwdLink_connect hu hv _).symm.trans hb)

omit [Weight W] in
theorem disconnect (hu : u < h.opCount) (hv : v < h.opCount) :
    g.ExtendedBy (h.disconnect u v) pairs links where
  opCount := (opCount_disconnect h u v).trans he.opCount
  allocs := he.allocs
  outs hb := by
    rw [op_disconnect hu hv] at hb
    dsimp only at hb
    split at hb
    · exact he.outs (List.mem_of_mem_erase hb)
    · exact he.outs hb
  fwdLink hb := he.fwdLink ((fwdLink_disconnect hu hv _).symm.trans hb)

omit [Weight W] in
theorem join (hu : u < h.opCount) (hv : v < h.opCount) (hp : (u, v) ∈ pairs)
    (hl : (u, v) ∈ links) : g.ExtendedBy (h.join u v) pairs links where
  opCount := (opCount_join h u v).trans he.opCount
  allocs := he.allocs
  outs hb := by
    rw [op_join hu hv] at hb
    exact (he.connect hu hv hp).outs hb
  fwdLink hb := by
    rw [op_join hu hv] at hb
    dsimp only at hb
    split at hb
    · next ha =>
      obtain rfl := Option.some.inj hb
      exact .inr (ha ▸ hl)
    · exact he.fwdLink hb

omit [Weight W] in
theorem validOrder (ho : g.ValidOrder order) (hp : ∀ p ∈ pairs, order.idxOf p.1 < order.idxOf p.2)
    (hl : ∀ p ∈ links, order.idxOf p.2 = order.idxOf p.1 + 1) : h.ValidOrder order where
  perm := he.opCount ▸ ho.perm
  before hb := (he.outs hb).elim ho.before (hp _)
  linked hb := (he.fwdLink hb).elim ho.linked (hl _)

end ExtendedBy

variable [ExactWeight W]

theorem exists_isLeast_costs (hs : g.Schedulable) : ∃ m, IsLeast g.costs m := by
  have hfinite : {order | g.ValidOrder order}.Finite :=
    (List.finite_toSet (List.range g.opCount).permutations).subset fun _ ho =>
      List.mem_permutations.mpr ho.perm
  obtain ⟨order, ho, hmin⟩ := Set.exists_min_image _ (fun order => g.totalLiveness order.idxOf)
    hfinite hs
  refine ⟨_, ⟨order, ho, rfl⟩, ?_⟩
  rintro _ ⟨other, hother, rfl⟩
  exact hmin other hother

theorem exists_isLeast_lt (hs : h.Schedulable) (ho : g.ValidOrder order)
    (hdear : ∀ other, h.ValidOrder other →
      g.totalLiveness order.idxOf < h.totalLiveness other.idxOf) :
    ∃ m m', IsLeast g.costs m ∧ IsLeast h.costs m' ∧ m < m' := by
  obtain ⟨m, hm⟩ := exists_isLeast_costs ⟨order, ho⟩
  obtain ⟨_, ⟨other, hother, rfl⟩, hmin⟩ := exists_isLeast_costs hs
  refine ⟨m, _, hm, ⟨⟨other, hother, rfl⟩, hmin⟩, ?_⟩
  exact (hm.2 ⟨order, ho, rfl⟩).trans_lt (hdear other hother)

/-- Orders that are not in shape can be brought into shape step by step, at no cost, if every step
comes nearer. -/
theorem exists_shaped (Shaped : List Nat → Prop) (distance : List Nat → Nat)
    (hstep : ∀ order, g.ValidOrder order → ¬ Shaped order → ∃ next, g.ValidOrder next ∧
      g.totalLiveness next.idxOf ≤ g.totalLiveness order.idxOf ∧ distance next < distance order)
    (ho : g.ValidOrder order) : ∃ last, g.ValidOrder last ∧ Shaped last ∧
      g.totalLiveness last.idxOf ≤ g.totalLiveness order.idxOf := by
  obtain ⟨n, hn⟩ : ∃ n, distance order = n := ⟨_, rfl⟩
  induction n using Nat.strongRecOn generalizing order with
  | ind n ih =>
    by_cases hs : Shaped order
    · exact ⟨order, ho, hs, le_rfl⟩
    · obtain ⟨next, hnext, hle, hlt⟩ := hstep order ho hs
      obtain ⟨last, hlast, hs, hle'⟩ := ih _ (hn ▸ hlt) hnext rfl
      exact ⟨last, hlast, hs, hle'.trans hle⟩

theorem ExtendedBy.isLeast_costs {pairs links : List (Nat × Nat)}
    (he : g.ExtendedBy h pairs links) (hr : g.Refines h) (hs : g.Schedulable)
    (hshape : ∀ order, g.ValidOrder order → ∃ last, g.ValidOrder last ∧
      ((∀ p ∈ pairs, last.idxOf p.1 < last.idxOf p.2) ∧
        ∀ p ∈ links, last.idxOf p.2 = last.idxOf p.1 + 1) ∧
      g.totalLiveness last.idxOf ≤ g.totalLiveness order.idxOf) :
    ∃ m, IsLeast g.costs m ∧ IsLeast h.costs m := by
  have hsub := hr.costs_subset he.allocs
  obtain ⟨m, ⟨order, ho, rfl⟩, hmin⟩ := exists_isLeast_costs hs
  obtain ⟨last, hlast, ⟨hp, hl⟩, hle⟩ := hshape order ho
  have hm : h.totalLiveness last.idxOf ∈ h.costs := ⟨last, he.validOrder hlast hp hl, rfl⟩
  rw [totalLiveness_congr he.allocs] at hm
  have hsame := hle.antisymm (hmin (hsub hm))
  exact ⟨_, ⟨⟨order, ho, rfl⟩, hmin⟩, hsame ▸ hm, fun _ hw => hmin (hsub hw)⟩

end Liveness.Graph
