import Liveness.Proofs.Schedule.Cut
import Liveness.Proofs.Refinement.Tightening

/-! # Trading places

Bounds on the change of liveness of single Ops add up along any growing sets of Ops that are
closed under constraints. So when Ops trade their places in pairs, and the one that comes earlier
then raises the liveness by at most as much as the other one did, the total liveness does not
rise. The valid orders of a graph have a cheapest one, and such trades show that it survives.
-/

namespace Liveness.Graph

variable {W : Type} [Weight W] {g h : Graph W} {order : List Nat} {done less more : Finset Nat}
  {a b k : Nat}

/-- A set of Ops with every Op that has to come before one of them. -/
def Opening (g : Graph W) (done : Finset Nat) : Prop :=
  ∀ ⦃a b⦄, b ∈ (g.op a).outs → b ∈ done → a ∈ done

omit [Weight W] in
theorem Opening.path (ho : g.Opening done) (hp : g.Path a b) (hb : b ∈ done) : a ∈ done := by
  induction hp with
  | single h => exact ho h hb
  | tail _ h ih => exact ih (ho h hb)

omit [Weight W] in
theorem Opening.inter (hl : g.Opening less) (hm : g.Opening more) : g.Opening (less ∩ more) :=
  fun _ _ h hb => Finset.mem_inter.mpr
    ⟨hl h (Finset.mem_of_mem_inter_left hb), hm h (Finset.mem_of_mem_inter_right hb)⟩

omit [Weight W] in
theorem mem_firstOps {place : Nat → Nat} :
    a ∈ g.firstOps place k ↔ a < g.opCount ∧ place a < k := by
  simp [firstOps]

omit [Weight W] in
theorem ValidOrder.opening (ho : g.ValidOrder order) (k : Nat) :
    g.Opening (g.firstOps order.idxOf k) := by
  intro a b h hb
  have := ho.before h
  have := (mem_firstOps.mp hb).2
  exact mem_firstOps.mpr ⟨lt_of_mem_outs h, by omega⟩

omit [Weight W] in
theorem ValidOrder.insert_firstOps (ho : g.ValidOrder order) (ha : a < g.opCount) :
    insert a (g.firstOps order.idxOf (order.idxOf a)) =
      g.firstOps order.idxOf (order.idxOf a + 1) := by
  ext x
  rw [Finset.mem_insert, mem_firstOps, mem_firstOps]
  constructor
  · rintro (rfl | ⟨hx, hlt⟩)
    · exact ⟨ha, Nat.lt_succ_self _⟩
    · exact ⟨hx, Nat.lt_succ_of_lt hlt⟩
  · rintro ⟨hx, hlt⟩
    rcases Nat.lt_succ_iff_lt_or_eq.mp hlt with hlt | he
    · exact .inr ⟨hx, hlt⟩
    · exact .inl ((List.idxOf_inj (ho.mem_iff.mpr hx)).mp he)

theorem idxOf_map_involutive {σ : Nat → Nat} (hσ : Function.Involutive σ) (order : List Nat)
    (a : Nat) : (order.map σ).idxOf a = order.idxOf (σ a) := by
  induction order with
  | nil => rfl
  | cons x order ih =>
    simp only [List.map_cons, List.idxOf_cons, ih, beq_eq_decide, hσ.eq_iff]

omit [Weight W] in
theorem ValidOrder.lt_iff_of_map {σ : Nat → Nat} (hσ : Function.Injective σ)
    (ho : g.ValidOrder order) (ho' : g.ValidOrder (order.map σ)) (a : Nat) :
    σ a < g.opCount ↔ a < g.opCount := by
  rw [← ho'.mem_iff, ← ho.mem_iff, List.mem_map_of_injective hσ]

omit [Weight W] in
/-- Without links, an order in which Ops have traded places is valid if it keeps constraints. -/
theorem ValidOrder.trade {σ : Nat → Nat} (ho : g.ValidOrder order)
    (hn : g.Unlinked) (hσ : Function.Involutive σ) (hlt : ∀ a < g.opCount, σ a < g.opCount)
    (hf : ∀ ⦃a b⦄, b ∈ (g.op a).outs → order.idxOf (σ a) < order.idxOf (σ b)) :
    g.ValidOrder (order.map σ) where
  perm := by
    have hnodup := (ho.perm.nodup_iff.mpr List.nodup_range).map hσ.injective
    refine perm_range hnodup ?_ fun x hx => ?_
    · rw [List.length_map, ho.perm.length_eq, List.length_range]
    · obtain ⟨a, ha, rfl⟩ := List.mem_map.mp hx
      exact hlt a (ho.mem_iff.mp ha)
  before h := by
    rw [idxOf_map_involutive hσ, idxOf_map_involutive hσ]
    exact hf h
  linked h := by
    rw [hn] at h
    cases h

/-- The places of the Ops, each as often as its rank says. -/
def rankedPlaces (g : Graph W) (rank : Nat → Nat) (order : List Nat) : Nat :=
  ∑ a ∈ Finset.range g.opCount, rank a * order.idxOf a

omit [Weight W] in
/-- Trades that bring Ops of higher rank forward lower the sum of the ranked places. -/
theorem rankedPlaces_lt {σ rank : Nat → Nat} (hσ : Function.Involutive σ)
    (ho : g.ValidOrder order) (ho' : g.ValidOrder (order.map σ))
    (hrank : ∀ a, order.idxOf (σ a) < order.idxOf a → rank (σ a) < rank a)
    (hex : ∃ a < g.opCount, order.idxOf (σ a) < order.idxOf a) :
    g.rankedPlaces rank (order.map σ) < g.rankedPlaces rank order := by
  have hlt : ∀ a ∈ Finset.range g.opCount, σ a ∈ Finset.range g.opCount := fun a ha =>
    Finset.mem_range.mpr ((ho.lt_iff_of_map hσ.injective ho' a).mpr (Finset.mem_range.mp ha))
  have hpair : ∀ f : Nat → Nat, ∑ a ∈ Finset.range g.opCount, f (σ a) =
      ∑ a ∈ Finset.range g.opCount, f a := fun f =>
    Finset.sum_nbij' σ σ hlt hlt (fun a _ => hσ a) (fun a _ => hσ a) fun _ _ => rfl
  have hone : ∀ {a}, order.idxOf (σ a) < order.idxOf a →
      rank a * order.idxOf (σ a) + rank (σ a) * order.idxOf a <
        rank a * order.idxOf a + rank (σ a) * order.idxOf (σ a) := fun {a} h => by
    have := mul_add_mul_lt_mul_add_mul (hrank a h) h
    omega
  -- each trade is counted at both of its Ops
  have hboth : ∑ a ∈ Finset.range g.opCount,
        (rank a * order.idxOf (σ a) + rank (σ a) * order.idxOf a) <
      ∑ a ∈ Finset.range g.opCount,
        (rank a * order.idxOf a + rank (σ a) * order.idxOf (σ a)) := by
    refine Finset.sum_lt_sum (fun a _ => ?_) ?_
    · rcases Nat.lt_trichotomy (order.idxOf (σ a)) (order.idxOf a) with h | h | h
      · exact (hone h).le
      · rw [h]
      · have := hone (a := σ a) (by rwa [hσ])
        rw [hσ] at this
        omega
    · obtain ⟨a, ha, h⟩ := hex
      exact ⟨a, Finset.mem_range.mpr ha, hone h⟩
  have hafter := hpair fun a => rank a * order.idxOf (σ a)
  have hbefore := hpair fun a => rank a * order.idxOf a
  simp only [show ∀ a, σ (σ a) = a from hσ] at hafter
  rw [Finset.sum_add_distrib, Finset.sum_add_distrib, hafter, hbefore] at hboth
  unfold rankedPlaces
  simp only [idxOf_map_involutive hσ]
  omega

variable [ExactWeight W]

/-- Every Op changes what is carried within its bounds, whatever came before it. -/
def BoundedBy (g : Graph W) (lower upper : Nat → W) : Prop :=
  ∀ ⦃done a⦄, g.Opening done → g.Opening (insert a done) → a ∉ done → a < g.opCount →
    lower a ≤ g.change done a ∧ g.change done a ≤ upper a

namespace BoundedBy

variable {lower upper : Nat → W} (hb : g.BoundedBy lower upper)

include hb

theorem change_within (ho : g.ValidOrder order) (ha : a < g.opCount) :
    lower a ≤ g.change (g.firstOps order.idxOf (order.idxOf a)) a ∧
      g.change (g.firstOps order.idxOf (order.idxOf a)) a ≤ upper a :=
  hb (ho.opening _) (ho.insert_firstOps ha ▸ ho.opening _) (fun h => by simp [mem_firstOps] at h) ha

theorem lower_le_upper (ho : g.ValidOrder order) (ha : a < g.opCount) : lower a ≤ upper a :=
  (hb.change_within ho ha).1.trans (hb.change_within ho ha).2

theorem carried_le (ha : g.Acyclic) (hl : g.Opening less) (hm : g.Opening more) (hs : less ⊆ more)
    (hlt : ∀ a ∈ more, a < g.opCount) :
    g.carried less + ∑ a ∈ more \ less, lower a ≤ g.carried more ∧
      g.carried more ≤ g.carried less + ∑ a ∈ more \ less, upper a := by
  obtain ⟨f, hf⟩ := ha
  obtain ⟨n, hn⟩ : ∃ n, (more \ less).card = n := ⟨_, rfl⟩
  induction n generalizing less with
  | zero =>
    have he := Finset.card_eq_zero.mp hn
    obtain rfl := hs.antisymm (Finset.sdiff_eq_empty_iff_subset.mp he)
    simp
  | succ n ih =>
    -- an Op of least rank can be next
    obtain ⟨a, ha, hmin⟩ := Finset.exists_min_image (more \ less) f
      (Finset.card_pos.mp (hn ▸ Nat.succ_pos n))
    obtain ⟨hin, hout⟩ := Finset.mem_sdiff.mp ha
    have hnext : g.Opening (insert a less) := by
      intro x y hxy hy
      rcases Finset.mem_insert.mp hy with rfl | hy
      · by_contra hno
        have hno := mt Finset.mem_insert_of_mem hno
        exact Nat.not_lt.mpr (hmin x (Finset.mem_sdiff.mpr ⟨hm hxy hin, hno⟩)) (hf hxy)
      · exact Finset.mem_insert_of_mem (hl hxy hy)
    have hrest : more \ insert a less = (more \ less).erase a := Finset.sdiff_insert ..
    have hcard : (more \ insert a less).card = n := by
      rw [hrest, Finset.card_erase_of_mem ha, hn, Nat.add_sub_cancel]
    obtain ⟨hlow, hhigh⟩ := ih hnext (Finset.insert_subset hin hs) hcard
    obtain ⟨hla, hua⟩ := hb hl hnext hout (hlt a hin)
    rw [carried_insert hout, hrest] at hlow hhigh
    rw [← Finset.add_sum_erase _ _ ha, ← Finset.add_sum_erase _ _ ha, ← add_assoc, ← add_assoc]
    exact ⟨(by gcongr : _ ≤ _).trans hlow, hhigh.trans (by gcongr)⟩

variable {σ : Nat → Nat} (hσ : Function.Involutive σ)

include hσ

theorem carried_le_of_trade (ha : g.Acyclic) (hl : g.Opening less) (hm : g.Opening more)
    (hless : ∀ a ∈ less, a < g.opCount) (hmore : ∀ a ∈ more, a < g.opCount)
    (hmem : ∀ a, a ∈ more ↔ σ a ∈ less) (hle : ∀ a ∈ more \ less, upper a ≤ lower (σ a)) :
    g.carried more ≤ g.carried less := by
  have hmem' : ∀ a, a ∈ less ↔ σ a ∈ more := fun a => by rw [hmem, hσ a]
  have hboth := hl.inter hm
  have hup := (hb.carried_le ha hboth hm Finset.inter_subset_right hmore).2
  have hdown := (hb.carried_le ha hboth hl Finset.inter_subset_left hless).1
  rw [Finset.sdiff_inter_self_right] at hup
  rw [Finset.sdiff_inter_self_left] at hdown
  have hsum : ∑ a ∈ more \ less, lower (σ a) = ∑ a ∈ less \ more, lower a := by
    refine Finset.sum_nbij' σ σ ?_ ?_ (fun a _ => hσ a) (fun a _ => hσ a) (fun _ _ => rfl)
    · intro a ha
      rw [Finset.mem_sdiff, hmem, hmem' a] at ha
      exact Finset.mem_sdiff.mpr ha
    · intro a ha
      rw [Finset.mem_sdiff, hmem, hmem' a] at ha
      exact Finset.mem_sdiff.mpr ha
  calc g.carried more
      ≤ g.carried (less ∩ more) + ∑ a ∈ more \ less, upper a := hup
    _ ≤ g.carried (less ∩ more) + ∑ a ∈ more \ less, lower (σ a) :=
      add_le_add_right (Finset.sum_le_sum hle) _
    _ ≤ g.carried less := hsum ▸ hdown

/-- Trades that bring cheaper Ops forward do not raise the total liveness. -/
theorem totalLiveness_trade (hs : g.Supplied) (ho : g.ValidOrder order)
    (ho' : g.ValidOrder (order.map σ))
    (hle : ∀ a < g.opCount, order.idxOf (σ a) < order.idxOf a → upper a ≤ lower (σ a)) :
    g.totalLiveness (order.map σ).idxOf ≤ g.totalLiveness order.idxOf := by
  have hplace : ∀ a, (order.map σ).idxOf a = order.idxOf (σ a) := idxOf_map_involutive hσ order
  have hmem : ∀ k a, a ∈ g.firstOps (order.map σ).idxOf k ↔ σ a ∈ g.firstOps order.idxOf k :=
    fun k a => by
      rw [mem_firstOps, mem_firstOps, hplace, ho.lt_iff_of_map hσ.injective ho']
  rw [totalLiveness_eq_carried hs fun _ => ho.idxOf_lt,
    totalLiveness_eq_carried hs fun _ => ho'.idxOf_lt]
  refine add_le_add_right (Finset.sum_le_sum fun k _ => ?_) _
  refine hb.carried_le_of_trade hσ ⟨_, ho.before⟩ (ho.opening k) (ho'.opening k)
    (fun _ h => (mem_firstOps.mp h).1) (fun _ h => (mem_firstOps.mp h).1) (hmem k) fun a ha => ?_
  obtain ⟨hin, hout⟩ := Finset.mem_sdiff.mp ha
  obtain ⟨ha, hk⟩ := mem_firstOps.mp hin
  have hlate : ¬ order.idxOf a < k := fun h => hout (mem_firstOps.mpr ⟨ha, h⟩)
  rw [hplace] at hk
  exact hle a ha (by omega)

end BoundedBy

end Liveness.Graph
