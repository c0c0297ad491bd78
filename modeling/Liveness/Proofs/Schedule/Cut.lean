import Liveness.Proofs.Schedule.Span
import Liveness.Proofs.Weight.Order

/-! # What is carried from place to place

A set of Ops that have been scheduled cuts the Allocs with Ops on both sides, which have to be
carried on. The total liveness of an order is what it carries past each of its places, and the
weight of every Alloc once more. Scheduling an Op adds the Allocs that start with it to what is
carried, and takes out those that end with it.
-/

namespace Liveness.Graph

variable {W : Type} [Weight W] {g : Graph W} {done : Finset Nat} {place : Nat → Nat} {a r k : Nat}

def Cut (g : Graph W) (done : Finset Nat) (r : Nat) : Prop :=
  (∃ a ∈ (g.alloc r).ops, a ∈ done) ∧ ∃ a ∈ (g.alloc r).ops, a ∉ done

def StartsAt (g : Graph W) (done : Finset Nat) (a r : Nat) : Prop :=
  ∀ b ∈ (g.alloc r).ops, b ≠ a → b ∉ done

def EndsAt (g : Graph W) (done : Finset Nat) (a r : Nat) : Prop :=
  ∀ b ∈ (g.alloc r).ops, b ≠ a → b ∈ done

instance : Decidable (g.Cut done r) := inferInstanceAs (Decidable (_ ∧ _))

instance : Decidable (g.StartsAt done a r) := inferInstanceAs (Decidable (∀ _ ∈ _, _))

instance : Decidable (g.EndsAt done a r) := inferInstanceAs (Decidable (∀ _ ∈ _, _))

def firstOps (g : Graph W) (place : Nat → Nat) (k : Nat) : Finset Nat :=
  (Finset.range g.opCount).filter fun a => place a < k

omit [Weight W] in
theorem firstOps_idxOf {order : List Nat} (hp : order.Perm (List.range g.opCount)) (k : Nat) :
    g.firstOps order.idxOf k = (order.take k).toFinset := by
  have hmem : ∀ {a}, a ∈ order ↔ a < g.opCount := hp.mem_iff.trans List.mem_range
  ext a
  rw [List.mem_toFinset, firstOps, Finset.mem_filter, Finset.mem_range]
  constructor
  · rintro ⟨ha, hk⟩
    exact (List.mem_take_iff_idxOf_lt (hmem.mpr ha)).mpr hk
  · intro ha
    have hin := List.mem_of_mem_take ha
    exact ⟨hmem.mp hin, (List.mem_take_iff_idxOf_lt hin).mp ha⟩

theorem cut_firstOps {low high : Nat} (hs : g.Supplied)
    (he : Ends ((g.alloc r).ops.map place) low high) :
    g.Cut (g.firstOps place k) r ↔ low < k ∧ k ≤ high := by
  have hmem : ∀ a ∈ (g.alloc r).ops, (a ∈ g.firstOps place k ↔ place a < k) := fun a ha => by
    simp [firstOps, hs.ops_lt ha]
  constructor
  · rintro ⟨⟨a, ha, hin⟩, b, hb, hout⟩
    rw [hmem a ha] at hin
    rw [hmem b hb] at hout
    have hlow := (he.between _ (List.mem_map_of_mem ha)).1
    have hhigh := (he.between _ (List.mem_map_of_mem hb)).2
    omega
  · rintro ⟨hlow, hhigh⟩
    obtain ⟨a, ha, rfl⟩ := List.mem_map.mp he.low_mem
    obtain ⟨b, hb, rfl⟩ := List.mem_map.mp he.high_mem
    exact ⟨⟨a, ha, (hmem a ha).mpr hlow⟩, b, hb, mt (hmem b hb).mp (Nat.not_lt.mpr hhigh)⟩

theorem cut_insert_of_not_mem (ha : a ∉ (g.alloc r).ops) :
    g.Cut (insert a done) r ↔ g.Cut done r := by
  have hmem : ∀ b ∈ (g.alloc r).ops, (b ∈ insert a done ↔ b ∈ done) := fun b hb =>
    Finset.mem_insert.trans (or_iff_right fun he => ha (he ▸ hb))
  unfold Cut
  constructor
  · rintro ⟨⟨b, hb, hin⟩, c, hc, hout⟩
    exact ⟨⟨b, hb, (hmem b hb).mp hin⟩, c, hc, mt (hmem c hc).mpr hout⟩
  · rintro ⟨⟨b, hb, hin⟩, c, hc, hout⟩
    exact ⟨⟨b, hb, (hmem b hb).mpr hin⟩, c, hc, mt (hmem c hc).mp hout⟩

variable [ExactWeight W]

def carried (g : Graph W) (done : Finset Nat) : W :=
  ∑ r ∈ Finset.range g.allocCount, if g.Cut done r then (g.alloc r).weight else 0

/-- What an Alloc adds when an Op is scheduled after those of the set. -/
def changeOf (g : Graph W) (done : Finset Nat) (a r : Nat) : W :=
  if a ∈ (g.alloc r).ops then
    (if g.StartsAt done a r then (g.alloc r).weight else 0) +
      (if g.EndsAt done a r then -(g.alloc r).weight else 0)
  else 0

def change (g : Graph W) (done : Finset Nat) (a : Nat) : W :=
  ∑ r ∈ Finset.range g.allocCount, g.changeOf done a r

def usedWeight (g : Graph W) : W :=
  ∑ r ∈ Finset.range g.allocCount, if (g.alloc r).ops = [] then 0 else (g.alloc r).weight

/-- An Alloc is live at its first place, and past each cut that it crosses. -/
theorem allocLiveness_eq_cut (hs : g.Supplied) (hp : ∀ a < g.opCount, place a < g.opCount)
    (r : Nat) : g.allocLiveness place r = (if (g.alloc r).ops = [] then 0 else (g.alloc r).weight) +
      ∑ k ∈ Finset.range g.opCount,
        if g.Cut (g.firstOps place k) r then (g.alloc r).weight else 0 := by
  by_cases hne : (g.alloc r).ops = []
  · have hno : ∀ k, ¬ g.Cut (g.firstOps place k) r := by
      rintro k ⟨⟨a, ha, -⟩, -⟩
      rw [hne] at ha
      cases ha
    rw [if_pos hne, Finset.sum_eq_zero fun k _ => if_neg (hno k), add_zero, allocLiveness, hne]
    exact zero_smul Int _
  · obtain ⟨low, high, he⟩ := Ends.exists_of_ne_nil (mt List.map_eq_nil_iff.mp hne)
    have hle := (he.between high he.high_mem).1
    have hhigh : high < g.opCount := by
      obtain ⟨b, hb, rfl⟩ := List.mem_map.mp he.high_mem
      exact hp b (hs.ops_lt hb)
    have hcuts : (Finset.range g.opCount).filter (fun k => g.Cut (g.firstOps place k) r) =
        Finset.Ioc low high := by
      ext k
      rw [Finset.mem_filter, Finset.mem_range, cut_firstOps hs he, Finset.mem_Ioc]
      omega
    rw [if_neg hne, ← Finset.sum_filter, hcuts, Finset.sum_const, Nat.card_Ioc, allocLiveness,
      he.spanOf_eq, natCast_zsmul, add_nsmul, one_nsmul, add_comm]

theorem totalLiveness_eq_carried (hs : g.Supplied) (hp : ∀ a < g.opCount, place a < g.opCount) :
    g.totalLiveness place =
      g.usedWeight + ∑ k ∈ Finset.range g.opCount, g.carried (g.firstOps place k) := by
  unfold carried usedWeight
  rw [totalLiveness_eq, Finset.sum_comm, ← Finset.sum_add_distrib]
  exact Finset.sum_congr rfl fun r _ => allocLiveness_eq_cut hs hp r

theorem cut_insert (ha : a ∈ (g.alloc r).ops) (hn : a ∉ done) (w : W) :
    (if g.Cut (insert a done) r then w else 0) = (if g.Cut done r then w else 0) +
      ((if g.StartsAt done a r then w else 0) + if g.EndsAt done a r then -w else 0) := by
  have hbefore : g.Cut done r ↔ ¬ g.StartsAt done a r := by
    unfold Cut StartsAt
    push Not
    constructor
    · rintro ⟨⟨b, hb, hin⟩, -⟩
      exact ⟨b, hb, fun he => hn (he ▸ hin), hin⟩
    · rintro ⟨b, hb, -, hin⟩
      exact ⟨⟨b, hb, hin⟩, a, ha, hn⟩
  have hafter : g.Cut (insert a done) r ↔ ¬ g.EndsAt done a r := by
    unfold Cut EndsAt
    push Not
    simp only [Finset.mem_insert, not_or]
    constructor
    · rintro ⟨-, b, hb, hne, hout⟩
      exact ⟨b, hb, hne, hout⟩
    · rintro ⟨b, hb, hne, hout⟩
      exact ⟨⟨a, ha, .inl rfl⟩, b, hb, hne, hout⟩
  by_cases hs : g.StartsAt done a r <;> by_cases he : g.EndsAt done a r <;>
    simp [hbefore, hafter, hs, he]

theorem carried_insert (hn : a ∉ done) :
    g.carried (insert a done) = g.carried done + g.change done a := by
  unfold carried change
  rw [← Finset.sum_add_distrib]
  refine Finset.sum_congr rfl fun r _ => ?_
  unfold changeOf
  by_cases ha : a ∈ (g.alloc r).ops
  · rw [if_pos ha]
    exact cut_insert ha hn _
  · rw [if_neg ha, add_zero]
    simp only [cut_insert_of_not_mem ha]

/-- What is carried past the places of some Ops that are scheduled one after the other, when those
of the set came before them. -/
def carriedAlong (g : Graph W) (done : Finset Nat) : List Nat → W
  | [] => 0
  | a :: rest => g.carried done + g.carriedAlong (insert a done) rest

theorem carriedAlong_append {first rest : List Nat} : g.carriedAlong done (first ++ rest) =
    g.carriedAlong done first + g.carriedAlong (done ∪ first.toFinset) rest := by
  induction first generalizing done with
  | nil => simp [carriedAlong]
  | cons a first ih =>
    rw [List.cons_append, carriedAlong, carriedAlong, ih, add_assoc, List.toFinset_cons,
      Finset.union_insert, Finset.insert_union]

theorem carriedAlong_eq_sum (order : List Nat) : g.carriedAlong done order =
    ∑ k ∈ Finset.range order.length, g.carried (done ∪ (order.take k).toFinset) := by
  induction order generalizing done with
  | nil => rfl
  | cons a order ih =>
    rw [carriedAlong, ih, List.length_cons, Finset.sum_range_succ']
    simp [add_comm]

/-- The total liveness is what is carried along the order, and each weight once. -/
theorem totalLiveness_eq_carriedAlong {order : List Nat} (hs : g.Supplied)
    (hp : order.Perm (List.range g.opCount)) :
    g.totalLiveness order.idxOf = g.usedWeight + g.carriedAlong ∅ order := by
  have hl : order.length = g.opCount := hp.length_eq.trans List.length_range
  have hplace : ∀ a < g.opCount, order.idxOf a < g.opCount := fun a ha =>
    hl ▸ List.idxOf_lt_length_of_mem (hp.mem_iff.mpr (List.mem_range.mpr ha))
  rw [totalLiveness_eq_carried hs hplace, carriedAlong_eq_sum, hl]
  simp only [firstOps_idxOf hp, Finset.empty_union]

end Liveness.Graph
