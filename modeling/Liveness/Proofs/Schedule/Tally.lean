import Liveness.Proofs.Schedule.Cut
import Liveness.Schedule.Kahn

/-! # Tallies of Allocs

While units are taken one after the other, each Alloc has a count of the units that need it and
are left, and a mark once one of them was taken. The count of an Alloc is positive whenever a unit
that needs it is taken. What a unit adds to what is carried can be read off the counts and marks.
-/

namespace Liveness

variable {W : Type} [Weight W] {g : Graph W} {taken rs l l' : List Nat} {d : Demand} {u q r : Nat}

namespace Graph

def needing (g : Graph W) (taken : List Nat) (r : Nat) : Finset Nat :=
  (Finset.range g.opCount).filter fun u => u ∉ taken ∧ r ∈ (g.op u).allocs

theorem mem_needing (hs : g.Supplied) :
    u ∈ g.needing taken r ↔ u ∉ taken ∧ u ∈ (g.alloc r).ops := by
  rw [needing, Finset.mem_filter, Finset.mem_range, hs.mem_allocs]
  exact and_iff_right_of_imp fun h => hs.ops_lt h.2

omit [Weight W] in
theorem needing_snoc (g : Graph W) (taken : List Nat) (u r : Nat) :
    g.needing (taken ++ [u]) r = (g.needing taken r).erase u := by
  ext v
  simp only [needing, Finset.mem_filter, Finset.mem_erase, List.mem_append, List.mem_singleton]
  tauto

theorem endsAt_iff_card (hs : g.Supplied) (hu : u ∈ g.needing taken r) :
    g.EndsAt taken.toFinset u r ↔ (g.needing taken r).card = 1 := by
  rw [Finset.card_eq_one]
  constructor
  · intro h
    refine ⟨u, Finset.eq_singleton_iff_unique_mem.mpr ⟨hu, fun v hv => ?_⟩⟩
    obtain ⟨hn, hv⟩ := (mem_needing hs).mp hv
    by_contra hne
    exact hn (List.mem_toFinset.mp (h v hv hne))
  · rintro ⟨v, he⟩ b hb hne
    rw [he, Finset.mem_singleton] at hu
    subst hu
    by_contra hn
    have hb' := (mem_needing hs).mpr ⟨mt List.mem_toFinset.mpr hn, hb⟩
    rw [he, Finset.mem_singleton] at hb'
    exact hne hb'

theorem startsAt_iff_forall (hs : g.Supplied) (hu : u ∉ taken) :
    g.StartsAt taken.toFinset u r ↔ ¬ ∃ b ∈ taken, r ∈ (g.op b).allocs := by
  simp only [StartsAt, List.mem_toFinset, not_exists, not_and]
  constructor
  · intro h b hb hr
    exact h b (hs.mem_allocs.mp hr) (fun he => hu (he ▸ hb)) hb
  · intro h b hb _ hm
    exact h b hm (hs.mem_allocs.mpr hb)

end Graph

namespace Demand

structure Tallied (g : Graph W) (taken : List Nat) (d : Demand) : Prop where
  size : d.live.size = g.allocCount
  left : ∀ r, d.left r = (g.needing taken r).card
  live : ∀ r, d.isLive r = true ↔ ∃ u ∈ taken, r ∈ (g.op u).allocs

theorem left_takeNeed (d : Demand) (q r : Nat) :
    (d.takeNeed q).left r = if r = q then d.left r - 1 else d.left r := by
  simp only [left, takeNeed, Array.getD_eq_getD_getElem?, Array.getElem?_modify]
  by_cases hq : q = r
  · subst hq
    cases d.outstanding[q]? <;> simp
  · rw [if_neg hq, if_neg (Ne.symm hq)]

theorem isLive_takeNeed (hq : q < d.live.size) :
    (d.takeNeed q).isLive r = (decide (r = q) || d.isLive r) := by
  simp only [isLive, takeNeed, Array.getD_eq_getD_getElem?, Array.getElem?_setIfInBounds]
  by_cases he : q = r
  · subst he
    simp [hq]
  · simp [he, Ne.symm he]

theorem left_foldl_takeNeed (hn : rs.Nodup) :
    (rs.foldl takeNeed d).left r = if r ∈ rs then d.left r - 1 else d.left r := by
  induction rs generalizing d with
  | nil => simp
  | cons q rs ih =>
    obtain ⟨hq, hn⟩ := List.nodup_cons.mp hn
    rw [List.foldl_cons, ih hn, left_takeNeed]
    by_cases he : r = q
    · subst he
      simp [hq]
    · simp [he]

theorem isLive_foldl_takeNeed (hlt : ∀ q ∈ rs, q < d.live.size) :
    (rs.foldl takeNeed d).isLive r = true ↔ r ∈ rs ∨ d.isLive r = true := by
  induction rs generalizing d with
  | nil => simp
  | cons q rs ih =>
    obtain ⟨hq, hlt⟩ := List.forall_mem_cons.mp hlt
    rw [List.foldl_cons, ih (by simpa [takeNeed] using hlt), isLive_takeNeed hq]
    simp
    tauto

theorem size_live_foldl_takeNeed (d : Demand) (rs : List Nat) :
    (rs.foldl takeNeed d).live.size = d.live.size := by
  induction rs generalizing d with
  | nil => rfl
  | cons q rs ih => simp [ih, takeNeed]

theorem start_tallied (hs : g.Supplied) : (start g).Tallied g [] where
  size := Array.size_replicate
  left r := by
    have hneeding : g.needing [] r = (g.alloc r).ops.toFinset := by
      ext u
      rw [Graph.mem_needing hs, List.mem_toFinset]
      exact and_iff_right List.not_mem_nil
    rw [hneeding, List.toFinset_card_of_nodup (Ascending.nodup_of_pairwise (hs.ops_sorted r))]
    simp only [left, start, Array.getD_eq_getD_getElem?, Array.getElem?_map, Graph.alloc]
    cases g.allocs[r]? <;> rfl
  live r := by
    simp only [isLive, start, Array.getD_eq_getD_getElem?, Array.getElem?_replicate]
    split <;> simp

theorem Tallied.take (h : d.Tallied g taken) (hs : g.Supplied) (hu : u ∉ taken) :
    (d.take g u).Tallied g (taken ++ [u]) where
  size := (size_live_foldl_takeNeed d _).trans h.size
  left r := by
    unfold Demand.take
    rw [left_foldl_takeNeed (Ascending.nodup_of_pairwise (hs.allocs_sorted u)), h.left,
      Graph.needing_snoc]
    split
    · next hr => rw [Finset.card_erase_of_mem ((Graph.mem_needing hs).mpr ⟨hu, hs.mem_allocs.mp hr⟩)]
    · next hr =>
      rw [Finset.erase_eq_of_notMem]
      exact fun hm => hr (hs.mem_allocs.mpr ((Graph.mem_needing hs).mp hm).2)
  live r := by
    have hlt : ∀ q ∈ (g.op u).allocs, q < d.live.size := fun q hq =>
      h.size ▸ Graph.lt_of_mem_ops (hs.mem_allocs.mp hq)
    unfold Demand.take
    rw [isLive_foldl_takeNeed hlt, h.live]
    simp only [List.mem_append, List.mem_singleton, or_and_right, exists_or, exists_eq_left]
    exact or_comm

/-- When a unit that is left is counted as taken, the count of each of its Allocs is positive
before it goes down. -/
theorem Tallied.left_pos (h : d.Tallied g taken) (hs : g.Supplied) (hu : u ∉ taken)
    (ha : (g.op u).allocs = l ++ r :: l') : 0 < (l.foldl takeNeed d).left r := by
  have hn := ha ▸ Ascending.nodup_of_pairwise (hs.allocs_sorted u)
  obtain ⟨hl, -, hd⟩ := List.nodup_append.mp hn
  have hr : r ∉ l := fun hr => hd r hr r List.mem_cons_self rfl
  have hmem : u ∈ g.needing taken r :=
    (Graph.mem_needing hs).mpr ⟨hu, hs.mem_allocs.mp (ha ▸ by simp)⟩
  rw [left_foldl_takeNeed hl, if_neg hr, h.left]
  exact Finset.card_pos.mpr ⟨u, hmem⟩

variable [ExactWeight W]

theorem Tallied.addChange_eq (h : d.Tallied g taken) (hs : g.Supplied) (hu : u ∉ taken)
    (hr : r ∈ (g.op u).allocs) (w : W) :
    addChange g d w r = w + g.changeOf taken.toFinset u r := by
  have ha := hs.mem_allocs.mp hr
  have hstart := Graph.startsAt_iff_forall hs hu (r := r)
  have hend := Graph.endsAt_iff_card hs ((Graph.mem_needing hs).mpr ⟨hu, ha⟩)
  rw [← h.live] at hstart
  rw [← h.left] at hend
  simp only [addChange, Graph.changeOf, if_pos ha, hstart, hend]
  by_cases hone : d.left r = 1 <;> by_cases hlive : d.isLive r = true <;>
    simp [hone, hlive, sub_eq_add_neg]

theorem Tallied.foldl_addChange (h : d.Tallied g taken) (hs : g.Supplied) (hu : u ∉ taken)
    (hrs : ∀ r ∈ rs, r ∈ (g.op u).allocs) (w : W) :
    rs.foldl (addChange g d) w = w + (rs.map (g.changeOf taken.toFinset u)).sum := by
  induction rs generalizing w with
  | nil => simp
  | cons r rs ih =>
    obtain ⟨hr, hrs⟩ := List.forall_mem_cons.mp hrs
    rw [List.foldl_cons, ih hrs, h.addChange_eq hs hu hr, List.map_cons, List.sum_cons, add_assoc]

theorem Tallied.change_eq (h : d.Tallied g taken) (hs : g.Supplied) (hu : u ∉ taken) :
    d.change g u = g.change taken.toFinset u := by
  have hnodup := Ascending.nodup_of_pairwise (hs.allocs_sorted u)
  unfold Demand.change Graph.change
  rw [h.foldl_addChange hs hu fun r hr => hr, zero_add, ← List.sum_toFinset _ hnodup]
  refine Finset.sum_subset (fun r hr => ?_) fun r _ hr => ?_
  · exact Finset.mem_range.mpr (Graph.lt_of_mem_ops (hs.mem_allocs.mp (List.mem_toFinset.mp hr)))
  · rw [Graph.changeOf, if_neg]
    exact fun ha => hr (List.mem_toFinset.mpr (hs.mem_allocs.mpr ha))

end Demand

end Liveness
