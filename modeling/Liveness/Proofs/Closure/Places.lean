import Liveness.Proofs.Closure.Extremes

/-! # What the closure tells about places

Whatever leads to a node comes before it in every topological order, and in some order nothing
else does. So the number of nodes that lead to it is its earliest place, and counted from the
other end, the number of nodes that it leads to gives the latest one.
-/

namespace Liveness

variable {edges preds : Edges} {order : List Nat} {a i x : Nat}

namespace Edges

def places (edges : Edges) (a : Nat) : Set Nat :=
  {i | ∃ order, edges.Topological order ∧ order.idxOf a = i}

theorem Topological.idxOf_lt (ho : edges.Topological order) (ha : a < edges.size) :
    order.idxOf a < edges.size := by
  have hlt := List.idxOf_lt_length_of_mem (ho.perm.mem_iff.mpr (List.mem_range.mpr ha))
  rwa [ho.perm.length_eq, List.length_range] at hlt

theorem Topological.mem_take_iff (ho : edges.Topological order) :
    x ∈ order.take (order.idxOf a) ↔ x < edges.size ∧ order.idxOf x < order.idxOf a := by
  have hm : x ∈ order ↔ x < edges.size := ho.perm.mem_iff.trans List.mem_range
  constructor
  · intro hx
    have hin := List.mem_of_mem_take hx
    exact ⟨hm.mp hin, (List.mem_take_iff_idxOf_lt hin).mp hx⟩
  · rintro ⟨hx, hlt⟩
    exact (List.mem_take_iff_idxOf_lt (hm.mpr hx)).mpr hlt

theorem Turned.mem_places (ht : edges.Turned preds) (ha : a < edges.size)
    (hi : i ∈ edges.places a) : edges.size - 1 - i ∈ preds.places a := by
  obtain ⟨order, ho, rfl⟩ := hi
  refine ⟨order.reverse, ho.reverse ht, ?_⟩
  rw [idxOf_reverse (ho.perm.nodup_iff.mpr List.nodup_range)
    (ho.perm.mem_iff.mpr (List.mem_range.mpr ha)), ho.perm.length_eq, List.length_range]

/-- The earliest place of a node is the number of nodes that lead to it. -/
theorem isLeast_places {leads : Nat → Nat → Bool} (hr : edges.InRange) (hac : edges.Acyclic)
    (hleads : ∀ x y, leads x y = true ↔ edges.Path x y) (ha : a < edges.size) :
    IsLeast (edges.places a) ((List.range edges.size).filter fun x => leads x a).length := by
  have hn : ((List.range edges.size).filter fun x => leads x a).Nodup :=
    List.nodup_range.filter _
  constructor
  · obtain ⟨order, ho, hfront⟩ := (topologicalOrder_topological hr hac).pull_front hr ha
    refine ⟨order, ho, ?_⟩
    -- in this order only what leads to the node comes before it
    have hperm : (order.take (order.idxOf a)).Perm
        ((List.range edges.size).filter fun x => leads x a) := by
      have ht : (order.take (order.idxOf a)).Nodup :=
        (ho.perm.nodup_iff.mpr List.nodup_range).sublist (List.take_sublist _ _)
      refine (List.perm_ext_iff_of_nodup ht hn).mpr fun x => ?_
      rw [ho.mem_take_iff, List.mem_filter, List.mem_range, hleads]
      refine and_congr_right fun _ => ⟨fun hlt => ?_, ho.path_lt⟩
      by_contra hp
      have := hfront x (fun he => by simp [he] at hlt) hp
      omega
    rw [← hperm.length_eq, List.length_take, ho.perm.length_eq, List.length_range]
    exact (Nat.min_eq_left (ho.idxOf_lt ha).le).symm
  · rintro _ ⟨order, ho, rfl⟩
    have hsub : (List.range edges.size).filter (fun x => leads x a) ⊆
        order.take (order.idxOf a) := by
      intro x hx
      rw [List.mem_filter, List.mem_range, hleads] at hx
      exact ho.mem_take_iff.mpr ⟨hx.1, ho.path_lt hx.2⟩
    exact (List.subperm_of_subset hn hsub).length_le.trans (List.length_take_le _ _)

/-- The latest place of a node leaves room for the nodes that it leads to. -/
theorem isGreatest_places {leads : Nat → Nat → Bool} (hr : edges.InRange) (hac : edges.Acyclic)
    (hleads : ∀ x y, leads x y = true ↔ edges.Path x y) (ha : a < edges.size) :
    IsGreatest (edges.places a)
      (edges.size - ((List.range edges.size).filter fun x => leads a x).length - 1) := by
  have ht := turned_reverse hr
  have hap : a < edges.reverse.size := ht.1 ▸ ha
  have hleast : IsLeast (edges.reverse.places a)
      ((List.range edges.size).filter fun x => leads a x).length := by
    have hpath : ∀ x y, leads y x = true ↔ edges.reverse.Path x y := fun x y =>
      (hleads y x).trans ht.path.symm
    have := isLeast_places ht.symm.inRange (ht.acyclic.mpr hac) hpath hap
    rwa [ht.1] at this
  constructor
  · have hm := ht.symm.mem_places hap hleast.1
    rwa [ht.1, Nat.sub_right_comm] at hm
  · intro i hi
    have hle := hleast.2 (ht.mem_places ha hi)
    obtain ⟨order, ho, rfl⟩ := hi
    have := ho.idxOf_lt ha
    omega

end Edges

namespace Closure

/-- Edges without a cycle have a closure, which gives the earliest and the latest place of every
node: each of them is reached in some topological order and none goes beyond. So the earliest place
is not after the latest one, which is a place of the order: a node leads to fewer nodes than there
are. -/
theorem ofEdges_places (hr : edges.InRange) (hac : edges.Acyclic) :
    ∃ c, Closure.ofEdges edges = .ok c ∧ ∀ a < edges.size,
      IsLeast (edges.places a) (c.earliest a) ∧ IsGreatest (edges.places a) (c.latest a) ∧
        c.earliest a ≤ c.latest a ∧ c.latest a < edges.size ∧
          (Rows.row c.after a).count + 1 ≤ c.size := by
  obtain ⟨c, hc, he⟩ := (ofEdges_eq hr).1 hac
  refine ⟨c, hc, fun a ha => ?_⟩
  have hsize := he.size
  -- the words of a row have no bit beyond the last node
  have hbefore : c.earliest a = ((List.range c.size).filter fun x => c.precedes x a).length :=
    Words.count_eq_filter fun _ hx => hsize ▸ (he.precedes_iff.mp hx).left_lt
  have hafter : (Rows.row c.after a).count =
      ((List.range c.size).filter fun x => Rows.holds c.after a x).length :=
    Words.count_eq_filter fun x hx => hsize ▸ ((he.after.holds_iff a x).mp hx).right_lt hr
  have hleast : IsLeast (edges.places a) (c.earliest a) := by
    have := Edges.isLeast_places hr hac (fun x y => he.precedes_iff) ha
    rwa [← hsize, ← hbefore] at this
  have hgreatest : IsGreatest (edges.places a) (c.latest a) := by
    have := Edges.isGreatest_places hr hac he.after.holds_iff ha
    rwa [← hsize, ← hafter] at this
  obtain ⟨order, ho, hlatest⟩ := hgreatest.1
  have hlt := ho.idxOf_lt ha
  refine ⟨hleast, hgreatest, hleast.2 hgreatest.1, hlatest ▸ hlt, ?_⟩
  -- the node itself is left over
  have hself : ¬ Rows.holds c.after a a = true := fun h => hac a ((he.after.holds_iff a a).mp h)
  have hfew := List.length_filter_lt_length_iff_exists.mpr ⟨a, List.mem_range.mpr (hsize ▸ ha), hself⟩
  rw [hafter]
  rwa [List.length_range] at hfew

/-- In the diamond the node after one of its sides can have either of the last two places, and
its end only the last one. -/
theorem diamond_places : (Edges.diamond.InRange ∧ Edges.diamond.Acyclic) ∧ ∃ c,
    Closure.ofEdges .diamond = .ok c ∧
      IsLeast (Edges.diamond.places 1) 1 ∧ IsGreatest (Edges.diamond.places 1) 2 := by
  have hd : Edges.diamond.InRange ∧ Edges.diamond.Acyclic := Edges.isSchedulable_iff.mp (by decide)
  obtain ⟨c, hc, h⟩ := ofEdges_places hd.1 hd.2
  have hv : (Closure.ofEdges .diamond).map (fun c => (c.earliest 1, c.latest 1)) =
      .ok (1, 2) := by decide +kernel
  rw [hc] at hv
  obtain ⟨hfirst, hlast⟩ := Prod.mk.inj (Except.ok.inj hv)
  obtain ⟨hleast, hgreatest, -⟩ := h 1 (by decide)
  rw [hfirst] at hleast
  rw [hlast] at hgreatest
  exact ⟨hd, c, hc, hleast, hgreatest⟩

end Closure

end Liveness
