import Mathlib.Data.Finset.Card
import Mathlib.Logic.Relation
import Liveness.Proofs.Graph.Order
import Liveness.Proofs.Closure

/-! # Paths and topological orders

Edges without a cycle rank the nodes: a node gets the number of nodes that lead to it.
In every topological order a path leads forward. Two nodes without a path from the
first to the second have a topological order with the second in front: what leads to
the second comes first.
-/

namespace Liveness

open Relation

variable {edges preds : Edges} {order : List Nat} {a b c x y : Nat}

theorem idxOf_append_lt {l r : List Nat} (ha : a ∈ l) (hb : b ∉ l) :
    (l ++ r).idxOf a < (l ++ r).idxOf b := by
  rw [List.idxOf_append, List.idxOf_append, if_pos ha, if_neg hb]
  have := List.idxOf_lt_length_of_mem ha
  omega

namespace Edges

def Path (edges : Edges) : Nat → Nat → Prop := TransGen fun a b => b ∈ edges.outs a

def Acyclic (edges : Edges) : Prop := ∀ a, ¬ edges.Path a a

structure Topological (edges : Edges) (order : List Nat) : Prop where
  perm : order.Perm (List.range edges.size)
  before : ∀ {a b}, b ∈ edges.outs a → order.idxOf a < order.idxOf b

/-- The second lists have every edge of the first ones, turned around. -/
def Turned (edges preds : Edges) : Prop :=
  preds.size = edges.size ∧ ∀ a b, b ∈ preds.outs a ↔ a ∈ edges.outs b

theorem topological_iff : edges.Topological order ↔ order.Perm (List.range edges.size) ∧
    ∀ a < edges.size, ∀ b ∈ edges.outs a, order.idxOf a < order.idxOf b := by
  constructor
  · rintro ⟨hp, hb⟩
    exact ⟨hp, fun _ _ _ => hb⟩
  · rintro ⟨hp, hb⟩
    exact ⟨hp, fun h => hb _ (lt_of_mem_outs h) _ h⟩

instance (edges : Edges) (order : List Nat) : Decidable (edges.Topological order) :=
  decidable_of_iff' _ topological_iff

section Path

theorem Path.of_mem (h : b ∈ edges.outs a) : edges.Path a b := .single h

theorem Path.trans (h : edges.Path a b) (h' : edges.Path b c) : edges.Path a c :=
  TransGen.trans h h'

theorem Path.left_lt (h : edges.Path a b) : a < edges.size := by
  obtain ⟨c, hc, -⟩ := TransGen.head'_iff.mp h
  exact lt_of_mem_outs hc

theorem Path.right_lt (h : edges.Path a b) (hr : edges.InRange) : b < edges.size := by
  obtain ⟨c, -, hc⟩ := TransGen.tail'_iff.mp h
  exact hr hc

theorem path_iff : edges.Path a b ↔ ∃ p, b ∈ edges.outs p ∧ (a = p ∨ edges.Path a p) := by
  unfold Path
  rw [TransGen.tail'_iff]
  simp only [reflTransGen_iff_eq_or_transGen, eq_comm (a := a), and_comm]

theorem Path.rank_lt {f : Nat → Nat} (hf : ∀ {a b}, b ∈ edges.outs a → f a < f b)
    (h : edges.Path a b) : f a < f b :=
  rank_lt_of_transGen (r := fun a b => b ∈ edges.outs a) hf h

theorem Acyclic.of_rank {f : Nat → Nat} (hf : ∀ {a b}, b ∈ edges.outs a → f a < f b) :
    edges.Acyclic := fun _ h => Nat.lt_irrefl _ (h.rank_lt hf)

theorem Acyclic.exists_rank (h : edges.Acyclic) :
    ∃ f : Nat → Nat, ∀ {a b}, b ∈ edges.outs a → f a < f b := by
  classical
  let ancestors (b : Nat) := (Finset.range edges.size).filter fun x => edges.Path x b
  have hsub : ∀ {a b}, b ∈ edges.outs a → ancestors a ⊂ ancestors b := by
    intro a b hb
    apply Finset.ssubset_iff_of_subset _ |>.mpr
    · have ha : a ∈ ancestors b := by simp [ancestors, lt_of_mem_outs hb, Path.of_mem hb]
      exact ⟨a, ha, by simp [ancestors, h a]⟩
    · intro x hx
      simp only [ancestors, Finset.mem_filter] at hx ⊢
      exact ⟨hx.1, hx.2.trans (.of_mem hb)⟩
  exact ⟨fun b => (ancestors b).card, fun hb => Finset.card_lt_card (hsub hb)⟩

end Path

section Turned

theorem Turned.symm (h : edges.Turned preds) : preds.Turned edges :=
  ⟨h.1.symm, fun a b => (h.2 b a).symm⟩

theorem Turned.inRange (h : edges.Turned preds) : edges.InRange := by
  intro a b hb
  rw [← h.1]
  exact lt_of_mem_outs ((h.2 b a).mpr hb)

theorem Turned.path (h : edges.Turned preds) : preds.Path a b ↔ edges.Path b a := by
  have hs : (fun a b => b ∈ preds.outs a) = Function.swap fun a b => b ∈ edges.outs a := by
    funext a b
    exact propext (h.2 a b)
  unfold Path
  rw [hs, transGen_swap]

theorem Turned.acyclic (h : edges.Turned preds) : preds.Acyclic ↔ edges.Acyclic :=
  forall_congr' fun _ => not_congr h.path

theorem size_reverse (edges : Edges) : edges.reverse.size = edges.size := by
  have hfold : ∀ (ps : List (Nat × Nat)) (rev : Edges),
      (ps.foldl (fun (rev : Edges) p => rev.modify p.2 (· ++ [p.1])) rev).size = rev.size := by
    intro ps
    induction ps with
    | nil => exact fun _ => rfl
    | cons p ps ih =>
      intro rev
      rw [List.foldl_cons, ih, Array.size_modify]
  exact (hfold _ _).trans (Array.size_replicate ..)

theorem mem_foldl_modify_iff {rev : Edges} {ps : List (Nat × Nat)} (ha : a < rev.size) :
    x ∈ (ps.foldl (fun (rev : Edges) p => rev.modify p.2 (· ++ [p.1])) rev).outs a ↔
      x ∈ rev.outs a ∨ (x, a) ∈ ps := by
  refine ⟨mem_foldl_modify, fun h => ?_⟩
  induction ps generalizing rev with
  | nil => simpa using h
  | cons p ps ih =>
    apply ih (by simpa using ha)
    rw [List.mem_cons, ← or_assoc] at h
    apply h.imp_left
    simp only [outs, Array.getD_eq_getD_getElem?, Array.getElem?_modify]
    rintro (h | rfl)
    · split
      · next he => subst he; simp_all
      · exact h
    · simp [ha]

theorem turned_reverse (hr : edges.InRange) : edges.Turned edges.reverse := by
  refine ⟨size_reverse edges, fun a b => ⟨mem_of_mem_reverse, fun h => ?_⟩⟩
  exact (mem_foldl_modify_iff (by simpa using hr h)).mpr (.inr (mem_pairs.mpr h))

theorem forall_mem_flatten {P : Nat → Prop} :
    (∀ b ∈ edges.toList.flatten, P b) ↔ ∀ ⦃a b⦄, b ∈ edges.outs a → P b := by
  constructor
  · intro h a b hb
    apply h b
    refine List.mem_flatten.mpr ⟨edges.outs a, ?_, hb⟩
    simp [outs, Array.getD, lt_of_mem_outs hb]
  · intro h b hb
    obtain ⟨bs, hbs, hb⟩ := List.mem_flatten.mp hb
    obtain ⟨a, ha, rfl⟩ := List.getElem_of_mem hbs
    apply h (a := a)
    have ha' : a < edges.size := by simpa using ha
    simpa [outs, Array.getD, ha'] using hb

theorem inRange_iff : edges.inRange = true ↔ edges.InRange := by
  simp only [inRange, List.all_eq_true, decide_eq_true_eq, forall_mem_flatten, InRange]

end Turned

section Topological

theorem Topological.path_lt (h : edges.Topological order) (hp : edges.Path a b) :
    order.idxOf a < order.idxOf b := hp.rank_lt h.before

theorem Topological.acyclic (h : edges.Topological order) : edges.Acyclic :=
  .of_rank h.before

theorem Closed.topological (h : edges.Closed order) (hr : edges.InRange)
    (hp : order.Perm (List.range edges.size)) : edges.Topological order where
  perm := hp
  before hb := h.idxOf_lt (hp.nodup_iff.mpr List.nodup_range)
    (hp.mem_iff.mpr (List.mem_range.mpr (hr hb))) hb

theorem Topological.forward (h : edges.Topological order) :
    order.Pairwise fun x y => x ∉ edges.outs y := by
  have hn : order.Nodup := h.perm.nodup_iff.mpr List.nodup_range
  rw [List.pairwise_iff_getElem]
  intro i j hi hj hij hm
  have := h.before hm
  rw [hn.idxOf_getElem, hn.idxOf_getElem] at this
  omega

theorem topological_of_forward (hi : ∀ a, a ∉ edges.outs a) (hr : edges.InRange)
    (hp : order.Perm (List.range edges.size))
    (hf : order.Pairwise fun x y => x ∉ edges.outs y) : edges.Topological order where
  perm := hp
  before hb := Graph.idxOf_lt_of_pairwise (R := fun a b => b ∈ edges.outs a) hf (hi _)
    (hp.mem_iff.mpr (List.mem_range.mpr (lt_of_mem_outs hb)))
    (hp.mem_iff.mpr (List.mem_range.mpr (hr hb))) hb

/-- The nodes that lead to `b`, then `b` itself and what else there is, in the order given. -/
theorem Topological.pull_front (h : edges.Topological order) (hr : edges.InRange)
    (hb : b < edges.size) : ∃ order', edges.Topological order' ∧
      ∀ a, a ≠ b → ¬ edges.Path a b → order'.idxOf b < order'.idxOf a := by
  classical
  let early (x : Nat) : Bool := decide (x = b ∨ edges.Path x b)
  let order' := order.filter early ++ order.filter fun x => !early x
  have hbm : b ∈ order.filter early := by
    simp [early, h.perm.mem_iff, hb]
  refine ⟨order', ?_, fun a hab hp => idxOf_append_lt hbm (by simp [early, hp, hab])⟩
  have hi : ∀ a, a ∉ edges.outs a := fun a ha => h.acyclic a (.of_mem ha)
  apply topological_of_forward hi hr ((List.filter_append_perm early order).trans h.perm)
  rw [List.pairwise_append]
  refine ⟨h.forward.filter _, h.forward.filter _, fun x hx y hy hxy => ?_⟩
  -- an edge from a late node to an early one would make it early
  have hxe : x = b ∨ edges.Path x b := by simpa [early] using (List.mem_filter.mp hx).2
  have hye : ¬ (y = b ∨ edges.Path y b) := by simpa [early] using (List.mem_filter.mp hy).2
  rcases hxe with rfl | hxe
  · exact hye (.inr (.of_mem hxy))
  · exact hye (.inr (Path.trans (.of_mem hxy) hxe))

theorem Topological.reverse (h : edges.Topological order) (ht : edges.Turned preds) :
    preds.Topological order.reverse := by
  have hi : ∀ a, a ∉ preds.outs a := fun a ha => h.acyclic a (.of_mem ((ht.2 a a).mp ha))
  apply topological_of_forward hi ht.symm.inRange
  · rw [ht.1]
    exact (List.reverse_perm order).trans h.perm
  · rw [List.pairwise_reverse]
    exact h.forward.imp fun hno hm => hno ((ht.2 _ _).mp hm)

/-- A path is what all topological orders agree on. -/
theorem path_iff_forall_topological (h : edges.Topological order) (hr : edges.InRange)
    (hb : b < edges.size) (hab : a ≠ b) :
    edges.Path a b ↔ ∀ order, edges.Topological order → order.idxOf a < order.idxOf b := by
  refine ⟨fun hp order ho => ho.path_lt hp, fun hall => ?_⟩
  by_contra hp
  obtain ⟨order', ho, hfront⟩ := h.pull_front hr hb
  have := hfront a hab hp
  have := hall order' ho
  omega

end Topological

end Edges

end Liveness
