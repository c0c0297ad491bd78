import Liveness.Proofs.Graph.Schedulable

/-! # Links that can be added

A link asks for two Ops side by side. So the valid orders of a graph with one more link are those
orders of the graph that have the two Ops next to each other already, and an order that has them so
shows that no other link is in the way.
-/

namespace Liveness.Graph

variable {W : Type} {g : Graph W} {order : List Nat} {a b u v : Nat}

theorem adjacent_iff (hn : order.Nodup) (hb : b ∈ order) :
    [a, b] <:+: order ↔ order.idxOf b = order.idxOf a + 1 := by
  refine ⟨idxOf_of_adjacent hn, fun he => ?_⟩
  have hlt := List.idxOf_lt_length_of_mem hb
  have ha : order.idxOf a < order.length := by omega
  refine ⟨order.take (order.idxOf a), order.drop (order.idxOf a + 2), ?_⟩
  have hdrop : order.drop (order.idxOf a) = a :: b :: order.drop (order.idxOf a + 2) := by
    have hlt' : order.idxOf a + 1 < order.length := he ▸ hlt
    have hb' : order[order.idxOf a + 1] = b := by
      simp only [← he, List.getElem_idxOf]
    rw [List.drop_eq_getElem_cons ha, List.getElem_idxOf, List.drop_eq_getElem_cons hlt', hb']
  rw [List.append_assoc, List.cons_append, List.cons_append, List.nil_append, ← hdrop,
    List.take_append_drop]

/-- A link asks of an order that it has the two Ops side by side, and of a graph nothing else. -/
theorem validOrder_join_iff (hu : u < g.opCount) (hv : v < g.opCount)
    (hf : ∀ b, (g.op u).fwdLink = some b → b = v) :
    (g.join u v).ValidOrder order ↔ g.ValidOrder order ∧ order.idxOf v = order.idxOf u + 1 := by
  have houts : ∀ x y, y ∈ ((g.join u v).op x).outs ↔ x = u ∧ y = v ∨ y ∈ (g.op x).outs := by
    intro x y
    rw [op_join hu hv]
    exact mem_outs_connect hu hv
  have hlink : ∀ x, ((g.join u v).op x).fwdLink = if x = u then some v else (g.op x).fwdLink := by
    intro x
    rw [op_join hu hv]
  constructor
  · intro ho
    refine ⟨⟨opCount_join g u v ▸ ho.perm, fun {x y} hxy => ?_, fun {x y} hxy => ?_⟩, ?_⟩
    · exact ho.before ((houts x y).mpr (.inr hxy))
    · apply ho.linked
      rw [hlink]
      split
      · next he =>
        subst he
        rw [hf y hxy]
      · exact hxy
    · apply ho.linked
      rw [hlink, if_pos rfl]
  · rintro ⟨ho, he⟩
    refine ⟨(opCount_join g u v).symm ▸ ho.perm, fun {x y} hxy => ?_, fun {x y} hxy => ?_⟩
    · rcases (houts x y).mp hxy with ⟨rfl, rfl⟩ | hxy
      · omega
      · exact ho.before hxy
    · rw [hlink] at hxy
      split at hxy
      · next hx =>
        obtain rfl := Option.some.inj hxy
        rwa [hx]
      · exact ho.linked hxy

/-- Ops that are side by side in a valid order are in the way of no other link. -/
theorem ValidOrder.link_eq_ok (hg : g.Ordered) (ho : g.ValidOrder order) (hu : u < g.opCount)
    (hv : v < g.opCount) (he : order.idxOf v = order.idxOf u + 1) :
    g.link u v = .ok (g.join u v) := by
  have hinj : ∀ {x y}, x < g.opCount → order.idxOf x = order.idxOf y → x = y := fun hx h =>
    (List.idxOf_inj (ho.mem_iff.mpr hx)).mp h
  refine Graph.link_eq_ok.mpr ⟨⟨hu, hv, ?_⟩, fun b hb => ?_, fun a ha => ?_, rfl⟩
  · rintro rfl
    omega
  · exact hinj (hg.link_lt hb) ((ho.linked hb).trans he.symm)
  · have ha := hg.bwdLink.mp ha
    have := ho.linked ha
    exact hinj (lt_of_fwdLink ha) (by omega)

/-- Two Ops can be linked exactly when some valid order has the second directly after the first.
This covers Ops that do not exist, an Op and itself, and Ops that have links already. -/
theorem canLink_exact [Weight W] (hg : g.Built) (hl : g.LinksHeld) (a b : Nat) :
    g.canLink a b = true ↔ ∃ order, g.ValidOrder order ∧ [a, b] <:+: order := by
  have hwf := hg.wellFormed
  simp only [canLink_iff, isSchedulable_iff]
  constructor
  · rintro ⟨h, hlink, hcheck⟩
    obtain ⟨⟨ha, hb, hne⟩, hf, hbwd, rfl⟩ := Graph.link_eq_ok.mp hlink
    have hjoin := join_tightens hwf hl ha hb hne hf hbwd
    obtain ⟨order, ho⟩ :=
      (checkSchedulable_iff hjoin.wellFormed.toOrdered hjoin.linksHeld).mp hcheck
    obtain ⟨ho, he⟩ := (validOrder_join_iff ha hb hf).mp ho
    exact ⟨order, ho, (adjacent_iff ho.nodup (ho.mem_iff.mpr hb)).mpr he⟩
  · rintro ⟨order, ho, hab⟩
    have ha := ho.mem_iff.mp (hab.subset List.mem_cons_self)
    have hb := ho.mem_iff.mp (hab.subset (List.mem_cons_of_mem a List.mem_cons_self))
    have he := idxOf_of_adjacent ho.nodup hab
    have hlink := ho.link_eq_ok hwf.toOrdered ha hb he
    obtain ⟨⟨-, -, hne⟩, hf, hbwd, -⟩ := Graph.link_eq_ok.mp hlink
    have hs : (g.join a b).Schedulable := ⟨order, (validOrder_join_iff ha hb hf).mpr ⟨ho, he⟩⟩
    exact ⟨g.join a b, hlink, hs.check (hwf.join ha hb hne hf hbwd).toOrdered⟩

open Numbers in
/-- The second of two linked Ops can be linked to an Op of the other chain. The first one can not,
since the link it has is in the way of every order. -/
theorem linkedChains_canLink : linkedChains.canLink 1 2 = true ∧ linkedChains.canLink 0 2 = false := by
  have hlinks := linkedChains_linksHeld
  constructor
  · exact (canLink_exact linkedChains_built hlinks 1 2).mpr ⟨[0, 1, 2, 3], by decide, by decide⟩
  · rw [Bool.eq_false_iff, ne_eq, canLink_exact linkedChains_built hlinks 0 2]
    rintro ⟨order, ho, hinfix⟩
    have h₁ : order.idxOf 1 = order.idxOf 0 + 1 := ho.linked (by decide)
    have h₂ := idxOf_of_adjacent ho.nodup hinfix
    have h₃ : 1 = 2 := (List.idxOf_inj (ho.mem_iff.mpr (by decide))).mp (h₁.trans h₂.symm)
    contradiction

end Liveness.Graph
