import Liveness.Proofs.Graph.Order
import Liveness.Proofs.Schedule.Run

/-! # Checked schedules

A schedule made from as many Ops as there are passes the check only if they are in a
valid order. And an intact schedule lists its Ops in a valid order and passes the check.
-/

namespace Liveness.Schedule

open Success

variable {W : Type} [Weight W] {g : Graph W} {s : Schedule W} {order : List Nat} {n : Nat}

theorem Coherent.idxOf_eq (h : s.Coherent) {a : Nat} (ha : a < s.opCount) :
    s.ops.toList.idxOf a = s.placeOf a := by
  have hl := h.placeOf_lt ha
  have hi : s.placeOf a < s.ops.toList.length := by
    rw [Array.length_toList, h.size_ops]
    exact hl
  have hn : s.ops.toList.Nodup := h.perm.nodup_iff.mpr List.nodup_range
  have he : s.ops.toList[s.placeOf a] = a := by
    have := h.opAt_placeOf ha
    rw [opAt, Array.getD, dif_pos (by simpa using hi)] at this
    exact this
  have := hn.idxOf_getElem _ hi
  rwa [he] at this

theorem Coherent.constraints_kept_iff (h : s.Coherent) :
    s.graph.KeepsConstraints s.ops.toList ↔
      ∀ {x y}, y ∈ (s.graph.op x).outs → s.placeOf x < s.placeOf y := by
  refine forall₂_congr fun x y => forall_congr' fun hxy => ?_
  rw [h.idxOf_eq (Graph.lt_of_mem_outs hxy), h.idxOf_eq (h.wellFormed.outs_lt hxy)]

theorem Coherent.links_kept_iff (h : s.Coherent) :
    s.graph.KeepsLinks s.ops.toList ↔
      ∀ {x y}, (s.graph.op x).fwdLink = some y → s.placeOf y = s.placeOf x + 1 := by
  refine forall₂_congr fun x y => forall_congr' fun hxy => ?_
  rw [h.idxOf_eq (Graph.lt_of_fwdLink hxy), h.idxOf_eq (h.wellFormed.link_lt hxy)]

theorem Intact.validOrder (h : s.Intact g n) : g.ValidOrder s.ops.toList := by
  obtain ⟨hu, hl, rfl⟩ := h
  have hb := hu.toCoherent.constraints_kept_iff.mpr hl.before
  have hf := hu.toCoherent.links_kept_iff.mpr hl.linked
  exact ⟨hu.perm, fun hxy => hb hxy, fun hxy => hf hxy⟩

theorem ofOrder_intact_of_validOrder (hg : g.WellFormed) (ho : g.ValidOrder order) :
    (ofOrder g order).Intact g 1 := by
  have hco := ofOrder_coherent hg ho.perm
  exact ⟨⟨hco, rfl, rfl⟩, ⟨hco.constraints_kept_iff.mp ho.keepsConstraints,
    hco.links_kept_iff.mp ho.keepsLinks⟩, rfl⟩

section Checks

omit [Weight W]

theorem checkPlaces_eq_ok : s.checkPlaces = .ok () ↔
    ∀ (i : Nat) (h : i < s.ops.size), s.placeOf s.ops[i] = i := by
  unfold checkPlaces
  rw [forM_eq_ok]
  constructor
  · intro h i hi
    have hm : (s.ops[i], i) ∈ s.ops.toList.zipIdx := by
      rw [List.mem_zipIdx_iff_getElem?]
      simp [hi]
    have hp := h _ hm
    dsimp only at hp
    split at hp
    · next he => exact he
    · cases hp
  · rintro h ⟨a, i⟩ hm
    have ha := List.mem_zipIdx_iff_getElem?.mp hm
    obtain ⟨hi, rfl⟩ := Array.getElem?_eq_some_iff.mp (by simpa using ha)
    exact if_pos (h i hi)

theorem checkInput_eq_ok {a i : Nat} : s.checkInput a i = .ok () ↔
    s.placeOf i ∈ s.placesBefore a ∧ s.placeOf i < s.placeOf a := by
  unfold checkInput
  simp only [Bool.not_eq_true', List.contains_eq_mem]
  split
  · next h => simp_all
  · next h =>
    split
    · next hle => simp [hle]
    · next hle => simp_all

theorem checkOutput_eq_ok {a o : Nat} : s.checkOutput a o = .ok () ↔
    s.placeOf o ∈ s.placesAfter a := by
  unfold checkOutput
  simp [List.contains_eq_mem]

theorem checkLinked_eq_ok {a : Nat} {link : Option Nat} : s.checkLinked a link = .ok () ↔
    ∀ b, link = some b → s.placeOf b = s.placeOf a + 1 := by
  unfold checkLinked
  cases link with
  | none => simp
  | some b => simp

theorem check_eq_ok : s.check = .ok () ↔ s.checkPlaces = .ok () ∧
    ∀ op ∈ s.graph.ops, (∀ i ∈ op.ins, s.checkInput op.address i = .ok ()) ∧
      (∀ o ∈ op.outs, s.checkOutput op.address o = .ok ()) ∧
      s.checkLinked op.address op.fwdLink = .ok () := by
  unfold check
  simp only [seq_eq_ok, forM_eq_ok, Array.mem_toList_iff]

end Checks

theorem Intact.check (h : s.Intact g n) : s.check = .ok () := by
  have hg := h.wellFormed
  rw [check_eq_ok, checkPlaces_eq_ok]
  constructor
  · intro i hi
    have hplace := h.placeOf_opAt (h.size_ops ▸ hi)
    rwa [opAt, Array.getD, dif_pos hi] at hplace
  · intro op hm
    obtain ⟨a, ha, rfl⟩ := Array.mem_iff_getElem.mp hm
    have hop : s.graph.ops[a] = s.graph.op a := by simp [Graph.op, Array.getD, ha]
    rw [hop, hg.op_address a ha]
    refine ⟨fun i hi => checkInput_eq_ok.mpr ⟨?_, ?_⟩, fun o ho => checkOutput_eq_ok.mpr ?_,
      checkLinked_eq_ok.mpr fun b => h.linked⟩
    · exact h.mem_placesBefore.mpr ⟨i, hi, rfl⟩
    · exact h.before (hg.mem_ins.mp hi)
    · exact h.mem_placesAfter.mpr ⟨o, ho, rfl⟩

section OfOrder

variable (hl : order.length = g.opCount) (hr : ∀ a ∈ order, a < g.opCount)

include hl hr

/-- As many Ops as there are, each of them found at its own place, are all Ops. -/
theorem perm_of_checkPlaces (h : (ofOrder g order).checkPlaces = .ok ()) :
    order.Perm (List.range g.opCount) := by
  have hp : ∀ (i : Nat) (hi : i < order.length), (ofOrder g order).placeOf order[i] = i :=
    checkPlaces_eq_ok.mp h
  refine Graph.perm_range ?_ (Nat.le_of_eq hl.symm) hr
  rw [List.nodup_iff_pairwise_ne, List.pairwise_iff_getElem]
  intro i j hi hj hij he
  have hi' := hp i hi
  rw [he, hp j hj] at hi'
  omega

theorem ofOrder_intact (hg : g.WellFormed) (h : (ofOrder g order).check = .ok ()) :
    (ofOrder g order).Intact g 1 := by
  obtain ⟨hp, hc⟩ := check_eq_ok.mp h
  have hco := ofOrder_coherent hg (perm_of_checkPlaces hl hr hp)
  have hop : ∀ {a}, a < g.opCount → g.op a ∈ g.ops ∧ (g.op a).address = a := fun ha =>
    ⟨Graph.op_mem ha, hg.op_address _ ha⟩
  refine ⟨⟨hco, rfl, rfl⟩, ⟨fun {x y} hxy => ?_, fun {x y} hxy => ?_⟩, rfl⟩
  · obtain ⟨hm, ha⟩ := hop (hg.outs_lt hxy)
    have hi := (hc _ hm).1 x (hg.mem_ins.mpr hxy)
    rw [ha, checkInput_eq_ok] at hi
    exact hi.2
  · obtain ⟨hm, ha⟩ := hop (Graph.lt_of_fwdLink hxy)
    have hi := (hc _ hm).2.2
    rw [ha, checkLinked_eq_ok] at hi
    exact hi y hxy

/-- The check tells the valid orders from all other lists of as many Ops as there are. -/
theorem ofOrder_check_iff (hg : g.Built) :
    (ofOrder g order).check = .ok () ↔ g.ValidOrder order := by
  constructor
  · intro h
    exact (ofOrder_intact hl hr hg.wellFormed h).validOrder
  · intro h
    exact (ofOrder_intact_of_validOrder hg.wellFormed h).check

end OfOrder

section LinkedChains

open Liveness.Graph Numbers

/-- Of three lists of four Ops the check takes the one that is valid. The second one splits
the linked Ops, and the third one has an Op twice. -/
theorem linkedChains_check : (ofOrder linkedChains [0, 1, 2, 3]).check = .ok () ∧
    (ofOrder linkedChains [0, 2, 1, 3]).check ≠ .ok () ∧
      (ofOrder linkedChains [0, 1, 2, 2]).check ≠ .ok () := by
  refine ⟨?_, ?_, ?_⟩
  · exact (ofOrder_check_iff (by decide) (by decide) linkedChains_built).mpr (by decide)
  · exact (ofOrder_check_iff (by decide) (by decide) linkedChains_built).not.mpr (by decide)
  · exact (ofOrder_check_iff (by decide) (by decide) linkedChains_built).not.mpr (by decide)

end LinkedChains

end Liveness.Schedule
