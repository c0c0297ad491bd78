import Liveness.Graph.Edit

/-! # Looking up edited graphs

What the Ops and Allocs of a graph are after one Op or Alloc is changed or added.
-/

namespace Liveness.Graph

variable {W : Type}

section Op

variable {g : Graph W} {a b x r : Nat}

theorem op_of_ge (h : g.opCount ≤ a) : g.op a = Op.isolated a "" := by
  simp [op, Array.getD, show ¬ a < g.ops.size from Nat.not_lt.mpr h]

theorem ops_toList (g : Graph W) : g.ops.toList = (List.range g.opCount).map g.op := by
  refine List.ext_getElem (by simp [opCount]) fun i hi _ => ?_
  have hi' : i < g.ops.size := by simpa using hi
  simp [op, Array.getD, hi']

theorem op_mem (h : a < g.opCount) : g.op a ∈ g.ops := by
  have h' : a < g.ops.size := h
  rw [op, Array.getD, dif_pos h']
  exact Array.getElem_mem h'

theorem lt_of_mem_outs (h : b ∈ (g.op a).outs) : a < g.opCount := by
  refine Nat.lt_of_not_le fun hle => ?_
  rw [op_of_ge hle] at h
  cases h

theorem lt_of_fwdLink (h : (g.op a).fwdLink = some b) : a < g.opCount := by
  refine Nat.lt_of_not_le fun hle => ?_
  rw [op_of_ge hle] at h
  cases h

theorem size_edges (g : Graph W) : g.edges.size = g.opCount := by
  simp [edges, opCount]

theorem outs_edges (g : Graph W) (a : Nat) : g.edges.outs a = (g.op a).outs := by
  simp only [edges, Edges.outs, op, Array.getD_eq_getD_getElem?, Array.getElem?_map]
  cases g.ops[a]? <;> rfl

theorem checkOp_eq_ok : g.checkOp a = .ok () ↔ a < g.opCount := by
  unfold checkOp
  split <;> simp_all

theorem checkAlloc_eq_ok : g.checkAlloc r = .ok () ↔ r < g.allocCount := by
  unfold checkAlloc
  split <;> simp_all

@[simp]
theorem opCount_modifyOp (f : Op → Op) : (g.modifyOp a f).opCount = g.opCount := by
  simp [modifyOp, opCount]

@[simp]
theorem opCount_modifyAlloc (f : Alloc W → Alloc W) :
    (g.modifyAlloc r f).opCount = g.opCount := rfl

@[simp]
theorem opCount_addOp (name : String) : (g.addOp name).opCount = g.opCount + 1 := by
  simp [addOp, opCount]

@[simp]
theorem opCount_addAlloc (w : W) : (g.addAlloc w).opCount = g.opCount := rfl

theorem op_modifyOp (ha : a < g.opCount) (f : Op → Op) :
    (g.modifyOp a f).op x = if x = a then f (g.op x) else g.op x := by
  have ha' : a < g.ops.size := ha
  simp only [op, modifyOp, Array.getD_eq_getD_getElem?, Array.getElem?_modify]
  by_cases hx : x = a
  · subst hx
    simp [ha']
  · simp [hx, Ne.symm hx]

@[simp]
theorem op_modifyAlloc (f : Alloc W → Alloc W) : (g.modifyAlloc r f).op x = g.op x := rfl

theorem op_addOp (name : String) :
    (g.addOp name).op x = if x = g.opCount then Op.isolated x name else g.op x := by
  simp only [op, addOp, opCount, Array.getD_eq_getD_getElem?, Array.getElem?_push]
  split
  · next h => simp [h]
  · rfl

@[simp]
theorem op_addAlloc (w : W) : (g.addAlloc w).op x = g.op x := rfl

end Op

section Alloc

variable {g : Graph W} {a x r : Nat}

@[simp]
theorem allocCount_modifyOp (f : Op → Op) : (g.modifyOp a f).allocCount = g.allocCount := rfl

@[simp]
theorem allocCount_modifyAlloc (f : Alloc W → Alloc W) :
    (g.modifyAlloc r f).allocCount = g.allocCount := by
  simp [modifyAlloc, allocCount]

@[simp]
theorem allocCount_addOp (name : String) : (g.addOp name).allocCount = g.allocCount := rfl

@[simp]
theorem allocCount_addAlloc (w : W) : (g.addAlloc w).allocCount = g.allocCount + 1 := by
  simp [addAlloc, allocCount]

variable [Zero W]

theorem alloc_of_ge (h : g.allocCount ≤ r) : g.alloc r = Alloc.unused r 0 := by
  simp [alloc, Array.getD, show ¬ r < g.allocs.size from Nat.not_lt.mpr h]

theorem allocs_toList (g : Graph W) :
    g.allocs.toList = (List.range g.allocCount).map g.alloc := by
  refine List.ext_getElem (by simp [allocCount]) fun i hi _ => ?_
  have hi' : i < g.allocs.size := by simpa using hi
  simp [alloc, Array.getD, hi']

theorem lt_of_mem_ops (h : a ∈ (g.alloc r).ops) : r < g.allocCount := by
  refine Nat.lt_of_not_le fun hle => ?_
  rw [alloc_of_ge hle] at h
  cases h

@[simp]
theorem alloc_modifyOp (f : Op → Op) : (g.modifyOp a f).alloc x = g.alloc x := rfl

theorem alloc_modifyAlloc (hr : r < g.allocCount) (f : Alloc W → Alloc W) :
    (g.modifyAlloc r f).alloc x = if x = r then f (g.alloc x) else g.alloc x := by
  have hr' : r < g.allocs.size := hr
  simp only [alloc, modifyAlloc, Array.getD_eq_getD_getElem?, Array.getElem?_modify]
  by_cases hx : x = r
  · subst hx
    simp [hr']
  · simp [hx, Ne.symm hx]

@[simp]
theorem alloc_addOp (name : String) : (g.addOp name).alloc x = g.alloc x := rfl

theorem alloc_addAlloc (w : W) :
    (g.addAlloc w).alloc x = if x = g.allocCount then Alloc.unused x w else g.alloc x := by
  simp only [alloc, addAlloc, allocCount, Array.getD_eq_getD_getElem?, Array.getElem?_push]
  split
  · next h => simp [h]
  · rfl

end Alloc

end Liveness.Graph
