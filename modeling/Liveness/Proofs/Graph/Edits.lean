import Liveness.Proofs.Graph.WellFormed

/-! # Edits keep graphs well-formed

What each edit does to the lists of every Op and Alloc, and that both ends of what it
records stay in step.
-/

namespace Liveness.Graph

variable {W : Type} {g : Graph W} {u v x r : Nat}

section Constraints

theorem op_connect (hu : u < g.opCount) (hv : v < g.opCount) (x : Nat) :
    (g.connect u v).op x = { g.op x with
      outs := if x = u then Ascending.insert v (g.op x).outs else (g.op x).outs
      ins := if x = v then Ascending.insert u (g.op x).ins else (g.op x).ins } := by
  rw [connect, op_modifyOp (by simpa using hv), op_modifyOp hu]
  split <;> split <;> rfl

@[simp]
theorem opCount_connect (g : Graph W) (u v : Nat) : (g.connect u v).opCount = g.opCount := by
  simp [connect]

@[simp]
theorem allocCount_connect (g : Graph W) (u v : Nat) :
    (g.connect u v).allocCount = g.allocCount := rfl

def disconnect (g : Graph W) (u v : Nat) : Graph W :=
  (g.modifyOp u fun op => { op with outs := op.outs.erase v }).modifyOp v
    fun op => { op with ins := op.ins.erase u }

theorem op_disconnect (hu : u < g.opCount) (hv : v < g.opCount) (x : Nat) :
    (g.disconnect u v).op x = { g.op x with
      outs := if x = u then (g.op x).outs.erase v else (g.op x).outs
      ins := if x = v then (g.op x).ins.erase u else (g.op x).ins } := by
  rw [disconnect, op_modifyOp (by simpa using hv), op_modifyOp hu]
  split <;> split <;> rfl

@[simp]
theorem opCount_disconnect (g : Graph W) (u v : Nat) :
    (g.disconnect u v).opCount = g.opCount := by
  simp [disconnect]

@[simp]
theorem allocCount_disconnect (g : Graph W) (u v : Nat) :
    (g.disconnect u v).allocCount = g.allocCount := rfl

theorem op_join (hu : u < g.opCount) (hv : v < g.opCount) (x : Nat) :
    (g.join u v).op x = { (g.connect u v).op x with
      fwdLink := if x = u then some v else (g.op x).fwdLink
      bwdLink := if x = v then some u else (g.op x).bwdLink } := by
  rw [join, op_modifyOp (by simpa using hv), op_modifyOp (by simpa using hu),
    op_connect hu hv]
  split <;> split <;> rfl

@[simp]
theorem opCount_join (g : Graph W) (u v : Nat) : (g.join u v).opCount = g.opCount := by
  simp [join]

@[simp]
theorem allocCount_join (g : Graph W) (u v : Nat) : (g.join u v).allocCount = g.allocCount := rfl

end Constraints

section Needs

variable [Zero W]

@[simp]
theorem alloc_connect (g : Graph W) (u v x : Nat) : (g.connect u v).alloc x = g.alloc x := rfl

@[simp]
theorem alloc_disconnect (g : Graph W) (u v x : Nat) :
    (g.disconnect u v).alloc x = g.alloc x := rfl

@[simp]
theorem alloc_join (g : Graph W) (u v x : Nat) : (g.join u v).alloc x = g.alloc x := rfl

omit [Zero W] in
theorem op_attach (hu : u < g.opCount) (x : Nat) :
    (g.attach u r).op x = { g.op x with
      allocs := if x = u then Ascending.insert r (g.op x).allocs else (g.op x).allocs } := by
  rw [attach, op_modifyOp (by simpa using hu)]
  split <;> rfl

theorem alloc_attach (hr : r < g.allocCount) (x : Nat) :
    (g.attach u r).alloc x = { g.alloc x with
      ops := if x = r then Ascending.insert u (g.alloc x).ops else (g.alloc x).ops } := by
  rw [attach, alloc_modifyOp, alloc_modifyAlloc hr]
  split <;> rfl

omit [Zero W] in
@[simp]
theorem opCount_attach (g : Graph W) (u r : Nat) : (g.attach u r).opCount = g.opCount := by
  simp [attach]

omit [Zero W] in
@[simp]
theorem allocCount_attach (g : Graph W) (u r : Nat) :
    (g.attach u r).allocCount = g.allocCount := by
  simp [attach]

omit [Zero W] in
theorem op_detach (hu : u < g.opCount) (x : Nat) :
    (g.detach u r).op x = { g.op x with
      allocs := if x = u then (g.op x).allocs.erase r else (g.op x).allocs } := by
  rw [detach, op_modifyOp (by simpa using hu)]
  split <;> rfl

theorem alloc_detach (hr : r < g.allocCount) (x : Nat) :
    (g.detach u r).alloc x = { g.alloc x with
      ops := if x = r then (g.alloc x).ops.erase u else (g.alloc x).ops } := by
  rw [detach, alloc_modifyOp, alloc_modifyAlloc hr]
  split <;> rfl

omit [Zero W] in
@[simp]
theorem opCount_detach (g : Graph W) (u r : Nat) : (g.detach u r).opCount = g.opCount := by
  simp [detach]

omit [Zero W] in
@[simp]
theorem allocCount_detach (g : Graph W) (u r : Nat) :
    (g.detach u r).allocCount = g.allocCount := by
  simp [detach]

end Needs

section Preservation

theorem mem_erase {xs : List Nat} (h : xs.Pairwise (· < ·)) {a b : Nat} :
    a ∈ xs.erase b ↔ a ≠ b ∧ a ∈ xs :=
  (Ascending.nodup_of_pairwise h).mem_erase_iff

theorem foldl_erase_self (as : List Nat) : as.foldl List.erase as = [] := by
  induction as with
  | nil => rfl
  | cons a as ih => rw [List.foldl_cons, List.erase_cons_head, ih]

theorem Ordered.connect (h : g.Ordered) (hu : u < g.opCount) (hv : v < g.opCount)
    (hne : u ≠ v) : (g.connect u v).Ordered := by
  constructor <;> simp only [op_connect hu hv, opCount_connect]
  case op_address => exact h.op_address
  case ins_sorted =>
    intro a
    split
    · exact Ascending.insert_pairwise (h.ins_sorted a)
    · exact h.ins_sorted a
  case outs_sorted =>
    intro a
    split
    · exact Ascending.insert_pairwise (h.outs_sorted a)
    · exact h.outs_sorted a
  case outs_lt =>
    intro a b hb
    have hlt : b ∈ (g.op a).outs → b < g.opCount := h.outs_lt
    grind
  case mem_ins =>
    intro a b
    have hm : a ∈ (g.op b).ins ↔ b ∈ (g.op a).outs := h.mem_ins
    grind
  case irrefl =>
    intro a
    have hi := h.irrefl a
    grind
  case link_lt => exact h.link_lt
  case bwdLink => exact h.bwdLink

theorem Ordered.disconnect (h : g.Ordered) (hu : u < g.opCount) (hv : v < g.opCount) :
    (g.disconnect u v).Ordered := by
  constructor <;> simp only [op_disconnect hu hv, opCount_disconnect]
  case op_address => exact h.op_address
  case ins_sorted =>
    intro a
    split
    · exact (h.ins_sorted a).erase u
    · exact h.ins_sorted a
  case outs_sorted =>
    intro a
    split
    · exact (h.outs_sorted a).erase v
    · exact h.outs_sorted a
  case outs_lt =>
    intro a b hb
    split at hb
    · exact h.outs_lt (List.mem_of_mem_erase hb)
    · exact h.outs_lt hb
  case mem_ins =>
    intro a b
    have hm : a ∈ (g.op b).ins ↔ b ∈ (g.op a).outs := h.mem_ins
    have hi : a ∈ (g.op b).ins.erase u ↔ _ := mem_erase (h.ins_sorted b)
    have ho : b ∈ (g.op a).outs.erase v ↔ _ := mem_erase (h.outs_sorted a)
    grind
  case irrefl =>
    intro a ha
    split at ha
    · exact h.irrefl a (List.mem_of_mem_erase ha)
    · exact h.irrefl a ha
  case link_lt => exact h.link_lt
  case bwdLink => exact h.bwdLink

theorem Ordered.join (h : g.Ordered) (hu : u < g.opCount) (hv : v < g.opCount) (hne : u ≠ v)
    (hf : ∀ b, (g.op u).fwdLink = some b → b = v)
    (hb : ∀ a, (g.op v).bwdLink = some a → a = u) : (g.join u v).Ordered := by
  have hc := h.connect hu hv hne
  constructor <;> simp only [op_join hu hv, opCount_join]
  case op_address => simpa using hc.op_address
  case ins_sorted => exact hc.ins_sorted
  case outs_sorted => exact hc.outs_sorted
  case outs_lt =>
    intro a b hb
    simpa using hc.outs_lt hb
  case mem_ins => exact hc.mem_ins
  case irrefl => exact hc.irrefl
  case link_lt =>
    intro a b hl
    have hlt : (g.op a).fwdLink = some b → b < g.opCount := h.link_lt
    grind
  case bwdLink =>
    intro a b
    have hab : (g.op b).bwdLink = some a ↔ (g.op a).fwdLink = some b := h.bwdLink
    have hub : (g.op b).bwdLink = some u ↔ (g.op u).fwdLink = some b := h.bwdLink
    have hav : (g.op v).bwdLink = some a ↔ (g.op a).fwdLink = some v := h.bwdLink
    grind

theorem Ordered.addOp (h : g.Ordered) (name : String) : (g.addOp name).Ordered := by
  have ho : ∀ x, g.opCount ≤ x → g.op x = Op.isolated x "" := fun x hx => op_of_ge hx
  have hl : ∀ {x b}, (g.op x).bwdLink = some b → b < g.opCount := fun hb =>
    lt_of_fwdLink (h.bwdLink.mp hb)
  constructor <;> simp only [op_addOp, opCount_addOp]
  case op_address =>
    intro a ha
    split
    · rfl
    · exact h.op_address a (by omega)
  case ins_sorted =>
    intro a
    split
    · exact List.Pairwise.nil
    · exact h.ins_sorted a
  case outs_sorted =>
    intro a
    split
    · exact List.Pairwise.nil
    · exact h.outs_sorted a
  case outs_lt =>
    intro a b hb
    split at hb
    · cases hb
    · exact Nat.lt_succ_of_lt (h.outs_lt hb)
  case mem_ins =>
    intro a b
    have hm : a ∈ (g.op b).ins ↔ b ∈ (g.op a).outs := h.mem_ins
    split <;> split <;> simp_all [Op.isolated]
  case irrefl =>
    intro a
    split
    · exact List.not_mem_nil
    · exact h.irrefl a
  case link_lt =>
    intro a b hb
    split at hb
    · cases hb
    · exact Nat.lt_succ_of_lt (h.link_lt hb)
  case bwdLink =>
    intro a b
    have hm : (g.op b).bwdLink = some a ↔ (g.op a).fwdLink = some b := h.bwdLink
    split <;> split <;> simp_all [Op.isolated]

variable [Zero W]

theorem Supplied.addOp (h : g.Supplied) (name : String) : (g.addOp name).Supplied := by
  constructor <;> simp only [op_addOp, opCount_addOp, alloc_addOp]
  case alloc_address => exact h.alloc_address
  case allocs_sorted =>
    intro a
    split
    · exact List.Pairwise.nil
    · exact h.allocs_sorted a
  case ops_sorted => exact h.ops_sorted
  case ops_lt =>
    intro a r ha
    exact Nat.lt_succ_of_lt (h.ops_lt ha)
  case mem_allocs =>
    intro a r
    split
    · next he =>
      refine iff_of_false List.not_mem_nil fun ha => ?_
      exact absurd (h.ops_lt ha) (by omega)
    · exact h.mem_allocs

theorem Supplied.addAlloc (h : g.Supplied) (w : W) : (g.addAlloc w).Supplied := by
  constructor <;> simp only [op_addAlloc, opCount_addAlloc, allocCount_addAlloc, alloc_addAlloc]
  case alloc_address =>
    intro r hr
    split
    · rfl
    · exact h.alloc_address r (by omega)
  case allocs_sorted => exact h.allocs_sorted
  case ops_sorted =>
    intro r
    split
    · exact List.Pairwise.nil
    · exact h.ops_sorted r
  case ops_lt =>
    intro a r ha
    split at ha
    · cases ha
    · exact h.ops_lt ha
  case mem_allocs =>
    intro a r
    split
    · next he =>
      refine iff_of_false (fun ha => ?_) List.not_mem_nil
      exact absurd (lt_of_mem_ops (h.mem_allocs.mp ha)) (by omega)
    · exact h.mem_allocs

theorem Supplied.attach (h : g.Supplied) (hu : u < g.opCount) (hr : r < g.allocCount) :
    (g.attach u r).Supplied := by
  constructor <;>
    simp only [op_attach hu, alloc_attach hr, opCount_attach, allocCount_attach]
  case alloc_address => exact h.alloc_address
  case allocs_sorted =>
    intro a
    split
    · exact Ascending.insert_pairwise (h.allocs_sorted a)
    · exact h.allocs_sorted a
  case ops_sorted =>
    intro q
    split
    · exact Ascending.insert_pairwise (h.ops_sorted q)
    · exact h.ops_sorted q
  case ops_lt =>
    intro a q ha
    have hlt : a ∈ (g.alloc q).ops → a < g.opCount := h.ops_lt
    grind
  case mem_allocs =>
    intro a q
    have hm : q ∈ (g.op a).allocs ↔ a ∈ (g.alloc q).ops := h.mem_allocs
    grind

theorem Supplied.detach (h : g.Supplied) (hu : u < g.opCount) (hr : r < g.allocCount) :
    (g.detach u r).Supplied := by
  constructor <;>
    simp only [op_detach hu, alloc_detach hr, opCount_detach, allocCount_detach]
  case alloc_address => exact h.alloc_address
  case allocs_sorted =>
    intro a
    split
    · exact (h.allocs_sorted a).erase r
    · exact h.allocs_sorted a
  case ops_sorted =>
    intro q
    split
    · exact (h.ops_sorted q).erase u
    · exact h.ops_sorted q
  case ops_lt =>
    intro a q ha
    split at ha
    · exact h.ops_lt (List.mem_of_mem_erase ha)
    · exact h.ops_lt ha
  case mem_allocs =>
    intro a q
    have hm : q ∈ (g.op a).allocs ↔ a ∈ (g.alloc q).ops := h.mem_allocs
    have ha : q ∈ (g.op a).allocs.erase r ↔ _ := mem_erase (h.allocs_sorted a)
    have ho : a ∈ (g.alloc q).ops.erase u ↔ _ := mem_erase (h.ops_sorted q)
    grind

namespace WellFormed

theorem empty : (Graph.empty : Graph W).WellFormed := by
  refine ⟨⟨?_, ?_, ?_, ?_, ?_, ?_, ?_, ?_⟩, ⟨?_, ?_, ?_, ?_, ?_⟩⟩ <;>
    simp [Graph.empty, op, alloc, opCount, allocCount, Op.isolated, Alloc.unused]

theorem connect (h : g.WellFormed) (hu : u < g.opCount) (hv : v < g.opCount) (hne : u ≠ v) :
    (g.connect u v).WellFormed := by
  refine ⟨h.toOrdered.connect hu hv hne, h.toSupplied.congr (by simp) rfl (fun x => ?_)
    fun r => by simp⟩
  rw [op_connect hu hv]

theorem disconnect (h : g.WellFormed) (hu : u < g.opCount) (hv : v < g.opCount) :
    (g.disconnect u v).WellFormed := by
  refine ⟨h.toOrdered.disconnect hu hv, h.toSupplied.congr (by simp) rfl (fun x => ?_)
    fun r => by simp⟩
  rw [op_disconnect hu hv]

theorem join (h : g.WellFormed) (hu : u < g.opCount) (hv : v < g.opCount) (hne : u ≠ v)
    (hf : ∀ b, (g.op u).fwdLink = some b → b = v)
    (hb : ∀ a, (g.op v).bwdLink = some a → a = u) : (g.join u v).WellFormed := by
  refine ⟨h.toOrdered.join hu hv hne hf hb, h.toSupplied.congr (by simp) rfl (fun x => ?_)
    fun r => by simp⟩
  rw [op_join hu hv, op_connect hu hv]

theorem attach (h : g.WellFormed) (hu : u < g.opCount) (hr : r < g.allocCount) :
    (g.attach u r).WellFormed :=
  ⟨h.toOrdered.congr (by simp) fun x => by simp [op_attach hu x], h.toSupplied.attach hu hr⟩

theorem detach (h : g.WellFormed) (hu : u < g.opCount) (hr : r < g.allocCount) :
    (g.detach u r).WellFormed :=
  ⟨h.toOrdered.congr (by simp) fun x => by simp [op_detach hu x], h.toSupplied.detach hu hr⟩

theorem reweigh (h : g.WellFormed) (hr : r < g.allocCount) (w : W) :
    (g.modifyAlloc r fun alloc => { alloc with weight := w }).WellFormed := by
  refine ⟨h.toOrdered.congr rfl fun x => by simp,
    h.toSupplied.congr rfl (by simp) (by simp) fun q => ?_⟩
  rw [alloc_modifyAlloc hr]
  split <;> exact ⟨rfl, rfl⟩

theorem addOp (h : g.WellFormed) (name : String) : (g.addOp name).WellFormed :=
  ⟨h.toOrdered.addOp name, h.toSupplied.addOp name⟩

theorem addAlloc (h : g.WellFormed) (w : W) : (g.addAlloc w).WellFormed :=
  ⟨h.toOrdered.congr rfl fun x => by simp, h.toSupplied.addAlloc w⟩

end WellFormed

end Preservation

end Liveness.Graph
