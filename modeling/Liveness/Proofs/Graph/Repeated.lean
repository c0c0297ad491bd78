import Mathlib.Data.List.Sort
import Liveness.Proofs.Graph.Built
import Liveness.Proofs.Refinement.Tightening

/-! # Repeated edits

Graphs are put together by runs of equal edits. What such a run leaves at an address is what its
edits leave there one after the other, and graphs are equal when they have the same at all
addresses. Well-formed graphs only need the same forward halves.
-/

namespace Liveness.Graph

open Success

variable {W : Type} {g h : Graph W} {a b r : Nat}

section Extensionality

theorem ext_addresses [Zero W] (hc : h.opCount = g.opCount) (hr : h.allocCount = g.allocCount)
    (ho : ∀ a < g.opCount, h.op a = g.op a) (ha : ∀ r < g.allocCount, h.alloc r = g.alloc r) :
    h = g := by
  have hops : h.ops = g.ops := by
    rw [← Array.toList_inj, ops_toList, ops_toList, hc]
    exact List.map_congr_left fun a hm => ho a (List.mem_range.mp hm)
  have hallocs : h.allocs = g.allocs := by
    rw [← Array.toList_inj, allocs_toList, allocs_toList, hr]
    exact List.map_congr_left fun r hm => ha r (List.mem_range.mp hm)
  cases g
  cases h
  exact congr (congrArg Graph.mk hops) hallocs

/-- Well-formed graphs are equal when their forward halves are. -/
theorem WellFormed.ext [Zero W] (hg : g.WellFormed) (hh : h.WellFormed)
    (hc : h.opCount = g.opCount) (hr : h.allocCount = g.allocCount)
    (hn : ∀ a < g.opCount, (h.op a).name = (g.op a).name)
    (hw : ∀ r < g.allocCount, (h.alloc r).weight = (g.alloc r).weight)
    (ho : ∀ a b, b ∈ (h.op a).outs ↔ b ∈ (g.op a).outs)
    (ha : ∀ a r, r ∈ (h.op a).allocs ↔ r ∈ (g.op a).allocs)
    (hl : ∀ a, (h.op a).fwdLink = (g.op a).fwdLink) : h = g := by
  refine ext_addresses hc hr (fun a hlt => ?_) fun r hlt => ?_
  · have houts : (h.op a).outs = (g.op a).outs :=
      Ascending.eq_of_mem_iff (hh.outs_sorted a) (hg.outs_sorted a) (ho a)
    have hins : (h.op a).ins = (g.op a).ins :=
      Ascending.eq_of_mem_iff (hh.ins_sorted a) (hg.ins_sorted a) fun x => by
        rw [hh.mem_ins, hg.mem_ins, ho]
    have hallocs : (h.op a).allocs = (g.op a).allocs :=
      Ascending.eq_of_mem_iff (hh.allocs_sorted a) (hg.allocs_sorted a) (ha a)
    have hback : (h.op a).bwdLink = (g.op a).bwdLink := Option.ext fun x => by
      rw [hh.bwdLink, hg.bwdLink, hl]
    have haddress : (h.op a).address = (g.op a).address :=
      (hh.op_address a (hc ▸ hlt)).trans (hg.op_address a hlt).symm
    have hname := hn a hlt
    have hfwd := hl a
    generalize h.op a = x at *
    generalize g.op a = y at *
    cases x
    cases y
    simp_all
  · have hops : (h.alloc r).ops = (g.alloc r).ops :=
      Ascending.eq_of_mem_iff (hh.ops_sorted r) (hg.ops_sorted r) fun x => by
        rw [← hh.mem_allocs, ← hg.mem_allocs, ha]
    have haddress : (h.alloc r).address = (g.alloc r).address :=
      (hh.alloc_address r (hr ▸ hlt)).trans (hg.alloc_address r hlt).symm
    have hweight := hw r hlt
    generalize h.alloc r = x at *
    generalize g.alloc r = y at *
    cases x
    cases y
    simp_all

theorem WellFormed.disconnect_connect [Zero W] (hg : g.WellFormed) {u v : Nat} (hu : u < g.opCount)
    (hv : v < g.opCount) (hne : u ≠ v) (hn : v ∉ (g.op u).outs) :
    (g.connect u v).disconnect u v = g := by
  have hc : (g.connect u v).WellFormed := hg.connect hu hv hne
  have hu' : u < (g.connect u v).opCount := by simpa using hu
  have hv' : v < (g.connect u v).opCount := by simpa using hv
  refine hg.ext (hc.disconnect hu' hv') (by simp) (by simp) (fun x _ => ?_) (fun x _ => ?_)
    (fun x y => ?_) (fun x r => ?_) fun x => ?_
  · rw [op_disconnect hu' hv', op_connect hu hv]
  · rfl
  · rw [mem_outs_disconnect hc.toOrdered hu' hv', mem_outs_connect hu hv]
    constructor
    · rintro ⟨hxy | hxy, hno⟩
      · exact absurd hxy hno
      · exact hxy
    · intro hxy
      refine ⟨.inr hxy, ?_⟩
      rintro ⟨rfl, rfl⟩
      exact hn hxy
  · rw [op_disconnect hu' hv', op_connect hu hv]
  · exact (fwdLink_disconnect hu' hv' x).trans (fwdLink_connect hu hv x)

end Extensionality

section Folds

@[simp]
theorem opCount_addOps (g : Graph W) (names : List String) :
    (g.addOps names).opCount = g.opCount + names.length := by
  induction names generalizing g with
  | nil => rfl
  | cons name names ih =>
    refine (ih (g.addOp name)).trans ?_
    rw [opCount_addOp, List.length_cons]
    omega

theorem op_addOps (names : List String) : (g.addOps names).op a =
    if g.opCount ≤ a ∧ a < g.opCount + names.length then
      Op.isolated a (names.getD (a - g.opCount) "") else g.op a := by
  induction names generalizing g with
  | nil =>
    rw [if_neg (by simp)]
    rfl
  | cons name names ih =>
    refine (ih (g := g.addOp name)).trans ?_
    rw [op_addOp, opCount_addOp, List.length_cons]
    rcases Nat.lt_trichotomy a g.opCount with hlt | rfl | hgt
    · rw [if_neg (by omega), if_neg (by omega), if_neg (by omega)]
    · rw [if_neg (by omega), if_pos rfl, if_pos (by omega), Nat.sub_self]
      rfl
    · rw [if_neg (show a ≠ g.opCount by omega),
        show a - g.opCount = (a - (g.opCount + 1)) + 1 by omega, List.getD_cons_succ]
      exact if_congr (by omega) rfl rfl

theorem allocs_addOps (g : Graph W) (names : List String) :
    (g.addOps names).allocs = g.allocs := by
  induction names generalizing g with
  | nil => rfl
  | cons name names ih => exact ih (g.addOp name)

theorem op_addAllocs (weights : List W) : (weights.foldl addAlloc g).op a = g.op a := by
  induction weights generalizing g with
  | nil => rfl
  | cons w ws ih => exact ih (g := g.addAlloc w)

theorem opCount_addAllocs (g : Graph W) (weights : List W) :
    (weights.foldl addAlloc g).opCount = g.opCount := by
  induction weights generalizing g with
  | nil => rfl
  | cons w ws ih => exact ih (g.addAlloc w)

theorem allocCount_addAllocs (g : Graph W) (weights : List W) :
    (weights.foldl addAlloc g).allocCount = g.allocCount + weights.length := by
  induction weights generalizing g with
  | nil => rfl
  | cons w ws ih =>
    refine (ih (g.addAlloc w)).trans ?_
    rw [allocCount_addAlloc, List.length_cons]
    omega

theorem alloc_addAllocs [Zero W] (weights : List W) : (weights.foldl addAlloc g).alloc r =
    if g.allocCount ≤ r ∧ r < g.allocCount + weights.length then
      Alloc.unused r (weights.getD (r - g.allocCount) 0) else g.alloc r := by
  induction weights generalizing g with
  | nil =>
    rw [if_neg (by simp)]
    rfl
  | cons w ws ih =>
    refine (ih (g := g.addAlloc w)).trans ?_
    rw [alloc_addAlloc, allocCount_addAlloc, List.length_cons]
    rcases Nat.lt_trichotomy r g.allocCount with hlt | rfl | hgt
    · rw [if_neg (by omega), if_neg (by omega), if_neg (by omega)]
    · rw [if_neg (by omega), if_pos rfl, if_pos (by omega), Nat.sub_self]
      rfl
    · rw [if_neg (show r ≠ g.allocCount by omega),
        show r - g.allocCount = (r - (g.allocCount + 1)) + 1 by omega, List.getD_cons_succ]
      exact if_congr (by omega) rfl rfl

theorem op_connectAll {pairs : List (Nat × Nat)}
    (hp : ∀ p ∈ pairs, p.1 < g.opCount ∧ p.2 < g.opCount ∧ p.1 ≠ p.2) (x : Nat) :
    ∃ outs ins, (g.connectAll pairs).op x = { g.op x with outs := outs, ins := ins } := by
  induction pairs generalizing g with
  | nil => exact ⟨_, _, rfl⟩
  | cons p ps ih =>
    obtain ⟨hu, hv, -⟩ := hp p List.mem_cons_self
    obtain ⟨outs, ins, he⟩ := ih (g := g.connect p.1 p.2) fun q hq => by
      simpa using hp q (List.mem_cons_of_mem p hq)
    refine ⟨outs, ins, he.trans ?_⟩
    rw [op_connect hu hv]

theorem mem_outs_connectAll {pairs : List (Nat × Nat)}
    (hp : ∀ p ∈ pairs, p.1 < g.opCount ∧ p.2 < g.opCount ∧ p.1 ≠ p.2) :
    b ∈ ((g.connectAll pairs).op a).outs ↔ (a, b) ∈ pairs ∨ b ∈ (g.op a).outs := by
  induction pairs generalizing g with
  | nil => simp [connectAll]
  | cons p ps ih =>
    obtain ⟨hu, hv, -⟩ := hp p List.mem_cons_self
    refine (ih fun q hq => ?_).trans ?_
    · simpa using hp q (List.mem_cons_of_mem p hq)
    · rw [mem_outs_connect hu hv, List.mem_cons, Prod.ext_iff]
      tauto

theorem op_attachEach (rs : List Nat) (ha : a < g.opCount) (x : Nat) :
    ∃ allocs, (rs.foldl (fun g r => g.attach a r) g).op x = { g.op x with allocs := allocs } := by
  induction rs generalizing g with
  | nil => exact ⟨_, rfl⟩
  | cons r rs ih =>
    obtain ⟨allocs, he⟩ := ih (g := g.attach a r) (by simpa using ha)
    refine ⟨allocs, he.trans ?_⟩
    rw [op_attach ha]

theorem mem_allocs_attachEach {rs : List Nat} (ha : a < g.opCount) {x : Nat} :
    r ∈ ((rs.foldl (fun g r => g.attach a r) g).op x).allocs ↔
      x = a ∧ r ∈ rs ∨ r ∈ (g.op x).allocs := by
  induction rs generalizing g with
  | nil => simp
  | cons q rs ih =>
    refine (ih (g := g.attach a q) (by simpa using ha)).trans ?_
    rw [op_attach ha]
    dsimp only
    split
    · next he => simp [he]; tauto
    · next he => simp [he]

theorem opCount_attachEach (g : Graph W) (a : Nat) (rs : List Nat) :
    (rs.foldl (fun g r => g.attach a r) g).opCount = g.opCount := by
  induction rs generalizing g with
  | nil => rfl
  | cons r rs ih => exact (ih (g.attach a r)).trans (opCount_attach g a r)

theorem allocCount_attachEach (g : Graph W) (a : Nat) (rs : List Nat) :
    (rs.foldl (fun g r => g.attach a r) g).allocCount = g.allocCount := by
  induction rs generalizing g with
  | nil => rfl
  | cons r rs ih => exact (ih (g.attach a r)).trans (allocCount_attach g a r)

theorem constrainEach_eq_ok (bs : List Nat) (ha : a < g.opCount)
    (hb : ∀ b ∈ bs, b < g.opCount ∧ a ≠ b) :
    bs.foldlM (fun g b => g.constrain a b) g = .ok (g.connectAll (bs.map fun b => (a, b))) := by
  induction bs generalizing g with
  | nil => rfl
  | cons b bs ih =>
    obtain ⟨hlt, hne⟩ := hb b List.mem_cons_self
    rw [List.foldlM_cons, bind_eq_ok]
    refine ⟨g.connect a b, constrain_eq_ok.mpr ⟨⟨ha, hlt, hne⟩, rfl⟩, ih (by simpa using ha) ?_⟩
    exact fun c hc => by simpa using hb c (List.mem_cons_of_mem b hc)

theorem needEach_eq_ok (rs : List Nat) (ha : a < g.opCount) (hr : ∀ r ∈ rs, r < g.allocCount) :
    rs.foldlM (fun g r => g.need a r) g = .ok (rs.foldl (fun g r => g.attach a r) g) := by
  induction rs generalizing g with
  | nil => rfl
  | cons r rs ih =>
    rw [List.foldlM_cons, bind_eq_ok]
    refine ⟨g.attach a r, need_eq_ok.mpr ⟨ha, hr r List.mem_cons_self, rfl⟩,
      ih (by simpa using ha) ?_⟩
    exact fun q hq => by simpa using hr q (List.mem_cons_of_mem r hq)

variable [Zero W]

@[simp]
theorem alloc_connectAll (g : Graph W) (pairs : List (Nat × Nat)) (x : Nat) :
    (g.connectAll pairs).alloc x = g.alloc x := by
  induction pairs generalizing g with
  | nil => rfl
  | cons p ps ih => exact ih (g.connect p.1 p.2)

theorem weight_attachEach {rs : List Nat} (hr : ∀ r ∈ rs, r < g.allocCount) (x : Nat) :
    ((rs.foldl (fun g r => g.attach a r) g).alloc x).weight = (g.alloc x).weight := by
  induction rs generalizing g with
  | nil => rfl
  | cons r rs ih =>
    refine (ih (g := g.attach a r) fun q hq => ?_).trans ?_
    · simpa using hr q (List.mem_cons_of_mem r hq)
    · rw [alloc_attach (hr r List.mem_cons_self)]

theorem WellFormed.connectAll {pairs : List (Nat × Nat)} (hg : g.WellFormed)
    (hp : ∀ p ∈ pairs, p.1 < g.opCount ∧ p.2 < g.opCount ∧ p.1 ≠ p.2) :
    (g.connectAll pairs).WellFormed := by
  induction pairs generalizing g with
  | nil => exact hg
  | cons p ps ih =>
    obtain ⟨hu, hv, hne⟩ := hp p List.mem_cons_self
    refine ih (hg.connect hu hv hne) fun q hq => ?_
    simpa using hp q (List.mem_cons_of_mem p hq)

end Folds

end Liveness.Graph
