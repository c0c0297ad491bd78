import Liveness.Proofs.Graph.Record

/-! # Records in any order

Whether a record makes a graph depends on what its parts say and not on their order: the
addresses have to be dense, everything that is named has to exist, and no two Ops may be linked
to the same one. The graph then has just what the parts say. So records with the same parts in
another order make the same graph, or none.
-/

namespace Liveness

open Success

variable {W : Type}

namespace OpRecord

variable {o p : OpRecord} {n m : Nat}

/-- The same Op, with its constraints and needs in another order. -/
structure Reordered (o p : OpRecord) : Prop where
  address : p.address = o.address
  name : p.name = o.name
  outs : o.outs.Perm p.outs
  allocs : o.allocs.Perm p.allocs
  fwdLink : p.fwdLink = o.fwdLink

structure InRange (o : OpRecord) (n m : Nat) : Prop where
  outs : ∀ b ∈ o.outs, b < n ∧ o.address ≠ b
  allocs : ∀ r ∈ o.allocs, r < m
  link : o.fwdLink = -1 ∨ ∃ b : Nat, o.fwdLink = b ∧ b < n ∧ o.address ≠ b

def LinksDiffer (o p : OpRecord) : Prop := o.fwdLink = p.fwdLink → o.fwdLink = -1

theorem Reordered.symm (h : o.Reordered p) : p.Reordered o :=
  ⟨h.address.symm, h.name.symm, h.outs.symm, h.allocs.symm, h.fwdLink.symm⟩

theorem InRange.reordered (ho : o.InRange n m) (h : o.Reordered p) : p.InRange n m := by
  refine ⟨fun b hb => ?_, fun r hr => ho.allocs r (h.allocs.mem_iff.mpr hr), ?_⟩
  · rw [h.address]
    exact ho.outs b (h.outs.mem_iff.mpr hb)
  · rw [h.fwdLink, h.address]
    exact ho.link

end OpRecord

namespace GraphRecord

variable {r s : GraphRecord W}

/-- The same parts in another order. -/
structure Reordered (r s : GraphRecord W) : Prop where
  ops : ∃ os, r.ops.Perm os ∧ List.Forall₂ OpRecord.Reordered os s.ops
  allocs : r.allocs.Perm s.allocs

structure Valid (r : GraphRecord W) : Prop where
  addresses : (r.ops.map OpRecord.address).Perm (List.range r.ops.length)
  allocAddresses : (r.allocs.map AllocRecord.address).Perm (List.range r.allocs.length)
  inRange : ∀ o ∈ r.ops, o.InRange r.ops.length r.allocs.length
  linksDiffer : r.ops.Pairwise OpRecord.LinksDiffer

namespace Reordered

theorem symm (h : r.Reordered s) : s.Reordered r := by
  obtain ⟨os, hp, hf⟩ := h.ops
  obtain ⟨ps, hf', hp'⟩ := List.perm_comp_forall₂ hp hf
  exact ⟨⟨ps, hp'.symm, hf'.flip.imp fun _ _ h => h.symm⟩, h.allocs.symm⟩

theorem exists_reordered (h : r.Reordered s) {o : OpRecord} (ho : o ∈ r.ops) :
    ∃ p ∈ s.ops, o.Reordered p := by
  obtain ⟨os, hp, hf⟩ := h.ops
  obtain ⟨i, hi, rfl⟩ := List.getElem_of_mem (hp.mem_iff.mp ho)
  exact ⟨_, List.getElem_mem (hf.length_eq ▸ hi), (List.forall₂_iff_get.mp hf).2 i hi _⟩

theorem exists_iff {P : OpRecord → Prop} (h : r.Reordered s)
    (hP : ∀ {o p}, o.Reordered p → P o → P p) : (∃ p ∈ s.ops, P p) ↔ ∃ o ∈ r.ops, P o := by
  constructor
  · rintro ⟨p, hp, hP'⟩
    obtain ⟨o, ho, hpo⟩ := h.symm.exists_reordered hp
    exact ⟨o, ho, hP hpo hP'⟩
  · rintro ⟨o, ho, hP'⟩
    obtain ⟨p, hp, hop⟩ := h.exists_reordered ho
    exact ⟨p, hp, hP hop hP'⟩

theorem map_perm {α : Type} {f : OpRecord → α} (h : r.Reordered s)
    (hf : ∀ {o p}, o.Reordered p → f p = f o) : (r.ops.map f).Perm (s.ops.map f) := by
  obtain ⟨os, hp, hos⟩ := h.ops
  have he : os.map f = s.ops.map f :=
    List.forall₂_eq_eq_eq ▸ (List.forall₂_map_left_iff.mpr
      (List.forall₂_map_right_iff.mpr (hos.imp fun _ _ ho => (hf ho).symm)))
  rw [← he]
  exact hp.map f

theorem length_ops (h : r.Reordered s) : s.ops.length = r.ops.length := by
  simpa using (h.map_perm fun ho => ho.address).length_eq.symm

theorem length_allocs (h : r.Reordered s) : s.allocs.length = r.allocs.length :=
  h.allocs.length_eq.symm

theorem valid (h : r.Reordered s) (hr : r.Valid) : s.Valid := by
  refine ⟨?_, ?_, fun p hp => ?_, ?_⟩
  · rw [h.length_ops]
    exact (h.map_perm fun ho => ho.address).symm.trans hr.addresses
  · rw [h.length_allocs]
    exact (h.allocs.map _).symm.trans hr.allocAddresses
  · obtain ⟨o, ho, hop⟩ := h.symm.exists_reordered hp
    rw [h.length_ops, h.length_allocs]
    exact (hr.inRange o ho).reordered hop.symm
  · have hlinks : (r.ops.map OpRecord.fwdLink).Pairwise fun x y => x = y → x = -1 :=
      List.pairwise_map.mpr hr.linksDiffer
    have hlinks' : (s.ops.map OpRecord.fwdLink).Pairwise fun x y => x = y → x = -1 :=
      ((h.map_perm fun ho => ho.fwdLink).pairwise_iff
        fun hxy he => he.trans (hxy he.symm)).mp hlinks
    rw [List.pairwise_map] at hlinks'
    exact hlinks'

end Reordered

end GraphRecord

namespace Graph

variable {g h : Graph W} {o : OpRecord} {a b : Nat}

section Steps

theorem constrainEach_eq_ok_iff {bs : List Nat} (ha : a < g.opCount) :
    bs.foldlM (fun g b => g.constrain a b) g = .ok h ↔
      (∀ b ∈ bs, b < g.opCount ∧ a ≠ b) ∧ g.connectAll (bs.map fun b => (a, b)) = h := by
  constructor
  · intro h'
    have hb : ∀ b ∈ bs, b < g.opCount ∧ a ≠ b := by
      refine foldlM_forall (P := fun k : Graph W => k.opCount = g.opCount) rfl ?_ h'
      rintro b - k k' hk hs
      obtain ⟨⟨-, hlt, hne⟩, rfl⟩ := constrain_eq_ok.mp hs
      exact ⟨(opCount_connect k a b).trans hk, hk ▸ hlt, hne⟩
    exact ⟨hb, Except.ok.inj ((constrainEach_eq_ok bs ha hb).symm.trans h')⟩
  · rintro ⟨hb, rfl⟩
    exact constrainEach_eq_ok bs ha hb

theorem needEach_eq_ok_iff {rs : List Nat} (ha : a < g.opCount) :
    rs.foldlM (fun g r => g.need a r) g = .ok h ↔
      (∀ r ∈ rs, r < g.allocCount) ∧ rs.foldl (fun g r => g.attach a r) g = h := by
  constructor
  · intro h'
    have hr : ∀ r ∈ rs, r < g.allocCount := by
      refine foldlM_forall (P := fun k : Graph W => k.allocCount = g.allocCount) rfl ?_ h'
      rintro r - k k' hk hs
      obtain ⟨-, hlt, rfl⟩ := need_eq_ok.mp hs
      exact ⟨(allocCount_attach k a r).trans hk, hk ▸ hlt⟩
    exact ⟨hr, Except.ok.inj ((needEach_eq_ok rs ha hr).symm.trans h')⟩
  · rintro ⟨hr, rfl⟩
    exact needEach_eq_ok rs ha hr

def withNeeds (g : Graph W) (o : OpRecord) : Graph W :=
  o.allocs.foldl (fun h r => h.attach o.address r)
    (g.connectAll (o.outs.map fun b => (o.address, b)))

def withRecord (g : Graph W) (o : OpRecord) : Graph W :=
  if o.fwdLink = -1 then g.withNeeds o else (g.withNeeds o).join o.address o.fwdLink.toNat

/-- The link of a stored Op is in no conflict with the links that are there. -/
def LinkFree (g : Graph W) (o : OpRecord) : Prop :=
  ∀ b : Nat, o.fwdLink = b → (∀ c, (g.op o.address).fwdLink = some c → c = b) ∧
    ∀ a, (g.op b).bwdLink = some a → a = o.address

@[simp]
theorem opCount_withNeeds (g : Graph W) (o : OpRecord) : (g.withNeeds o).opCount = g.opCount := by
  rw [withNeeds, opCount_attachEach, opCount_connectAll]

@[simp]
theorem allocCount_withNeeds (g : Graph W) (o : OpRecord) :
    (g.withNeeds o).allocCount = g.allocCount := by
  rw [withNeeds, allocCount_attachEach, allocCount_connectAll]

theorem op_withNeeds (ha : o.address < g.opCount)
    (hb : ∀ b ∈ o.outs, b < g.opCount ∧ o.address ≠ b) (x : Nat) :
    ∃ outs ins allocs,
      (g.withNeeds o).op x = { g.op x with outs := outs, ins := ins, allocs := allocs } ∧
      (∀ b, b ∈ outs ↔ x = o.address ∧ b ∈ o.outs ∨ b ∈ (g.op x).outs) ∧
      ∀ r, r ∈ allocs ↔ x = o.address ∧ r ∈ o.allocs ∨ r ∈ (g.op x).allocs := by
  have hp : ∀ p ∈ o.outs.map fun b => (o.address, b),
      p.1 < g.opCount ∧ p.2 < g.opCount ∧ p.1 ≠ p.2 := by
    simpa [ha] using hb
  have ha' : o.address < (g.connectAll (o.outs.map fun b => (o.address, b))).opCount := by
    rwa [opCount_connectAll]
  obtain ⟨outs, ins, he⟩ := op_connectAll hp x
  obtain ⟨allocs, he'⟩ := op_attachEach o.allocs ha' x
  refine ⟨outs, ins, allocs, ?_, fun b => ?_, fun r => ?_⟩
  · rw [withNeeds, he', he]
  · have hm := mem_outs_connectAll hp (a := x) (b := b)
    rw [he] at hm
    simpa [eq_comm, and_comm] using hm
  · have hm : _ ↔ x = o.address ∧ r ∈ o.allocs ∨ r ∈ _ := mem_allocs_attachEach ha'
    rw [he', he] at hm
    exact hm

theorem addLink_eq_ok (ha : o.address < g.opCount)
    (hb : ∀ b ∈ o.outs, b < g.opCount ∧ o.address ≠ b) :
    (if o.fwdLink = -1 then pure (g.withNeeds o)
      else if 0 ≤ o.fwdLink then (g.withNeeds o).link o.address o.fwdLink.toNat
      else throw (.malformedGraph (.badLink o.fwdLink o.address))) = Except.ok (ε := Error) h ↔
    (o.fwdLink = -1 ∨ ∃ b : Nat, o.fwdLink = b ∧ b < g.opCount ∧ o.address ≠ b) ∧
      g.LinkFree o ∧ g.withRecord o = h := by
  unfold withRecord LinkFree
  by_cases hno : o.fwdLink = -1
  · simp only [hno, if_true, pure_eq_ok, true_or, true_and]
    exact (and_iff_right fun b hb => absurd hb (by omega)).symm
  · rw [if_neg hno, if_neg hno]
    by_cases hnat : 0 ≤ o.fwdLink
    · obtain ⟨b, hb'⟩ := Int.eq_ofNat_of_zero_le hnat
      obtain ⟨_, _, _, hself, -⟩ := op_withNeeds ha hb o.address
      obtain ⟨_, _, _, hother, -⟩ := op_withNeeds ha hb b
      rw [if_pos hnat, link_eq_ok, hb', Int.toNat_natCast, hself, hother]
      simp only [opCount_withNeeds, ha, true_and, Int.natCast_inj]
      constructor
      · rintro ⟨hr, hf, hw, rfl⟩
        exact ⟨.inr ⟨b, rfl, hr⟩, by rintro _ rfl; exact ⟨hf, hw⟩, rfl⟩
      · rintro ⟨hr | ⟨_, rfl, hr⟩, hf, rfl⟩
        · omega
        · exact ⟨hr, (hf _ rfl).1, (hf _ rfl).2, rfl⟩
    · rw [if_neg hnat, throw_eq_ok, false_iff]
      rintro ⟨hno' | ⟨b, hb, -⟩, -⟩
      · exact hno hno'
      · omega

theorem addRecord_eq_ok (ha : o.address < g.opCount) : addRecord g o = .ok h ↔
    o.InRange g.opCount g.allocCount ∧ g.LinkFree o ∧ g.withRecord o = h := by
  unfold addRecord
  simp only [bind_eq_ok, constrainEach_eq_ok_iff ha]
  constructor
  · rintro ⟨_, ⟨houts, rfl⟩, k, hk, he⟩
    obtain ⟨hr, rfl⟩ := (needEach_eq_ok_iff (by simpa using ha)).mp hk
    obtain ⟨hl, hf, he⟩ := (addLink_eq_ok ha houts).mp he
    exact ⟨⟨houts, by simpa using hr, hl⟩, hf, he⟩
  · rintro ⟨⟨houts, hr, hl⟩, hf, he⟩
    have hneed := (needEach_eq_ok_iff (g := g.connectAll (o.outs.map fun b => (o.address, b)))
      (by simpa using ha)).mpr ⟨by simpa using hr, rfl⟩
    exact ⟨_, ⟨houts, rfl⟩, _, hneed, (addLink_eq_ok ha houts).mpr ⟨hl, hf, he⟩⟩

theorem opCount_withRecord (g : Graph W) (o : OpRecord) :
    (g.withRecord o).opCount = g.opCount := by
  unfold withRecord
  split <;> simp

theorem allocCount_withRecord (g : Graph W) (o : OpRecord) :
    (g.withRecord o).allocCount = g.allocCount := by
  unfold withRecord
  split <;> simp

theorem op_withRecord (ha : o.address < g.opCount) (hr : o.InRange g.opCount g.allocCount)
    (x : Nat) :
    ((g.withRecord o).op x).name = (g.op x).name ∧
      (∀ b, b ∈ ((g.withRecord o).op x).outs ↔
        x = o.address ∧ (b ∈ o.outs ∨ o.fwdLink = b) ∨ b ∈ (g.op x).outs) ∧
      (∀ r, r ∈ ((g.withRecord o).op x).allocs ↔
        x = o.address ∧ r ∈ o.allocs ∨ r ∈ (g.op x).allocs) ∧
      ∀ b, ((g.withRecord o).op x).fwdLink = some b ↔
        if x = o.address ∧ o.fwdLink ≠ -1 then o.fwdLink = b else (g.op x).fwdLink = some b := by
  obtain ⟨outs, ins, allocs, he, houts, hallocs⟩ := op_withNeeds ha hr.outs x
  unfold withRecord
  by_cases hno : o.fwdLink = -1
  · rw [if_pos hno, he]
    refine ⟨rfl, fun b => ?_, hallocs, fun b => by simp [hno]⟩
    rw [houts]
    have : o.fwdLink ≠ b := by omega
    simp [this]
  · obtain ⟨b, hb, hlt, hne⟩ := hr.link.resolve_left hno
    have ha' : o.address < (g.withNeeds o).opCount := by simpa using ha
    have hb' : b < (g.withNeeds o).opCount := by simpa using hlt
    rw [if_neg hno, hb, Int.toNat_natCast, op_join ha' hb']
    refine ⟨?_, fun c => ?_, fun r => ?_, fun c => ?_⟩
    · rw [op_connect ha' hb', he]
    · dsimp only
      rw [mem_outs_connect ha' hb', he, houts, Int.natCast_inj]
      grind
    · rw [op_connect ha' hb', he]
      exact hallocs r
    · dsimp only
      rw [he]
      by_cases hx : x = o.address <;> grind

end Steps

theorem exists_filterMap_find?_range {α β : Type} {xs : List α} {key : α → Nat} {n : Nat}
    (hp : (xs.map key).Perm (List.range n)) (value : α → β) :
    ∃ ys, xs.Perm ys ∧ ys.map key = List.range n ∧
      ((List.range n).filterMap fun i => (xs.find? fun x => key x == i).map value) =
        ys.map value := by
  have hmap : List.Forall₂ (fun k x => k = key x) (xs.map key) xs :=
    List.forall₂_map_left_iff.mpr (List.forall₂_same.mpr fun _ _ => rfl)
  obtain ⟨ys, hf, hys⟩ := List.perm_comp_forall₂ hp.symm hmap
  have hkeys : ys.map key = List.range n :=
    (List.forall₂_eq_eq_eq ▸ List.forall₂_map_right_iff.mpr hf).symm
  refine ⟨ys, hys.symm, hkeys, ?_⟩
  have hinj : ∀ x ∈ xs, ∀ y ∈ xs, key x = key y → x = y := List.inj_on_of_nodup_map
    (hp.nodup_iff.mpr List.nodup_range)
  rw [← hkeys, List.filterMap_map, ← List.filterMap_eq_map (f := value)]
  refine List.filterMap_congr fun y hy => ?_
  have hfound : (xs.find? fun x => key x == key y) = some y := by
    cases hx : xs.find? fun x => key x == key y with
    | none => exact absurd (List.find?_eq_none.mp hx y (hys.mem_iff.mp hy)) (by simp)
    | some x =>
      exact congrArg some (hinj x (List.mem_of_find?_eq_some hx) y (hys.mem_iff.mp hy)
        (by simpa using List.find?_some hx))
  exact congrArg (Option.map value) hfound

theorem getElem?_of_map_eq_range {α : Type} {ys : List α} {key : α → Nat} {n : Nat}
    (hk : ys.map key = List.range n) {y : α} (hy : y ∈ ys) : ys[key y]? = some y := by
  obtain ⟨i, hi, rfl⟩ := List.getElem_of_mem hy
  have hkey : key ys[i] = i := by
    rw [← List.getElem_map key (h := by simpa using hi)]
    simp [hk]
  rw [hkey, List.getElem?_eq_getElem hi]

section Following

variable [Weight W] {r s : GraphRecord W} {done rest : List OpRecord}

/-- The graph has the Ops and Allocs of the record, and the constraints, needs and links of some
of its Ops. -/
structure Follows (r : GraphRecord W) (done : List OpRecord) (g : Graph W) : Prop where
  built : g.Built
  opCount : g.opCount = r.ops.length
  allocCount : g.allocCount = r.allocs.length
  name : ∀ o ∈ r.ops, (g.op o.address).name = o.name
  weight : ∀ x ∈ r.allocs, (g.alloc x.address).weight = x.weight
  outs : ∀ a b, b ∈ (g.op a).outs ↔ ∃ o ∈ done, a = o.address ∧ (b ∈ o.outs ∨ o.fwdLink = b)
  allocs : ∀ a x, x ∈ (g.op a).allocs ↔ ∃ o ∈ done, a = o.address ∧ x ∈ o.allocs
  fwdLink : ∀ a b, (g.op a).fwdLink = some b ↔ ∃ o ∈ done, a = o.address ∧ o.fwdLink = (b : Int)

theorem weight_withRecord (hr : o.InRange g.opCount g.allocCount) (x : Nat) :
    ((g.withRecord o).alloc x).weight = (g.alloc x).weight := by
  have hneeds : ((g.withNeeds o).alloc x).weight = (g.alloc x).weight := by
    rw [withNeeds, weight_attachEach (by simpa using hr.allocs), alloc_connectAll]
  unfold withRecord
  split
  · exact hneeds
  · rw [alloc_join, hneeds]

namespace Follows

/-- The link of an Op that has not been added yet is free when no Op that was added is linked to
the same one. -/
theorem linkFree_iff (hf : g.Follows r done) (hn : ∀ p ∈ done, p.address ≠ o.address)
    (hr : o.InRange r.ops.length r.allocs.length) :
    g.LinkFree o ↔ ∀ p ∈ done, p.LinksDiffer o := by
  constructor
  · rintro hfree p hp he
    rcases hr.link with hno | ⟨b, hb, -⟩
    · exact he.trans hno
    · have hback : (g.op b).bwdLink = some p.address :=
        hf.built.wellFormed.bwdLink.mpr ((hf.fwdLink _ _).mpr ⟨p, hp, rfl, he.trans hb⟩)
      exact absurd ((hfree b hb).2 _ hback) (hn p hp)
  · rintro hdiffer b hb
    constructor
    · rintro c hc
      obtain ⟨p, hp, ha, -⟩ := (hf.fwdLink _ _).mp hc
      exact absurd ha.symm (hn p hp)
    · rintro a ha
      obtain ⟨p, hp, -, hl⟩ := (hf.fwdLink _ _).mp (hf.built.wellFormed.bwdLink.mp ha)
      have := hdiffer p hp (hl.trans hb.symm)
      omega

theorem addRecord_succeeds_iff (hf : g.Follows r done) (ha : o.address < r.ops.length)
    (hn : ∀ p ∈ done, p.address ≠ o.address) :
    (∃ h, addRecord g o = .ok h) ↔
      o.InRange r.ops.length r.allocs.length ∧ ∀ p ∈ done, p.LinksDiffer o := by
  simp only [addRecord_eq_ok (hf.opCount ▸ ha), hf.opCount, hf.allocCount]
  constructor
  · rintro ⟨_, hr, hfree, -⟩
    exact ⟨hr, (hf.linkFree_iff hn hr).mp hfree⟩
  · rintro ⟨hr, hdiffer⟩
    exact ⟨_, hr, (hf.linkFree_iff hn hr).mpr hdiffer, rfl⟩

theorem addRecord (hf : g.Follows r done) (ha : o.address < r.ops.length)
    (hn : ∀ p ∈ done, p.address ≠ o.address) (h' : Graph.addRecord g o = .ok h) :
    h.Follows r (done ++ [o]) := by
  have hbuilt := addRecord_built hf.built h'
  have ha' : o.address < g.opCount := hf.opCount ▸ ha
  obtain ⟨hr, -, rfl⟩ := (addRecord_eq_ok ha').mp h'
  have hop := op_withRecord ha' hr
  refine ⟨hbuilt, (opCount_withRecord g o).trans hf.opCount,
    (allocCount_withRecord g o).trans hf.allocCount, fun p hp => ?_, fun x hx => ?_,
    fun a b => ?_, fun a x => ?_, fun a b => ?_⟩
  · exact (hop p.address).1.trans (hf.name p hp)
  · exact (weight_withRecord hr x.address).trans (hf.weight x hx)
  · rw [(hop a).2.1, hf.outs]
    simp only [List.mem_append, List.mem_singleton, or_and_right, exists_or, exists_eq_left]
    rw [or_comm]
  · rw [(hop a).2.2.1, hf.allocs]
    simp only [List.mem_append, List.mem_singleton, or_and_right, exists_or, exists_eq_left]
    rw [or_comm]
  · rw [(hop a).2.2.2, hf.fwdLink]
    simp only [List.mem_append, List.mem_singleton, or_and_right, exists_or, exists_eq_left]
    by_cases hao : a = o.address
    · have hnone : ¬ ∃ p ∈ done, a = p.address ∧ p.fwdLink = b := by
        rintro ⟨p, hp, rfl, -⟩
        exact hn p hp hao
      rw [or_iff_right hnone]
      by_cases hno : o.fwdLink = -1
      · rw [if_neg (by simp [hno]), iff_false_left hnone]
        omega
      · rw [if_pos ⟨hao, hno⟩, and_iff_right hao]
    · simp [hao]

omit [Weight W] in
theorem fresh_of_nodup (hn : ((done ++ [o] ++ rest).map OpRecord.address).Nodup) :
    ∀ p ∈ done, p.address ≠ o.address := by
  intro p hp
  rw [List.append_assoc, List.map_append] at hn
  exact (List.nodup_append.mp hn).2.2 _ (List.mem_map_of_mem hp) _ (by simp)

/-- The rest of the Ops of a record can be added when they fit, to each other and to those that
were added. -/
theorem foldlM_succeeds_iff (hf : g.Follows r done)
    (ha : ∀ o ∈ rest, o.address < r.ops.length)
    (hn : ((done ++ rest).map OpRecord.address).Nodup) (hd : done.Pairwise OpRecord.LinksDiffer) :
    (∃ h, rest.foldlM Graph.addRecord g = .ok h) ↔
      (∀ o ∈ rest, o.InRange r.ops.length r.allocs.length) ∧
        (done ++ rest).Pairwise OpRecord.LinksDiffer := by
  induction rest generalizing g done with
  | nil => simp [hd, pure_eq_ok]
  | cons o rest ih =>
    rw [List.append_cons] at hn ⊢
    have hfresh := fresh_of_nodup hn
    have hao := ha o List.mem_cons_self
    have hrest : ∀ p ∈ rest, p.address < r.ops.length :=
      fun p hp => ha p (List.mem_cons_of_mem o hp)
    have hpairs : (done ++ [o]).Pairwise OpRecord.LinksDiffer ↔ ∀ p ∈ done, p.LinksDiffer o := by
      simp [List.pairwise_append, hd]
    simp only [List.foldlM_cons, bind_eq_ok, List.forall_mem_cons]
    constructor
    · rintro ⟨h, k, hk, hh⟩
      obtain ⟨hr, hdiffer⟩ := (hf.addRecord_succeeds_iff hao hfresh).mp ⟨k, hk⟩
      have hnext := (ih (hf.addRecord hao hfresh hk) hrest hn (hpairs.mpr hdiffer)).mp ⟨h, hh⟩
      exact ⟨⟨hr, hnext.1⟩, hnext.2⟩
    · rintro ⟨⟨hr, hrs⟩, hdiffer⟩
      have hd' := (List.pairwise_append.mp hdiffer).1
      obtain ⟨k, hk⟩ := (hf.addRecord_succeeds_iff hao hfresh).mpr ⟨hr, hpairs.mp hd'⟩
      obtain ⟨h, hh⟩ := (ih (hf.addRecord hao hfresh hk) hrest hn hd').mpr ⟨hrs, hdiffer⟩
      exact ⟨h, k, hk, hh⟩

theorem foldlM (hf : g.Follows r done) (ha : ∀ o ∈ rest, o.address < r.ops.length)
    (hn : ((done ++ rest).map OpRecord.address).Nodup)
    (h' : rest.foldlM Graph.addRecord g = .ok h) : h.Follows r (done ++ rest) := by
  induction rest generalizing g done with
  | nil =>
    obtain rfl := pure_eq_ok.mp h'
    simpa using hf
  | cons o rest ih =>
    rw [List.foldlM_cons, bind_eq_ok] at h'
    obtain ⟨k, hk, h'⟩ := h'
    rw [List.append_cons] at hn ⊢
    exact ih (hf.addRecord (ha o List.mem_cons_self) (fresh_of_nodup hn) hk)
      (fun p hp => ha p (List.mem_cons_of_mem o hp)) hn h'

end Follows

theorem skeleton_follows
    (ha : (r.ops.map OpRecord.address).Perm (List.range r.ops.length))
    (hr : (r.allocs.map AllocRecord.address).Perm (List.range r.allocs.length)) :
    (skeleton r).Follows r [] := by
  obtain ⟨os, hos, hoa, hnames⟩ := exists_filterMap_find?_range ha OpRecord.name
  obtain ⟨xs, hxs, hxa, hweights⟩ := exists_filterMap_find?_range hr AllocRecord.weight
  have he : skeleton r =
      (xs.map AllocRecord.weight).foldl addAlloc (empty.addOps (os.map OpRecord.name)) := by
    rw [skeleton, hnames, hweights]
  have hops : (empty : Graph W).opCount = 0 := rfl
  have hallocs : (empty : Graph W).allocs.size = 0 := rfl
  have hop : ∀ a, (skeleton r).op a = Op.isolated a ((os.map OpRecord.name).getD a "") := by
    intro a
    rw [he, op_addAllocs, op_addOps, hops]
    split
    · simp
    · next hlt =>
      have hge : (os.map OpRecord.name).length ≤ a := by omega
      rw [op_of_ge (Nat.zero_le a), List.getD_eq_getElem?_getD, List.getElem?_eq_none hge,
        Option.getD_none]
  refine ⟨skeleton_built r, ?_, ?_, fun o ho => ?_, fun x hx => ?_, ?_, ?_, ?_⟩
  · rw [he, opCount_addAllocs, opCount_addOps, List.length_map, hos.length_eq]
    exact Nat.zero_add _
  · rw [he, allocCount_addAllocs, List.length_map, allocCount, allocs_addOps, hxs.length_eq]
    exact Nat.zero_add _
  · have := getElem?_of_map_eq_range hoa (hos.mem_iff.mp ho)
    rw [hop]
    simp [Op.isolated, List.getD_eq_getElem?_getD, this]
  · have hx' := hxs.mem_iff.mp hx
    have hlt : x.address < xs.length := by
      rw [← List.mem_range, ← hxs.length_eq, ← hxa]
      exact List.mem_map_of_mem hx'
    have := getElem?_of_map_eq_range hxa hx'
    rw [he, alloc_addAllocs, allocCount, allocs_addOps, hallocs, if_pos (by simpa using hlt)]
    simp [Alloc.unused, List.getD_eq_getElem?_getD, this]
  all_goals
    intro a b
    simp [hop, Op.isolated]

omit [Weight W] in
theorem bounded_of_checkAddresses {kind : RecordKind} {count : Nat} {seen as : List Nat}
    (h' : checkAddresses kind count seen as = .ok ()) :
    (∀ a ∈ as, a < count ∧ a ∉ seen) ∧ as.Nodup := by
  induction as generalizing seen with
  | nil => simp
  | cons a as ih =>
    unfold checkAddresses at h'
    dsimp only at h'
    rw [throwIf_bind_eq_ok, throwIf_bind_eq_ok, List.contains_iff_mem] at h'
    obtain ⟨hle, hs, h'⟩ := h'
    obtain ⟨hlt, hn⟩ := ih h'
    grind

omit [Weight W] in
theorem checkAddresses_eq_ok_iff (kind : RecordKind) (as : List Nat) :
    checkAddresses kind as.length [] as = .ok () ↔ as.Perm (List.range as.length) := by
  constructor
  · intro h
    obtain ⟨hlt, hn⟩ := bounded_of_checkAddresses h
    exact perm_range hn le_rfl fun a ha => (hlt a ha).1
  · intro hp
    exact checkAddresses_eq_ok (fun a ha => List.mem_range.mp (hp.mem_iff.mp ha))
      (hp.nodup_iff.mpr List.nodup_range) (by simp)

omit [Weight W] in
theorem ofRecord_eq_ok : ofRecord r = .ok g ↔
    (r.ops.map OpRecord.address).Perm (List.range r.ops.length) ∧
      (r.allocs.map AllocRecord.address).Perm (List.range r.allocs.length) ∧
        r.ops.foldlM Graph.addRecord (skeleton r) = .ok g := by
  have hops := checkAddresses_eq_ok_iff .op (r.ops.map OpRecord.address)
  have hallocs := checkAddresses_eq_ok_iff .alloc (r.allocs.map AllocRecord.address)
  rw [List.length_map] at hops hallocs
  unfold ofRecord
  rw [seq_eq_ok, seq_eq_ok, hops, hallocs]

section Addresses

variable (ha : (r.ops.map OpRecord.address).Perm (List.range r.ops.length))

include ha

omit [Weight W] in
theorem nodup_addresses : (([] ++ r.ops).map OpRecord.address).Nodup :=
  ha.nodup_iff.mpr List.nodup_range

omit [Weight W] in
theorem address_lt : ∀ o ∈ r.ops, o.address < r.ops.length := fun _ ho =>
  List.mem_range.mp (ha.mem_iff.mp (List.mem_map_of_mem ho))

end Addresses

/-- A graph can be made from a record just when its parts fit together. -/
theorem ofRecord_succeeds_iff : (∃ g, ofRecord r = .ok g) ↔ r.Valid := by
  simp only [ofRecord_eq_ok]
  constructor
  · rintro ⟨g, ha, hr, h'⟩
    obtain ⟨hrange, hdiffer⟩ := ((skeleton_follows ha hr).foldlM_succeeds_iff (address_lt ha)
      (nodup_addresses ha) .nil).mp ⟨g, h'⟩
    exact ⟨ha, hr, hrange, hdiffer⟩
  · rintro ⟨ha, hr, hrange, hdiffer⟩
    obtain ⟨g, h'⟩ := ((skeleton_follows ha hr).foldlM_succeeds_iff (address_lt ha)
      (nodup_addresses ha) .nil).mpr ⟨hrange, hdiffer⟩
    exact ⟨g, ha, hr, h'⟩

theorem ofRecord_follows (h' : ofRecord r = .ok g) : g.Follows r r.ops := by
  obtain ⟨ha, hr, h'⟩ := ofRecord_eq_ok.mp h'
  exact (skeleton_follows ha hr).foldlM (address_lt ha) (nodup_addresses ha) h'

theorem Follows.reordered (hs : r.Reordered s) (hf : g.Follows s s.ops) : g.Follows r r.ops := by
  refine ⟨hf.built, hf.opCount.trans hs.length_ops, hf.allocCount.trans hs.length_allocs,
    fun o ho => ?_, fun x hx => hf.weight x (hs.allocs.mem_iff.mp hx), fun a b => ?_,
    fun a x => ?_, fun a b => ?_⟩
  · obtain ⟨p, hp, hop⟩ := hs.exists_reordered ho
    rw [← hop.name, ← hop.address]
    exact hf.name p hp
  · rw [hf.outs]
    exact hs.exists_iff fun hop ⟨ha, hb⟩ =>
      ⟨hop.address ▸ ha, hb.imp hop.outs.mem_iff.mp fun hl => hop.fwdLink ▸ hl⟩
  · rw [hf.allocs]
    exact hs.exists_iff fun hop ⟨ha, hx⟩ => ⟨hop.address ▸ ha, hop.allocs.mem_iff.mp hx⟩
  · rw [hf.fwdLink]
    exact hs.exists_iff fun hop ⟨ha, hl⟩ => ⟨hop.address ▸ ha, hop.fwdLink ▸ hl⟩

theorem Follows.unique (ha : (r.ops.map OpRecord.address).Perm (List.range r.ops.length))
    (hr : (r.allocs.map AllocRecord.address).Perm (List.range r.allocs.length))
    (hg : g.Follows r done) (hh : h.Follows r done) : h = g := by
  refine hg.built.wellFormed.ext hh.built.wellFormed (hh.opCount.trans hg.opCount.symm)
    (hh.allocCount.trans hg.allocCount.symm) (fun a hlt => ?_) (fun x hlt => ?_)
    (fun a b => (hh.outs a b).trans (hg.outs a b).symm)
    (fun a x => (hh.allocs a x).trans (hg.allocs a x).symm)
    fun a => Option.ext fun b => (hh.fwdLink a b).trans (hg.fwdLink a b).symm
  · rw [hg.opCount, ← List.mem_range, ← ha.mem_iff] at hlt
    obtain ⟨o, ho, rfl⟩ := List.mem_map.mp hlt
    exact (hh.name o ho).trans (hg.name o ho).symm
  · rw [hg.allocCount, ← List.mem_range, ← hr.mem_iff] at hlt
    obtain ⟨y, hy, rfl⟩ := List.mem_map.mp hlt
    exact (hh.weight y hy).trans (hg.weight y hy).symm

/-- Records with the same parts in another order make the same graph, or none. -/
theorem ofRecord_reordered (hs : r.Reordered s) :
    (r.Valid ∧ ∃ g, ofRecord r = .ok g ∧ ofRecord s = .ok g) ∨
      (¬ r.Valid ∧ ∃ e f, ofRecord r = .error e ∧ ofRecord s = .error f) := by
  by_cases hr : r.Valid
  · obtain ⟨g, hg⟩ := ofRecord_succeeds_iff.mpr hr
    obtain ⟨h, hh⟩ := ofRecord_succeeds_iff.mpr (hs.valid hr)
    have he : h = g := (ofRecord_follows hg).unique hr.addresses hr.allocAddresses
      ((ofRecord_follows hh).reordered hs)
    exact .inl ⟨hr, g, hg, he ▸ hh⟩
  · have hfails : ∀ {t : GraphRecord W}, ¬ t.Valid → ∃ e, ofRecord t = .error e := by
      intro t ht
      cases he : ofRecord t with
      | error e => exact ⟨e, rfl⟩
      | ok g => exact absurd (ofRecord_succeeds_iff.mp ⟨g, he⟩) ht
    obtain ⟨e, he⟩ := hfails hr
    obtain ⟨f, hf⟩ := hfails fun hs' => hr (hs.symm.valid hs')
    exact .inr ⟨hr, e, f, he, hf⟩

end Following

section Triple

open Numbers

/-- Three Ops out of order, one of them with a repeated constraint and a link. -/
def shuffledTriple : GraphRecord (Tiered Int) :=
  { ops := [⟨2, "c", [], [0, 1], -1⟩, ⟨0, "a", [2, 2], [1], 1⟩, ⟨1, "b", [2], [], -1⟩]
    allocs := [⟨1, .onTier 5 0⟩, ⟨0, .onTier 3 0⟩] }

def sortedTriple : GraphRecord (Tiered Int) :=
  { ops := [⟨0, "a", [2, 2], [1], 1⟩, ⟨1, "b", [2], [], -1⟩, ⟨2, "c", [], [1, 0], -1⟩]
    allocs := [⟨0, .onTier 3 0⟩, ⟨1, .onTier 5 0⟩] }

theorem triple_ofRecord : shuffledTriple.Reordered sortedTriple ∧
    ∃ g, ofRecord shuffledTriple = .ok g ∧ ofRecord sortedTriple = .ok g := by
  have hs : shuffledTriple.Reordered sortedTriple := by
    refine ⟨⟨[⟨0, "a", [2, 2], [1], 1⟩, ⟨1, "b", [2], [], -1⟩, ⟨2, "c", [], [0, 1], -1⟩],
      by decide, .cons ?_ (.cons ?_ (.cons ?_ .nil))⟩, List.Perm.swap _ _ _⟩
    all_goals exact ⟨rfl, rfl, by decide, by decide, rfl⟩
  have hv : shuffledTriple.Valid := ofRecord_succeeds_iff.mp ⟨_, rfl⟩
  exact ⟨hs, ((ofRecord_reordered hs).resolve_right fun h => h.1 hv).2⟩

end Triple

end Graph

end Liveness
