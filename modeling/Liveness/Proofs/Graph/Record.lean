import Liveness.Graph.Record
import Liveness.Proofs.Graph.LinkChains
import Liveness.Proofs.Graph.Repeated

/-! # Graphs rebuilt from their records

A record holds the forward half of a graph: its constraints, needs and links as the Ops
before them have them. Rebuilding records them at both ends again and inserts the constraint
of every link. So a graph comes back as it was, except that links get back the constraints
that were removed from them.
-/

namespace Liveness.Graph

open Success

variable {W : Type} {g h : Graph W} {a b r k : Nat}

section Linked

def LinksApart (g : Graph W) : Prop := ∀ a, (g.op a).fwdLink ≠ some a

theorem LinksApart.congr {g h : Graph W} (hl : g.LinksApart)
    (hf : ∀ x, (h.op x).fwdLink = (g.op x).fwdLink) : h.LinksApart := fun x => hf x ▸ hl x

def links (g : Graph W) : List (Nat × Nat) :=
  (List.range g.opCount).filterMap fun a => (g.op a).fwdLink.map fun b => (a, b)

/-- The graph with the constraint of every link. -/
def linked (g : Graph W) : Graph W := g.connectAll g.links

theorem mem_links : (a, b) ∈ g.links ↔ (g.op a).fwdLink = some b := by
  simp only [links, List.mem_filterMap, List.mem_range, Option.map_eq_some_iff, Prod.mk.injEq]
  constructor
  · rintro ⟨_, -, _, hl, rfl, rfl⟩
    exact hl
  · exact fun hl => ⟨a, lt_of_fwdLink hl, b, hl, rfl, rfl⟩

variable [Zero W] (hg : g.WellFormed) (hl : g.LinksApart)

include hg hl

theorem links_inRange : ∀ p ∈ g.links, p.1 < g.opCount ∧ p.2 < g.opCount ∧ p.1 ≠ p.2 := by
  rintro ⟨a, b⟩ hp
  have hab := mem_links.mp hp
  exact ⟨lt_of_fwdLink hab, hg.link_lt hab, fun he => hl a (hab.trans (congrArg some he.symm))⟩

theorem linked_wellFormed : g.linked.WellFormed := hg.connectAll (links_inRange hg hl)

theorem mem_outs_linked :
    b ∈ (g.linked.op a).outs ↔ b ∈ (g.op a).outs ∨ (g.op a).fwdLink = some b := by
  rw [linked, mem_outs_connectAll (links_inRange hg hl), mem_links, or_comm]

theorem linked_keeps : (∀ x, (g.linked.op x).name = (g.op x).name) ∧
    (∀ x, (g.linked.op x).allocs = (g.op x).allocs) ∧
    ∀ x, (g.linked.op x).fwdLink = (g.op x).fwdLink := by
  refine ⟨fun x => ?_, fun x => ?_, fun x => ?_⟩
  all_goals
    obtain ⟨outs, ins, he⟩ := op_connectAll (links_inRange hg hl) x
    rw [linked, he]

theorem linked_eq_self_iff : g.linked = g ↔ g.LinksHeld := by
  constructor
  · intro he a b hab
    rw [← he]
    exact (mem_outs_linked hg hl).mpr (.inr hab)
  · intro hh
    obtain ⟨hn, ha, hf⟩ := linked_keeps hg hl
    refine hg.ext (linked_wellFormed hg hl) (opCount_connectAll g _) (allocCount_connectAll g _)
      (fun a _ => hn a) (fun r _ => ?_) (fun a b => ?_) (fun a r => by rw [ha]) hf
    · exact congrArg Alloc.weight (alloc_connectAll g _ r)
    · rw [mem_outs_linked hg hl]
      exact ⟨fun hb => hb.elim id fun hab => hh hab, .inl⟩

end Linked

section Rebuilding

variable [Weight W]

omit [Weight W] in
theorem LinksApart.detachAll {g : Graph W} {as : List Nat} {r : Nat} (hl : g.LinksApart)
    (ha : ∀ a ∈ as, a < g.opCount) : (as.foldl (fun g a => g.detach a r) g).LinksApart := by
  induction as generalizing g with
  | nil => exact hl
  | cons a as ih =>
    refine ih (hl.congr fun x => ?_) fun b hb => by simpa using ha b (List.mem_cons_of_mem a hb)
    rw [op_detach (ha a List.mem_cons_self)]

theorem Built.linksApart (hg : g.Built) : g.LinksApart := by
  induction hg with
  | empty =>
    intro a
    simp [Graph.empty, op, Op.isolated]
  | addOp name _ ih =>
    intro a
    rw [op_addOp]
    split
    · simp [Op.isolated]
    · exact ih a
  | addAlloc w _ ih => exact ih
  | need _ h ih =>
    obtain ⟨ha, -, rfl⟩ := need_eq_ok.mp h
    exact ih.congr fun x => by rw [op_attach ha]
  | constrain _ h ih =>
    obtain ⟨⟨hu, hv, -⟩, rfl⟩ := constrain_eq_ok.mp h
    exact ih.congr fun x => by rw [op_connect hu hv]
  | unconstrain _ h ih =>
    obtain ⟨hu, hv, rfl⟩ := unconstrain_eq_ok.mp h
    exact ih.congr fun x => by rw [op_disconnect hu hv]
  | @link g h u v _ h ih =>
    obtain ⟨⟨hu, hv, hne⟩, -, -, rfl⟩ := link_eq_ok.mp h
    intro x
    rw [op_join hu hv]
    dsimp only
    split
    · next he =>
      subst he
      exact fun hx => hne (Option.some.inj hx).symm
    · exact ih x
  | releaseAll hg h ih =>
    obtain ⟨-, rfl⟩ := releaseAll_eq_ok.mp h
    exact ih.detachAll fun a ha => hg.wellFormed.ops_lt ha
  | release _ h ih =>
    obtain ⟨ha, -, rfl⟩ := release_eq_ok.mp h
    exact ih.congr fun x => by rw [op_detach ha]
  | reweigh _ h ih =>
    obtain ⟨-, -, rfl⟩ := reweigh_eq_ok.mp h
    exact ih

/-- The record of a graph, with weights that need not be finite. -/
def record (g : Graph W) : GraphRecord W :=
  { ops := g.ops.toList.map OpRecord.ofOp
    allocs := g.allocs.toList.map fun alloc => ⟨alloc.address, alloc.weight⟩ }

/-- A graph in which the Ops below `k` are as the records of `g` have them, and the others are
isolated. -/
structure Restores (g : Graph W) (k : Nat) (h : Graph W) : Prop where
  built : h.Built
  opCount : h.opCount = g.opCount
  allocCount : h.allocCount = g.allocCount
  name : ∀ a < g.opCount, (h.op a).name = (g.op a).name
  weight : ∀ r < g.allocCount, (h.alloc r).weight = (g.alloc r).weight
  outs : ∀ a b, b ∈ (h.op a).outs ↔ a < k ∧ (b ∈ (g.op a).outs ∨ (g.op a).fwdLink = some b)
  allocs : ∀ a r, r ∈ (h.op a).allocs ↔ a < k ∧ r ∈ (g.op a).allocs
  fwdLink : ∀ a b, (h.op a).fwdLink = some b ↔ a < k ∧ (g.op a).fwdLink = some b

theorem checkAddresses_eq_ok {kind : RecordKind} {count : Nat} {seen as : List Nat}
    (hlt : ∀ a ∈ as, a < count) (hn : as.Nodup) (hs : ∀ a ∈ as, a ∉ seen) :
    checkAddresses kind count seen as = .ok () := by
  induction as generalizing seen with
  | nil => rfl
  | cons a as ih =>
    obtain ⟨ha, hn⟩ := List.nodup_cons.mp hn
    have hlt' := hlt a List.mem_cons_self
    have hs' := hs a List.mem_cons_self
    unfold checkAddresses
    simp only [show ¬ count ≤ a by omega, if_false, List.contains_eq_mem, hs', decide_false,
      Bool.false_eq_true]
    refine ih (fun b hb => hlt b (List.mem_cons_of_mem a hb)) hn fun b hb hm => ?_
    rcases List.mem_cons.mp hm with rfl | hm
    · exact ha hb
    · exact hs b (List.mem_cons_of_mem a hb) hm

theorem skeleton_built (r : GraphRecord W) : (skeleton r).Built := by
  have hweights : ∀ (ws : List W) {h : Graph W}, h.Built → (ws.foldl addAlloc h).Built := by
    intro ws
    induction ws with
    | nil => exact id
    | cons w ws ih => exact fun hh => ih (hh.addAlloc w)
  exact hweights _ (Built.empty.addOps _)

theorem addRecord_built {r : OpRecord} (hg : g.Built) (h' : addRecord g r = .ok h) : h.Built := by
  obtain ⟨g₁, h₁, h'⟩ := bind_eq_ok.mp h'
  obtain ⟨g₂, h₂, h'⟩ := bind_eq_ok.mp h'
  have hg₁ := foldlM_keeps (P := Built) hg (fun b _ _ _ hk hs => hk.constrain hs) h₁
  have hg₂ := foldlM_keeps (P := Built) hg₁ (fun r _ _ _ hk hs => hk.need hs) h₂
  split at h'
  · exact pure_eq_ok.mp h' ▸ hg₂
  · split at h'
    · exact hg₂.link h'
    · exact (throw_eq_ok.mp h').elim

theorem ofRecord_built {r : GraphRecord W} (h' : ofRecord r = .ok h) : h.Built := by
  unfold ofRecord at h'
  rw [seq_eq_ok, seq_eq_ok] at h'
  exact foldlM_keeps (P := Built) (skeleton_built r) (fun r _ _ _ hk hs => addRecord_built hk hs)
    h'.2.2

omit [Weight W] in
theorem record_ops : g.record.ops = (List.range g.opCount).map fun a => OpRecord.ofOp (g.op a) := by
  rw [record, ops_toList, List.map_map]
  rfl

theorem record_allocs : g.record.allocs =
    (List.range g.allocCount).map fun r => ⟨(g.alloc r).address, (g.alloc r).weight⟩ := by
  rw [record, allocs_toList, List.map_map]
  rfl

theorem filterMap_find?_map_range {α β : Type} {n : Nat} (f : Nat → α) (key : α → Nat)
    (value : α → β) (hk : ∀ i < n, key (f i) = i) :
    ((List.range n).filterMap fun i =>
      (((List.range n).map f).find? fun x => key x == i).map value) =
        (List.range n).map fun i => value (f i) := by
  rw [← List.filterMap_eq_map (f := fun i => value (f i))]
  refine List.filterMap_congr fun i hi => ?_
  have hfound : ((List.range n).find? fun j => key (f j) == i) = some i := by
    rw [List.mem_range] at hi
    rw [List.find?_range_eq_some]
    refine ⟨by simpa using hk i hi, List.mem_range.mpr hi, fun j hj => ?_⟩
    have := hk j (by omega)
    simp only [Bool.not_eq_true', beq_eq_false_iff_ne, ne_eq]
    omega
  rw [List.find?_map]
  exact congrArg (fun found => (found.map f).map value) hfound

section OfWellFormed

variable (hg : g.WellFormed)

include hg

theorem checkAddresses_record :
    checkAddresses .op g.record.ops.length [] (g.record.ops.map OpRecord.address) = .ok () ∧
      checkAddresses .alloc g.record.allocs.length []
        (g.record.allocs.map AllocRecord.address) = .ok () := by
  have hops : g.record.ops.map OpRecord.address = List.range g.opCount := by
    rw [record_ops, List.map_map]
    conv_rhs => rw [← List.map_id (List.range g.opCount)]
    exact List.map_congr_left fun a ha => hg.op_address a (List.mem_range.mp ha)
  have hallocs : g.record.allocs.map AllocRecord.address = List.range g.allocCount := by
    rw [record_allocs, List.map_map]
    conv_rhs => rw [← List.map_id (List.range g.allocCount)]
    exact List.map_congr_left fun r hr => hg.alloc_address r (List.mem_range.mp hr)
  rw [hops, hallocs, record_ops, record_allocs, List.length_map, List.length_map,
    List.length_range, List.length_range]
  constructor
  · exact checkAddresses_eq_ok (fun a ha => List.mem_range.mp ha) List.nodup_range (by simp)
  · exact checkAddresses_eq_ok (fun r hr => List.mem_range.mp hr) List.nodup_range (by simp)

theorem skeleton_record : skeleton g.record =
    ((List.range g.allocCount).map fun r => (g.alloc r).weight).foldl addAlloc
      (empty.addOps ((List.range g.opCount).map fun a => (g.op a).name)) := by
  have hops := filterMap_find?_map_range (fun a => OpRecord.ofOp (g.op a)) OpRecord.address
    OpRecord.name hg.op_address
  have hallocs := filterMap_find?_map_range
    (fun r => (⟨(g.alloc r).address, (g.alloc r).weight⟩ : AllocRecord W)) AllocRecord.address
    AllocRecord.weight hg.alloc_address
  rw [skeleton, record_ops, record_allocs, List.length_map, List.length_map, List.length_range,
    List.length_range, hops, hallocs]
  rfl

theorem op_skeleton (a : Nat) : (skeleton g.record).op a = Op.isolated a (g.op a).name := by
  rw [skeleton_record hg, op_addAllocs, op_addOps, List.length_map, List.length_range]
  have hzero : (empty : Graph W).opCount = 0 := rfl
  rw [hzero]
  split
  · next ha => simp [show a < g.opCount by omega]
  · next ha =>
    rw [op_of_ge (g := g) (by omega)]
    exact op_of_ge (Nat.zero_le a)

theorem alloc_skeleton (r : Nat) :
    (skeleton g.record).alloc r = Alloc.unused r (g.alloc r).weight := by
  have hzero : (empty : Graph W).allocs.size = 0 := rfl
  rw [skeleton_record hg, alloc_addAllocs, List.length_map, List.length_range, allocCount, alloc,
    allocs_addOps, hzero]
  split
  · next hr => simp [show r < g.allocCount by omega]
  · next hr =>
    rw [alloc_of_ge (g := g) (by omega)]
    rfl

theorem skeleton_restores : g.Restores 0 (skeleton g.record) where
  built := skeleton_built g.record
  opCount := by
    rw [skeleton_record hg, opCount_addAllocs, opCount_addOps, List.length_map, List.length_range]
    exact Nat.zero_add _
  allocCount := by
    rw [skeleton_record hg, allocCount_addAllocs, List.length_map, List.length_range, allocCount,
      allocs_addOps]
    exact Nat.zero_add _
  name a _ := by rw [op_skeleton hg]; rfl
  weight r _ := by rw [alloc_skeleton hg]; rfl
  outs a b := by simp [op_skeleton hg, Op.isolated]
  allocs a r := by simp [op_skeleton hg, Op.isolated]
  fwdLink a b := by simp [op_skeleton hg, Op.isolated]

end OfWellFormed

section Step

def withOp (h : Graph W) (k : Nat) (op : Op) : Graph W :=
  op.allocs.foldl (fun h r => h.attach k r) (h.connectAll (op.outs.map fun b => (k, b)))

variable (hg : g.WellFormed) (hk : k < g.opCount) (hh : g.Restores k h)

include hg hk hh

theorem Restores.inRange : (∀ p ∈ (g.op k).outs.map fun b => (k, b),
      p.1 < h.opCount ∧ p.2 < h.opCount ∧ p.1 ≠ p.2) ∧
    ∀ r ∈ (g.op k).allocs, r < h.allocCount := by
  rw [hh.opCount, hh.allocCount]
  refine ⟨fun p hp => ?_, fun r hr => hg.lt_of_mem_allocs hr⟩
  obtain ⟨b, hb, rfl⟩ := List.mem_map.mp hp
  exact ⟨hk, hg.outs_lt hb, fun he : k = b => hg.irrefl k (he ▸ hb)⟩

theorem Restores.withOp_built : (h.withOp k (g.op k)).Built := by
  obtain ⟨hp, hr⟩ := hh.inRange hg hk
  exact (hh.built.connectAll hp).attachEach (by rwa [opCount_connectAll, hh.opCount])
    (by rwa [allocCount_connectAll])

omit hg hk in
theorem Restores.opCount_withOp : (h.withOp k (g.op k)).opCount = g.opCount := by
  rw [withOp, opCount_attachEach, opCount_connectAll, hh.opCount]

omit hg hk in
theorem Restores.allocCount_withOp : (h.withOp k (g.op k)).allocCount = g.allocCount := by
  rw [withOp, allocCount_attachEach, allocCount_connectAll, hh.allocCount]

theorem Restores.addRecord_eq : addRecord h (OpRecord.ofOp (g.op k)) =
    match (g.op k).fwdLink with
    | none => .ok (h.withOp k (g.op k))
    | some b => (h.withOp k (g.op k)).link k b := by
  obtain ⟨hp, hr⟩ := hh.inRange hg hk
  have ha : (OpRecord.ofOp (g.op k)).address = k := hg.op_address k hk
  have hlt : k < h.opCount := hh.opCount ▸ hk
  have hconstrain := constrainEach_eq_ok (g.op k).outs hlt fun b hb =>
    (hp (k, b) (List.mem_map_of_mem hb)).2
  have hneed := needEach_eq_ok (g := h.connectAll ((g.op k).outs.map fun b => (k, b))) (a := k)
    (g.op k).allocs (by simpa using hlt) (by simpa using hr)
  have houts : (OpRecord.ofOp (g.op k)).outs = (g.op k).outs := rfl
  have hallocs : (OpRecord.ofOp (g.op k)).allocs = (g.op k).allocs := rfl
  unfold addRecord
  rw [ha, houts, hallocs]
  simp only [hconstrain, bind, Except.bind, hneed]
  rcases Option.eq_none_or_eq_some (g.op k).fwdLink with hf | ⟨b, hf⟩
  · have hnone : (OpRecord.ofOp (g.op k)).fwdLink = -1 := by simp [OpRecord.ofOp, hf]
    rw [if_pos hnone, hf]
    rfl
  · have hsome : (OpRecord.ofOp (g.op k)).fwdLink = b := by simp [OpRecord.ofOp, hf]
    rw [if_neg (by omega), if_pos (by omega), hsome, hf]
    rfl

theorem Restores.op_withOp (x : Nat) :
    ((h.withOp k (g.op k)).op x).name = (h.op x).name ∧
      ((h.withOp k (g.op k)).op x).fwdLink = (h.op x).fwdLink ∧
      (∀ b, b ∈ ((h.withOp k (g.op k)).op x).outs ↔
        x = k ∧ b ∈ (g.op k).outs ∨ b ∈ (h.op x).outs) ∧
      ∀ r, r ∈ ((h.withOp k (g.op k)).op x).allocs ↔
        x = k ∧ r ∈ (g.op k).allocs ∨ r ∈ (h.op x).allocs := by
  obtain ⟨hp, -⟩ := hh.inRange hg hk
  have hlt : k < (h.connectAll ((g.op k).outs.map fun b => (k, b))).opCount := by
    rwa [opCount_connectAll, hh.opCount]
  obtain ⟨outs, ins, he⟩ := op_connectAll hp x
  obtain ⟨allocs, he'⟩ := op_attachEach (g.op k).allocs hlt x
  refine ⟨?_, ?_, fun b => ?_, fun r => ?_⟩
  · rw [withOp, he', he]
  · rw [withOp, he', he]
  · rw [withOp, he']
    dsimp only
    rw [mem_outs_connectAll hp]
    simp [eq_comm, and_comm]
  · rw [withOp, mem_allocs_attachEach hlt, he]

theorem Restores.weight_withOp (r : Nat) :
    ((h.withOp k (g.op k)).alloc r).weight = (h.alloc r).weight := by
  obtain ⟨-, hr⟩ := hh.inRange hg hk
  rw [withOp, weight_attachEach (by rwa [allocCount_connectAll]), alloc_connectAll]

theorem Restores.link_eq_ok (hl : g.LinksApart) (hf : (g.op k).fwdLink = some b) :
    (h.withOp k (g.op k)).link k b = .ok ((h.withOp k (g.op k)).join k b) := by
  have hop := hh.op_withOp hg hk
  have hc := hh.opCount_withOp
  have hfwd : ∀ {x y}, ((h.withOp k (g.op k)).op x).fwdLink = some y ↔
      x < k ∧ (g.op x).fwdLink = some y := by
    intro x y
    rw [(hop x).2.1, hh.fwdLink]
  refine Graph.link_eq_ok.mpr ⟨⟨hc ▸ hk, hc ▸ hg.link_lt hf, fun he => hl k ?_⟩, fun c hc => ?_,
    fun a ha => ?_, rfl⟩
  · rw [hf, he]
  · exact absurd (hfwd.mp hc).1 (Nat.lt_irrefl k)
  · have hab := (hfwd.mp ((hh.withOp_built hg hk).wellFormed.bwdLink.mp ha)).2
    exact hg.toOrdered.link_injective hab hf

theorem Restores.withOp (hf : (g.op k).fwdLink = none) :
    g.Restores (k + 1) (h.withOp k (g.op k)) := by
  have hop := hh.op_withOp hg hk
  constructor
  case built => exact hh.withOp_built hg hk
  case opCount => exact hh.opCount_withOp
  case allocCount => exact hh.allocCount_withOp
  case name => exact fun a ha => (hop a).1.trans (hh.name a ha)
  case weight => exact fun r hr => (hh.weight_withOp hg hk r).trans (hh.weight r hr)
  case outs =>
    intro a c
    rw [(hop a).2.2.1, hh.outs]
    by_cases ha : a = k <;> grind
  case allocs =>
    intro a r
    rw [(hop a).2.2.2, hh.allocs]
    by_cases ha : a = k <;> grind
  case fwdLink =>
    intro a c
    rw [(hop a).2.1, hh.fwdLink]
    by_cases ha : a = k <;> grind

theorem Restores.join (hl : g.LinksApart) (hf : (g.op k).fwdLink = some b) :
    g.Restores (k + 1) ((h.withOp k (g.op k)).join k b) := by
  have hop := hh.op_withOp hg hk
  have hu : k < (h.withOp k (g.op k)).opCount := hh.opCount_withOp ▸ hk
  have hv : b < (h.withOp k (g.op k)).opCount := hh.opCount_withOp ▸ hg.link_lt hf
  constructor
  case built => exact (hh.withOp_built hg hk).link (hh.link_eq_ok hg hk hl hf)
  case opCount => rw [opCount_join, hh.opCount_withOp]
  case allocCount => rw [allocCount_join, hh.allocCount_withOp]
  case name =>
    intro a ha
    rw [op_join hu hv, op_connect hu hv]
    exact (hop a).1.trans (hh.name a ha)
  case weight =>
    intro r hr
    rw [alloc_join]
    exact (hh.weight_withOp hg hk r).trans (hh.weight r hr)
  case outs =>
    intro a c
    rw [op_join hu hv]
    dsimp only
    rw [mem_outs_connect hu hv, (hop a).2.2.1, hh.outs]
    by_cases ha : a = k <;> grind
  case allocs =>
    intro a r
    rw [op_join hu hv, op_connect hu hv]
    dsimp only
    rw [(hop a).2.2.2, hh.allocs]
    by_cases ha : a = k <;> grind
  case fwdLink =>
    intro a c
    rw [op_join hu hv]
    dsimp only
    rw [(hop a).2.1]
    have := hh.fwdLink a c
    by_cases ha : a = k <;> grind

theorem Restores.step (hl : g.LinksApart) :
    ∃ h', addRecord h (OpRecord.ofOp (g.op k)) = .ok h' ∧ g.Restores (k + 1) h' := by
  rw [hh.addRecord_eq hg hk]
  cases hf : (g.op k).fwdLink with
  | none => exact ⟨_, rfl, hh.withOp hg hk hf⟩
  | some b => exact ⟨_, hh.link_eq_ok hg hk hl hf, hh.join hg hk hl hf⟩

end Step

section Whole

variable (hg : g.WellFormed) (hl : g.LinksApart)

include hg hl

theorem foldlM_addRecord (hk : k ≤ g.opCount) :
    ∃ h, ((List.range k).map fun a => OpRecord.ofOp (g.op a)).foldlM addRecord
      (skeleton g.record) = .ok h ∧ g.Restores k h := by
  induction k with
  | zero => exact ⟨_, rfl, skeleton_restores hg⟩
  | succ k ih =>
    obtain ⟨h, he, hh⟩ := ih (Nat.le_of_succ_le hk)
    obtain ⟨h', he', hh'⟩ := hh.step hg (Nat.lt_of_succ_le hk) hl
    refine ⟨h', ?_, hh'⟩
    rw [List.range_succ, List.map_append, List.foldlM_append, he]
    exact bind_eq_ok.mpr ⟨h, rfl, bind_eq_ok.mpr ⟨h', he', rfl⟩⟩

/-- When all Ops are restored, the graph has come back with the constraints of all links. -/
theorem Restores.eq_linked (hh : g.Restores g.opCount h) : h = g.linked := by
  obtain ⟨hn, ha, hf⟩ := linked_keeps hg hl
  refine (linked_wellFormed hg hl).ext hh.built.wellFormed ?_ ?_ (fun a hlt => ?_)
    (fun r hlt => ?_) (fun a b => ?_) (fun a r => ?_) fun a => Option.ext fun b => ?_
  · rw [hh.opCount, linked, opCount_connectAll]
  · rw [hh.allocCount, linked, allocCount_connectAll]
  · rw [linked, opCount_connectAll] at hlt
    rw [hh.name a hlt, hn]
  · rw [linked, allocCount_connectAll] at hlt
    rw [hh.weight r hlt, linked, alloc_connectAll]
  · rw [hh.outs, mem_outs_linked hg hl]
    exact and_iff_right_of_imp fun hb => hb.elim lt_of_mem_outs lt_of_fwdLink
  · rw [hh.allocs, ha]
    exact and_iff_right_of_imp fun hr => hg.ops_lt (hg.mem_allocs.mp hr)
  · rw [hh.fwdLink, hf]
    exact and_iff_right_of_imp lt_of_fwdLink

theorem ofRecord_record : ofRecord g.record = .ok g.linked := by
  obtain ⟨hops, hallocs⟩ := checkAddresses_record hg
  obtain ⟨h, he, hh⟩ := foldlM_addRecord hg hl (Nat.le_refl _)
  rw [← record_ops, hh.eq_linked hg hl] at he
  unfold ofRecord
  rw [seq_eq_ok, seq_eq_ok]
  exact ⟨hops, hallocs, he⟩

theorem linked_built : g.linked.Built := by
  obtain ⟨h, -, hh⟩ := foldlM_addRecord hg hl (Nat.le_refl _)
  exact hh.eq_linked hg hl ▸ hh.built

end Whole

theorem Built.disconnectAll (pairs : List (Nat × Nat)) (hg : g.Built)
    (hp : ∀ p ∈ pairs, p.1 < g.opCount ∧ p.2 < g.opCount) :
    ∃ h : Graph W, h.Built ∧ h.opCount = g.opCount ∧ h.allocCount = g.allocCount ∧
      (∀ r, h.alloc r = g.alloc r) ∧ ∀ a, (h.op a).name = (g.op a).name ∧
        (h.op a).allocs = (g.op a).allocs ∧ (h.op a).fwdLink = (g.op a).fwdLink ∧
        ∀ b, b ∈ (h.op a).outs ↔ b ∈ (g.op a).outs ∧ (a, b) ∉ pairs := by
  induction pairs generalizing g with
  | nil => exact ⟨g, hg, rfl, rfl, fun _ => rfl, fun a => ⟨rfl, rfl, rfl, by simp⟩⟩
  | cons p ps ih =>
    obtain ⟨hu, hv⟩ := hp p List.mem_cons_self
    have hd : (g.disconnect p.1 p.2).Built := hg.unconstrain (unconstrain_eq_ok.mpr ⟨hu, hv, rfl⟩)
    obtain ⟨h, hh, hc, hr, ha, ho⟩ := ih hd fun q hq => by
      simpa using hp q (List.mem_cons_of_mem p hq)
    refine ⟨h, hh, by rw [hc, opCount_disconnect], by rw [hr, allocCount_disconnect],
      fun r => (ha r).trans (alloc_disconnect g p.1 p.2 r), fun a => ?_⟩
    obtain ⟨hn, has, hf, hb⟩ := ho a
    rw [hn, has, hf, op_disconnect hu hv]
    refine ⟨rfl, rfl, rfl, fun b => ?_⟩
    rw [hb, mem_outs_disconnect hg.wellFormed.toOrdered hu hv, List.mem_cons, Prod.ext_iff]
    tauto

/-- Edits make exactly the well-formed graphs in which no Op is linked to itself. -/
theorem built_iff : g.Built ↔ g.WellFormed ∧ g.LinksApart := by
  refine ⟨fun hg => ⟨hg.wellFormed, hg.linksApart⟩, fun ⟨hg, hl⟩ => ?_⟩
  -- the graph is rebuilt, and constraints that came back with links are removed again
  obtain ⟨hn, ha, hf⟩ := linked_keeps hg hl
  obtain ⟨h, hh, hc, hr, hal, hop⟩ := Built.disconnectAll
    (g.links.filter fun p => !(g.op p.1).outs.contains p.2) (linked_built hg hl) fun p hp => by
      obtain ⟨hu, hv, -⟩ := links_inRange hg hl p (List.mem_filter.mp hp).1
      rw [linked, opCount_connectAll]
      exact ⟨hu, hv⟩
  have he : h = g := by
    refine hg.ext hh.wellFormed ?_ ?_ (fun a _ => (hop a).1.trans (hn a)) (fun r _ => ?_)
      (fun a b => ?_) (fun a r => ?_) fun a => (hop a).2.2.1.trans (hf a)
    · rw [hc, linked, opCount_connectAll]
    · rw [hr, linked, allocCount_connectAll]
    · rw [hal, linked, alloc_connectAll]
    · rw [(hop a).2.2.2, mem_outs_linked hg hl, List.mem_filter, mem_links]
      simp only [List.contains_eq_mem, Bool.not_eq_true', decide_eq_false_iff_not]
      tauto
    · rw [(hop a).2.1, ha]
  exact he ▸ hh

end Rebuilding

end Liveness.Graph
