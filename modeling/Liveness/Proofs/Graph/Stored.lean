import Liveness.Proofs.Graph.Record
import Liveness.Proofs.Json.Exact

/-! # Graphs stored as text

A graph whose weights are finite can be stored by any codec that loses nothing. It is restored as
it was, but links whose constraints were removed come back with them.
-/

namespace Liveness.Graph

open Success

variable {g : Graph (Tiered Float)} {codec : Codec} {text : String}

theorem toRecord_eq_ok (hw : ∀ r < g.allocCount, (g.alloc r).weight.isFinite = true) :
    g.toRecord = .ok g.record := by
  have hnone : g.allocs.toList.findSome? (fun alloc => Weight.defect? alloc.weight) = none := by
    rw [List.findSome?_eq_none_iff, allocs_toList]
    intro alloc hm
    obtain ⟨r, hr, rfl⟩ := List.mem_map.mp hm
    have hfinite := hw r (List.mem_range.mp hr)
    rw [Tiered.isFinite, List.all_eq_true] at hfinite
    have hfind : (g.alloc r).weight.tiers.toList.find? (fun x => !Magnitude.isFinite x) = none := by
      rw [List.find?_eq_none]
      intro x hx
      simp [hfinite x hx]
    exact congrArg (Option.map Magnitude.text) hfind
  unfold toRecord
  rw [hnone]
  rfl

theorem isFinite_record (hw : ∀ r < g.allocCount, (g.alloc r).weight.isFinite = true) :
    g.record.isFinite = true := by
  refine List.all_eq_true.mpr fun stored hm => ?_
  obtain ⟨alloc, ha, rfl⟩ := List.mem_map.mp hm
  rw [allocs_toList] at ha
  obtain ⟨r, hr, rfl⟩ := List.mem_map.mp ha
  exact hw r (List.mem_range.mp hr)

theorem store_eq_ok (hw : ∀ r < g.allocCount, (g.alloc r).weight.isFinite = true) :
    g.store codec = .ok text ↔ codec.encode g.record = some text := by
  unfold store
  rw [toRecord_eq_ok hw]
  dsimp only [bind, Except.bind]
  cases codec.encode g.record with
  | none => simp [throw_eq_ok]
  | some found => simp [pure_eq_ok]

theorem restore_eq_ok : restore codec text = .ok g ↔
    ∃ r, codec.decode text = some r ∧ ofRecord r = .ok g := by
  unfold restore
  split
  · next r hr => simp [hr]
  · next hr => simp [hr]

theorem restore_built (h : restore codec text = .ok g) : g.Built := by
  obtain ⟨r, -, hg⟩ := restore_eq_ok.mp h
  exact ofRecord_built hg

/-- The text of a graph is read as its record, which gives the graph and the constraints of its
links. -/
theorem store_succeeds (hc : codec.Faithful) (hg : g.Built)
    (hw : ∀ r < g.allocCount, (g.alloc r).weight.isFinite = true) :
    ∃ text, g.store codec = .ok text ∧ restore codec text = .ok g.linked := by
  obtain ⟨text, henc, hdec⟩ := hc.decode_encode (isFinite_record hw)
  exact ⟨text, (store_eq_ok hw).mpr henc,
    restore_eq_ok.mpr ⟨_, hdec, ofRecord_record hg.wellFormed hg.linksApart⟩⟩

/-- Storing a graph of finite weights succeeds. Restoring it gives the graph with the constraint
of every link, which is the graph itself exactly when every link still has its constraint. -/
theorem restore_store (hc : codec.Faithful) (hg : g.Built)
    (hw : ∀ r < g.allocCount, (g.alloc r).weight.isFinite = true) :
    ∃ text, g.store codec = .ok text ∧ restore codec text = .ok g.linked ∧
      (restore codec text = .ok g ↔ g.LinksHeld) := by
  obtain ⟨text, hstore, hrestore⟩ := store_succeeds hc hg hw
  refine ⟨text, hstore, hrestore, ?_⟩
  rw [hrestore, Except.ok.injEq]
  exact linked_eq_self_iff hg.wellFormed hg.linksApart

/-- A graph whose JSON text is read as its record is stored as that text. -/
theorem store_exact (hw : ∀ r < g.allocCount, (g.alloc r).weight.isFinite = true)
    (h : Codec.json.decode g.record.toJson = some g.record) :
    g.store .exact = .ok g.record.toJson := by
  rw [store_eq_ok hw, Codec.exact_encode, if_pos h]

section LooseLink

def linkedPair : Graph (Tiered Float) := (empty.addOps ["a", "b"]).join 0 1

/-- Two linked Ops without the constraint of their link. -/
def looseLink : Graph (Tiered Float) := linkedPair.disconnect 0 1

theorem linkedPair_built : linkedPair.Built :=
  (Built.empty.addOps ["a", "b"]).link (link_eq_ok.mpr ⟨by decide, by decide, by decide, rfl⟩)

theorem looseLink_built : looseLink.Built :=
  linkedPair_built.unconstrain (unconstrain_eq_ok.mpr ⟨by decide, by decide, rfl⟩)

theorem linkedPair_legible :
    Codec.json.decode linkedPair.record.toJson = some linkedPair.record := by
  decide +kernel

theorem looseLink_legible : Codec.json.decode looseLink.record.toJson = some looseLink.record := by
  decide +kernel

/-- The two linked Ops are stored as JSON text, and restored from it. -/
theorem linkedPair_restore_store : linkedPair.Built ∧ Codec.exact.Faithful ∧
    linkedPair.store .exact = .ok linkedPair.record.toJson ∧
    restore .exact linkedPair.record.toJson = .ok linkedPair := by
  have hw : ∀ r < linkedPair.allocCount, (linkedPair.alloc r).weight.isFinite = true :=
    fun r hr => absurd hr (Nat.not_lt_zero r)
  have hjson := store_exact hw linkedPair_legible
  obtain ⟨text, hstore, -, hrestore⟩ := restore_store Codec.exact_faithful linkedPair_built hw
  obtain rfl := Except.ok.inj (hstore.symm.trans hjson)
  exact ⟨linkedPair_built, Codec.exact_faithful, hjson, hrestore.mpr (by decide)⟩

/-- A link whose constraint was removed is restored with its constraint, though the codec loses
nothing. -/
theorem looseLink_restored_differs : looseLink.Built ∧ Codec.exact.Faithful ∧
    looseLink.store .exact = .ok looseLink.record.toJson ∧
    ∃ h, restore .exact looseLink.record.toJson = .ok h ∧ h.same looseLink = false := by
  have hw : ∀ r < looseLink.allocCount, (looseLink.alloc r).weight.isFinite = true :=
    fun r hr => absurd hr (Nat.not_lt_zero r)
  have hjson := store_exact hw looseLink_legible
  obtain ⟨text, hstore, hrestore⟩ := store_succeeds Codec.exact_faithful looseLink_built hw
  obtain rfl := Except.ok.inj (hstore.symm.trans hjson)
  exact ⟨looseLink_built, Codec.exact_faithful, hjson, looseLink.linked, hrestore,
    by decide +kernel⟩

end LooseLink

end Liveness.Graph
