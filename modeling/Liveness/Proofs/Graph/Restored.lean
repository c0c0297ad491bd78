import Liveness.Proofs.Graph.Reordered
import Liveness.Proofs.Graph.Stored

/-! # Graphs restored from text

A text may give a graph in many ways: in any order, with what it says repeated, and with links
that imply their constraints. Once it is restored, the graph is stored in one way only, and
restoring that text gives the same graph again.
-/

namespace Liveness.Graph

section Records

variable {W : Type} [Weight W] {g : Graph W} {r : GraphRecord W}

theorem ofRecord_linksHeld (h : ofRecord r = .ok g) : g.LinksHeld := by
  have hf := ofRecord_follows h
  intro a b hab
  obtain ⟨o, ho, ha, hb⟩ := (hf.fwdLink a b).mp hab
  exact (hf.outs a b).mpr ⟨o, ho, ha, .inr hb⟩

theorem exists_weight_of_ofRecord (h : ofRecord r = .ok g) {x : Nat} (hx : x < g.allocCount) :
    ∃ a ∈ r.allocs, (g.alloc x).weight = a.weight := by
  have hf := ofRecord_follows h
  obtain ⟨-, hr, -⟩ := ofRecord_eq_ok.mp h
  rw [hf.allocCount, ← List.mem_range, ← hr.mem_iff] at hx
  obtain ⟨a, ha, rfl⟩ := List.mem_map.mp hx
  exact ⟨a, ha, hf.weight a ha⟩

end Records

variable {g : Graph (Tiered Float)} {codec : Codec} {text : String}

theorem restore_isFinite (hc : codec.Faithful) (h : restore codec text = .ok g) :
    ∀ r < g.allocCount, (g.alloc r).weight.isFinite = true := by
  obtain ⟨r, hr, hg⟩ := restore_eq_ok.mp h
  intro x hx
  obtain ⟨a, ha, hw⟩ := exists_weight_of_ofRecord hg hx
  exact hw ▸ List.all_eq_true.mp (hc.isFinite_of_decode hr) a ha

/-- A graph that is restored from any text can be stored. Restoring that gives the graph again,
and storing it once more gives the text again. -/
theorem restore_fixed (hc : codec.Faithful) (h : restore codec text = .ok g) :
    ∃ stored, g.store codec = .ok stored ∧ restore codec stored = .ok g ∧
      (restore codec stored >>= fun again => again.store codec) = .ok stored := by
  obtain ⟨r, -, hg⟩ := restore_eq_ok.mp h
  have hbuilt := ofRecord_built hg
  obtain ⟨stored, hstore, hrestore⟩ := store_succeeds hc hbuilt (restore_isFinite hc h)
  have hlinked : g.linked = g :=
    (linked_eq_self_iff hbuilt.wellFormed hbuilt.linksApart).mpr (ofRecord_linksHeld hg)
  rw [hlinked] at hrestore
  refine ⟨stored, hstore, hrestore, ?_⟩
  rw [hrestore]
  exact hstore

section LooseText

variable (w : Tiered Float)

/-- Two Ops, the last of them first, with a need that is repeated and a link whose constraint is
left out. -/
def looseRecord : GraphRecord (Tiered Float) :=
  { ops := [⟨1, "b", [], [0, 0], -1⟩, ⟨0, "a", [], [0], 1⟩], allocs := [⟨0, w⟩] }

def linkedUsers : Graph (Tiered Float) := (linkedPair.addAlloc w).attachAll [0, 1] 0

theorem ofRecord_looseRecord : ofRecord (looseRecord w) = .ok (linkedUsers w) := by
  cbv

def looseText : String := "[[[1,\"b\",[],[0,0],-1],[0,\"a\",[],[0],1]],[[0,[0,0,0,25e-1,0,0,0]]]]"

theorem looseText_read : Codec.json.decode looseText = some (looseRecord (.ofFloat 2.5)) := by
  decide +kernel

theorem linkedUsers_legible : Codec.json.decode (linkedUsers (.ofFloat 2.5)).record.toJson =
    some (linkedUsers (.ofFloat 2.5)).record := by
  decide +kernel

theorem linkedUsers_isFinite : ∀ r < (linkedUsers (.ofFloat 2.5)).allocCount,
    ((linkedUsers (.ofFloat 2.5)).alloc r).weight.isFinite = true := by
  decide +kernel

/-- The text is read as JSON. Stored once, the graph has its one JSON text. -/
theorem looseText_fixed : Codec.exact.Faithful ∧ ∃ g, restore .exact looseText = .ok g ∧
    g.store .exact = .ok g.record.toJson ∧ restore .exact g.record.toJson = .ok g ∧
    (restore .exact g.record.toJson >>= fun again => again.store .exact) =
      .ok g.record.toJson := by
  have hdecode : Codec.exact.decode looseText = some (looseRecord (.ofFloat 2.5)) :=
    (Codec.exact_decode_of_ne (by decide)).trans looseText_read
  have hloose : restore .exact looseText = .ok (linkedUsers (.ofFloat 2.5)) :=
    restore_eq_ok.mpr ⟨_, hdecode, ofRecord_looseRecord _⟩
  have hjson := store_exact linkedUsers_isFinite linkedUsers_legible
  obtain ⟨stored, hstore, hfixed⟩ := restore_fixed Codec.exact_faithful hloose
  obtain rfl := Except.ok.inj (hstore.symm.trans hjson)
  exact ⟨Codec.exact_faithful, _, hloose, hjson, hfixed⟩

end LooseText

end Liveness.Graph
