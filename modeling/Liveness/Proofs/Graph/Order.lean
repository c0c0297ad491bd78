import Mathlib.Data.List.Perm.Subperm
import Liveness.Proofs.Graph.Lookup
import Liveness.Proofs.Implied

/-! # Valid orders

An order is valid for a graph when it lists every Op once, keeps every constraint and
puts linked Ops side by side. A graph refines another one when it implies all of its
constraints and has all of its links; then its valid orders are valid for the other.
-/

namespace Liveness.Graph

variable {W : Type} {g h k : Graph W} {order : List Nat} {a b c : Nat}

theorem perm_range {xs : List Nat} {n : Nat} (hn : xs.Nodup) (hl : n ≤ xs.length)
    (hr : ∀ x ∈ xs, x < n) : xs.Perm (List.range n) := by
  have hs : xs ⊆ List.range n := fun x hx => List.mem_range.mpr (hr x hx)
  exact (List.subperm_of_subset hn hs).perm_of_length_le (by simpa using hl)

theorem idxOf_lt_of_pairwise {R : Nat → Nat → Prop} (h : order.Pairwise fun x y => ¬ R y x)
    (hi : ¬ R a a) (ha : a ∈ order) (hb : b ∈ order) (hab : R a b) :
    order.idxOf a < order.idxOf b := by
  have hla := List.idxOf_lt_length_of_mem ha
  have hlb := List.idxOf_lt_length_of_mem hb
  rcases Nat.lt_trichotomy (order.idxOf a) (order.idxOf b) with hlt | heq | hgt
  · exact hlt
  · rw [List.idxOf_inj ha] at heq
    exact absurd (heq ▸ hab) hi
  · have hno := List.pairwise_iff_getElem.mp h _ _ hlb hla hgt
    rw [List.getElem_idxOf, List.getElem_idxOf] at hno
    exact absurd hab hno

/-- An order of all Ops that keeps every constraint and every link. -/
structure ValidOrder (g : Graph W) (order : List Nat) : Prop where
  perm : order.Perm (List.range g.opCount)
  before : ∀ {a b}, b ∈ (g.op a).outs → order.idxOf a < order.idxOf b
  linked : ∀ {a b}, (g.op a).fwdLink = some b → order.idxOf b = order.idxOf a + 1

def KeepsConstraints (g : Graph W) (order : List Nat) : Prop :=
  ∀ ⦃a b⦄, b ∈ (g.op a).outs → order.idxOf a < order.idxOf b

def KeepsLinks (g : Graph W) (order : List Nat) : Prop :=
  ∀ ⦃a b⦄, (g.op a).fwdLink = some b → order.idxOf b = order.idxOf a + 1

theorem validOrder_iff : g.ValidOrder order ↔ order.Perm (List.range g.opCount) ∧
    (∀ a < g.opCount, ∀ b ∈ (g.op a).outs, order.idxOf a < order.idxOf b) ∧
      ∀ a < g.opCount, ∀ b ∈ (g.op a).fwdLink, order.idxOf b = order.idxOf a + 1 := by
  constructor
  · rintro ⟨hp, hb, hl⟩
    exact ⟨hp, fun _ _ _ => hb, fun _ _ _ => hl⟩
  · rintro ⟨hp, hb, hl⟩
    exact ⟨hp, fun h => hb _ (lt_of_mem_outs h) _ h, fun h => hl _ (lt_of_fwdLink h) _ h⟩

instance (g : Graph W) (order : List Nat) : Decidable (g.ValidOrder order) :=
  decidable_of_iff' _ validOrder_iff

namespace ValidOrder

theorem keepsConstraints (ho : g.ValidOrder order) : g.KeepsConstraints order := fun _ _ => ho.before

theorem keepsLinks (ho : g.ValidOrder order) : g.KeepsLinks order := fun _ _ => ho.linked

theorem mem_iff (ho : g.ValidOrder order) : a ∈ order ↔ a < g.opCount :=
  ho.perm.mem_iff.trans List.mem_range

theorem nodup (ho : g.ValidOrder order) : order.Nodup := ho.perm.nodup_iff.mpr List.nodup_range

theorem idxOf_lt (ho : g.ValidOrder order) (ha : a < g.opCount) :
    order.idxOf a < g.opCount := by
  have hlt := List.idxOf_lt_length_of_mem (ho.mem_iff.mpr ha)
  rwa [ho.perm.length_eq, List.length_range] at hlt

theorem exists_idxOf (ho : g.ValidOrder order) {i : Nat} (hi : i < g.opCount) :
    ∃ a < g.opCount, order.idxOf a = i := by
  have hlt : i < order.length := by rwa [ho.perm.length_eq, List.length_range]
  exact ⟨order[i], ho.mem_iff.mp (List.getElem_mem hlt), ho.nodup.idxOf_getElem i hlt⟩

end ValidOrder

def Path (g : Graph W) : Nat → Nat → Prop := Relation.TransGen fun a b => b ∈ (g.op a).outs

theorem Path.of_mem (h : b ∈ (g.op a).outs) : g.Path a b := .single h

theorem Path.trans (h : g.Path a b) (h' : g.Path b c) : g.Path a c :=
  Relation.TransGen.trans h h'

theorem Path.lift (hg : ∀ {a b}, b ∈ (g.op a).outs → h.Path a b) (hp : g.Path a b) :
    h.Path a b := by
  induction hp with
  | single hb => exact hg hb
  | tail _ hb ih => exact ih.trans (hg hb)

theorem Path.rank_lt {f : Nat → Nat} (hf : ∀ {a b}, b ∈ (g.op a).outs → f a < f b)
    (hp : g.Path a b) : f a < f b :=
  rank_lt_of_transGen (r := fun a b => b ∈ (g.op a).outs) hf hp

/-- Every constraint of `g` follows from those of `h`, and every link of `g` is one of `h`. -/
structure Refines (g h : Graph W) : Prop where
  opCount : h.opCount = g.opCount
  path : ∀ {a b}, b ∈ (g.op a).outs → h.Path a b
  link : ∀ {a b}, (g.op a).fwdLink = some b → (h.op a).fwdLink = some b

namespace Refines

theorem refl (g : Graph W) : g.Refines g := ⟨rfl, .of_mem, id⟩

theorem trans (h₁ : g.Refines h) (h₂ : h.Refines k) : g.Refines k :=
  ⟨h₂.opCount.trans h₁.opCount, fun hb => (h₁.path hb).lift h₂.path,
    fun hb => h₂.link (h₁.link hb)⟩

theorem validOrder (hr : g.Refines h) (ho : h.ValidOrder order) : g.ValidOrder order :=
  ⟨hr.opCount ▸ ho.perm, fun hb => (hr.path hb).rank_lt ho.before,
    fun hb => ho.linked (hr.link hb)⟩

end Refines

end Liveness.Graph
