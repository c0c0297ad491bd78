import Liveness.Proofs.Graph.Contraction
import Liveness.Proofs.Graph.Edits

/-! # Edits that tighten a graph

A graph is tightened when it is refined and each of its links still has a constraint.
Adding constraints and links tightens a graph, and so does moving a constraint along a
chain of links and dropping constraints that others imply.
-/

namespace Liveness.Graph

variable {W : Type} {g h k : Graph W} {a b u v x : Nat}

def LinksHeld (g : Graph W) : Prop := ∀ ⦃a b⦄, (g.op a).fwdLink = some b → b ∈ (g.op a).outs

theorem linksHeld_iff : g.LinksHeld ↔
    ∀ a < g.opCount, ∀ b ∈ (g.op a).fwdLink, b ∈ (g.op a).outs := by
  constructor
  · intro hl a _ b hb
    exact hl hb
  · intro hl a b hb
    exact hl a (lt_of_fwdLink hb) b hb

instance (g : Graph W) : Decidable g.LinksHeld := decidable_of_iff' _ linksHeld_iff

def Unlinked (g : Graph W) : Prop := ∀ a, (g.op a).fwdLink = none

theorem unlinked_iff : g.Unlinked ↔ ∀ a < g.opCount, (g.op a).fwdLink = none := by
  refine ⟨fun h a _ => h a, fun h a => ?_⟩
  rcases Nat.lt_or_ge a g.opCount with ha | ha
  · exact h a ha
  · rw [op_of_ge ha]
    rfl

instance (g : Graph W) : Decidable g.Unlinked := decidable_of_iff' _ unlinked_iff

theorem Unlinked.linksHeld (hn : g.Unlinked) : g.LinksHeld := fun a b hb => by
  rw [hn a] at hb
  cases hb

def LinkPath (g : Graph W) : Nat → Nat → Prop :=
  Relation.TransGen fun a b => (g.op a).fwdLink = some b

theorem LinkPath.path (hl : g.LinksHeld) (hp : g.LinkPath a b) : g.Path a b := by
  induction hp with
  | single h => exact .of_mem (hl h)
  | tail _ h ih => exact ih.trans (.of_mem (hl h))

theorem LinkPath.congr (hl : ∀ x, (h.op x).fwdLink = (g.op x).fwdLink) (hp : g.LinkPath a b) :
    h.LinkPath a b := by
  unfold LinkPath
  simp only [hl]
  exact hp

/-- A well-formed refined graph in which every link has its constraint. -/
structure Tightens [Zero W] (g h : Graph W) : Prop extends g.Refines h where
  wellFormed : h.WellFormed
  linksHeld : h.LinksHeld

namespace Tightens

variable [Zero W]

theorem refl (hg : g.WellFormed) (hl : g.LinksHeld) : g.Tightens g := ⟨.refl g, hg, hl⟩

theorem trans (h₁ : g.Tightens h) (h₂ : h.Tightens k) : g.Tightens k :=
  ⟨h₁.toRefines.trans h₂.toRefines, h₂.wellFormed, h₂.linksHeld⟩

end Tightens

section Edits

theorem mem_outs_connect (hu : u < g.opCount) (hv : v < g.opCount) :
    b ∈ ((g.connect u v).op a).outs ↔ a = u ∧ b = v ∨ b ∈ (g.op a).outs := by
  rw [op_connect hu hv]
  dsimp only
  split
  · next he => simp [he]
  · next he => simp [he]

theorem mem_outs_disconnect (ho : g.Ordered) (hu : u < g.opCount) (hv : v < g.opCount) :
    b ∈ ((g.disconnect u v).op a).outs ↔ b ∈ (g.op a).outs ∧ ¬ (a = u ∧ b = v) := by
  rw [op_disconnect hu hv]
  dsimp only
  split
  · next he =>
    subst he
    simp [mem_erase (ho.outs_sorted a), and_comm]
  · next he => simp [he]

theorem fwdLink_connect (hu : u < g.opCount) (hv : v < g.opCount) (x : Nat) :
    ((g.connect u v).op x).fwdLink = (g.op x).fwdLink := by
  rw [op_connect hu hv]

theorem fwdLink_disconnect (hu : u < g.opCount) (hv : v < g.opCount) (x : Nat) :
    ((g.disconnect u v).op x).fwdLink = (g.op x).fwdLink := by
  rw [op_disconnect hu hv]

variable [Zero W] (hg : g.WellFormed) (hl : g.LinksHeld)

include hg hl

theorem connect_tightens (hu : u < g.opCount) (hv : v < g.opCount) (hne : u ≠ v) :
    g.Tightens (g.connect u v) where
  opCount := opCount_connect g u v
  path := fun hb => .of_mem ((mem_outs_connect hu hv).mpr (.inr hb))
  link := fun hb => (fwdLink_connect hu hv _).trans hb
  wellFormed := hg.connect hu hv hne
  linksHeld := by
    intro a b hb
    rw [fwdLink_connect hu hv] at hb
    exact (mem_outs_connect hu hv).mpr (.inr (hl hb))

theorem join_tightens (hu : u < g.opCount) (hv : v < g.opCount) (hne : u ≠ v)
    (hf : ∀ b, (g.op u).fwdLink = some b → b = v)
    (hb : ∀ a, (g.op v).bwdLink = some a → a = u) : g.Tightens (g.join u v) := by
  have houts : ∀ x, ((g.join u v).op x).outs = ((g.connect u v).op x).outs := fun x => by
    rw [op_join hu hv]
  have hlink : ∀ x, ((g.join u v).op x).fwdLink = if x = u then some v else (g.op x).fwdLink :=
    fun x => by rw [op_join hu hv]
  refine ⟨⟨opCount_join g u v, fun {a b} hab => ?_, fun {a b} hab => ?_⟩,
    hg.join hu hv hne hf hb, fun a b hab => ?_⟩
  · refine .of_mem ?_
    rw [houts]
    exact (mem_outs_connect hu hv).mpr (.inr hab)
  · rw [hlink]
    split
    · next he =>
      subst he
      exact congrArg some (hf b hab).symm
    · exact hab
  · rw [houts]
    refine (mem_outs_connect hu hv).mpr ?_
    rw [hlink] at hab
    split at hab
    · next he => exact .inl ⟨he, (Option.some.inj hab).symm⟩
    · exact .inr (hl hab)

/-- A constraint that starts in a chain of links can start further down the chain. -/
theorem slideDown_tightens (ha : a < g.opCount) (hb : b < g.opCount) (hx : x < g.opCount)
    (hxb : x ≠ b) (hab : (g.op a).fwdLink ≠ some b) (hp : g.LinkPath a x) :
    g.Tightens ((g.disconnect a b).connect x b) := by
  have hx' : x < (g.disconnect a b).opCount := by simpa using hx
  have hb' : b < (g.disconnect a b).opCount := by simpa using hb
  have hlink : ∀ y, (((g.disconnect a b).connect x b).op y).fwdLink = (g.op y).fwdLink := fun y =>
    (fwdLink_connect hx' hb' y).trans (fwdLink_disconnect ha hb y)
  have hheld : ((g.disconnect a b).connect x b).LinksHeld := by
    intro y z hyz
    rw [hlink] at hyz
    refine (mem_outs_connect hx' hb').mpr (.inr ((mem_outs_disconnect hg.toOrdered ha hb).mpr ⟨hl hyz, ?_⟩))
    rintro ⟨rfl, rfl⟩
    exact hab hyz
  refine ⟨⟨by simp, fun {y z} hyz => ?_, fun hyz => (hlink _).trans hyz⟩,
    (hg.disconnect ha hb).connect hx' hb' hxb, hheld⟩
  by_cases he : y = a ∧ z = b
  · obtain ⟨rfl, rfl⟩ := he
    exact ((hp.congr hlink).path hheld).trans
      (.of_mem ((mem_outs_connect hx' hb').mpr (.inl ⟨rfl, rfl⟩)))
  · exact .of_mem ((mem_outs_connect hx' hb').mpr
      (.inr ((mem_outs_disconnect hg.toOrdered ha hb).mpr ⟨hyz, he⟩)))

theorem slideUp_tightens (ha : a < g.opCount) (hb : b < g.opCount) (hx : x < g.opCount)
    (hbx : b ≠ x) (hba : (g.op b).fwdLink ≠ some a) (hp : g.LinkPath x a) :
    g.Tightens ((g.disconnect b a).connect b x) := by
  have hx' : x < (g.disconnect b a).opCount := by simpa using hx
  have hb' : b < (g.disconnect b a).opCount := by simpa using hb
  have hlink : ∀ y, (((g.disconnect b a).connect b x).op y).fwdLink = (g.op y).fwdLink := fun y =>
    (fwdLink_connect hb' hx' y).trans (fwdLink_disconnect hb ha y)
  have hheld : ((g.disconnect b a).connect b x).LinksHeld := by
    intro y z hyz
    rw [hlink] at hyz
    refine (mem_outs_connect hb' hx').mpr (.inr ((mem_outs_disconnect hg.toOrdered hb ha).mpr ⟨hl hyz, ?_⟩))
    rintro ⟨rfl, rfl⟩
    exact hba hyz
  refine ⟨⟨by simp, fun {y z} hyz => ?_, fun hyz => (hlink _).trans hyz⟩,
    (hg.disconnect hb ha).connect hb' hx' hbx, hheld⟩
  by_cases he : y = b ∧ z = a
  · obtain ⟨rfl, rfl⟩ := he
    exact Path.trans (.of_mem ((mem_outs_connect hb' hx').mpr (.inl ⟨rfl, rfl⟩)))
      ((hp.congr hlink).path hheld)
  · exact .of_mem ((mem_outs_connect hb' hx').mpr
      (.inr ((mem_outs_disconnect hg.toOrdered hb ha).mpr ⟨hyz, he⟩)))

end Edits

theorem path_of_implied (hg : g.Acyclic) (hi : ∀ {a b}, b ∈ (g.op a).outs →
    b ∈ (h.op a).outs ∨ ∃ x, g.Path a x ∧ b ∈ (g.op x).outs) (hb : b ∈ (g.op a).outs) :
    h.Path a b := by
  obtain ⟨f, hf⟩ := hg
  exact transGen_of_implied (r := fun a b => b ∈ (g.op a).outs) hf hi hb

theorem Acyclic.mono (hg : g.Acyclic) (hi : ∀ {a b}, b ∈ (h.op a).outs → b ∈ (g.op a).outs) :
    h.Acyclic := by
  obtain ⟨f, hf⟩ := hg
  exact ⟨f, fun hb => hf (hi hb)⟩

end Liveness.Graph
