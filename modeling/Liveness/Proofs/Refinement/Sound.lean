import Liveness.Proofs.Refinement.Rebuilt
import Liveness.Proofs.Refinement.RoundSuccess

/-! # Refinement is sound

Whatever passes are on and however many rounds they may take, a graph that can be scheduled is
refined to one that can be scheduled, and the schedules of the refined graph are schedules of
the original one. Only weights that are no longer finite when taken together stop refinement.
-/

namespace Liveness.Graph

variable {W : Type} [Weight W] {g : Graph W}

/-- A graph with a valid order is refined to one that has a valid order, and whose valid orders
are valid for the original graph. Ops, Allocs and links stay. Otherwise Allocs of the same Ops
have been taken together on the way, and their combined weight is not finite. -/
theorem refine_sound (hg : g.Built) (hl : g.LinksHeld) (hs : ∃ order, g.ValidOrder order)
    (passes : Passes) :
    (∃ h log, g.refine passes = .ok (h, log) ∧ h.opCount = g.opCount ∧
      h.allocCount = g.allocCount ∧
      (∀ a b, (g.op a).fwdLink = some b → (h.op a).fwdLink = some b) ∧
      (∃ order, h.ValidOrder order) ∧ ∀ order, h.ValidOrder order → g.ValidOrder order) ∨
    ∃ (d : Draft W) (alloc : Alloc W) (magnitude : String), .combine ∈ passes.enabled ∧
      d.Reached g passes.enabled ∧ alloc ∈ d.graph.leaders ∧
      Weight.defect? (d.graph.combinedWeight alloc) = some magnitude ∧
      g.refine passes = .error (.nonFiniteWeight magnitude) := by
  have hwf := hg.wellFormed
  rcases (refine_outcome hwf hl hs passes).cases with ⟨⟨h, log⟩, hh, hsched⟩ | ⟨e, he, hover⟩
  · left
    have ht := refine_tightens hwf hl hh
    exact ⟨h, log, hh, ht.opCount, refine_allocCount hh, fun _ _ => ht.link, hsched,
      fun _ => ht.toRefines.validOrder⟩
  · right
    obtain ⟨hcombine, d, hd, alloc, hm, magnitude, hdefect, rfl⟩ := hover
    exact ⟨d, alloc, magnitude, hcombine, hd, hm, hdefect, he⟩

section Chains

open Numbers

/-- With all passes on, the linked chains keep their link and can be scheduled. -/
theorem linkedChains_refine_sound : ∃ h log, linkedChains.refine .allOn = .ok (h, log) ∧
    (h.op 0).fwdLink = some 1 ∧ (∃ order, h.ValidOrder order) ∧
      ∀ order, h.ValidOrder order → linkedChains.ValidOrder order := by
  rcases refine_sound linkedChains_built linkedChains_linksHeld ⟨_, linkedChains_validOrder⟩
    .allOn with ⟨h, log, hh, -, -, hlink, hs, hvalid⟩ | ⟨d, alloc, magnitude, -, -, -, hno, -⟩
  · exact ⟨h, log, hh, hlink 0 1 (by decide), hs, hvalid⟩
  · rw [FiniteWeight.defect?_eq_none] at hno
    cases hno

end Chains

end Liveness.Graph
