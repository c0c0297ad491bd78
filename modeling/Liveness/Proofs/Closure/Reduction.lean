import Liveness.Proofs.Closure.Exact

/-! # Transitive reduction

An edge is implied when another path has the same ends. All implied edges can be taken out
together, and what is left has the same paths. None of its edges is implied by the others, and
every list of edges with the same paths has them all.
-/

namespace Liveness

open Relation

variable {edges : Edges} {pairs : List (Nat × Nat)} {c : Closure} {a b : Nat}

namespace Edges

def without (edges : Edges) (pairs : List (Nat × Nat)) : Edges :=
  edges.mapIdx fun a bs => bs.filter fun b => (a, b) ∉ pairs

theorem mem_outs_without :
    b ∈ (edges.without pairs).outs a ↔ b ∈ edges.outs a ∧ (a, b) ∉ pairs := by
  simp only [without, outs, Array.getD_eq_getD_getElem?, Array.getElem?_mapIdx]
  cases edges[a]? <;> simp

/-- Some of the edges with the same paths as all of them, none of which can be left out. -/
structure Reduction (edges kept : Edges) : Prop where
  outs : ∀ {a b}, b ∈ kept.outs a → b ∈ edges.outs a
  path : ∀ {a b}, kept.Path a b ↔ edges.Path a b
  rest : ∀ {a b}, b ∈ kept.outs a → ¬ (kept.without [(a, b)]).Path a b
  least : ∀ {other : Edges}, (∀ a b, other.Path a b ↔ edges.Path a b) →
    ∀ {a b}, b ∈ kept.outs a → b ∈ other.outs a

theorem reduction_of_needed {kept : Edges} (hac : edges.Acyclic)
    (hk : ∀ a b, b ∈ kept.outs a ↔ Needed (fun a b => b ∈ edges.outs a) a b) :
    edges.Reduction kept where
  outs hb := ((hk _ _).mp hb).1
  path := by
    obtain ⟨f, hf⟩ := hac.exists_rank
    simp only [Path, hk]
    exact transGen_needed hf
  rest {a b} hb := by
    simp only [Path, mem_outs_without, hk, List.mem_singleton, Prod.mk.injEq]
    exact ((hk a b).mp hb).not_transGen_rest
  least {other} hp {a b} hb := ((hk a b).mp hb).of_transGen hp

end Edges

namespace Closure

theorem Exact.mem_impliedPairs (h : c.Exact edges.Path edges.size) (hr : edges.InRange) :
    (a, b) ∈ c.impliedPairs edges ↔
      b ∈ edges.outs a ∧ ∃ x, edges.Path a x ∧ b ∈ edges.outs x := by
  simp only [mem_impliedPairs_reverse, (Edges.turned_reverse hr).2, h.precedes_iff, and_comm]

theorem Exact.reduction (h : c.Exact edges.Path edges.size) (hr : edges.InRange)
    (hac : edges.Acyclic) : edges.Reduction (edges.without (c.impliedPairs edges)) := by
  apply Edges.reduction_of_needed hac
  intro a b
  rw [Edges.mem_outs_without, h.mem_impliedPairs hr]
  exact and_congr_right fun hb => not_congr (and_iff_right hb)

end Closure

end Liveness
