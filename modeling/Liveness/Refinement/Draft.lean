import Liveness.Event
import Liveness.Graph.Schedulable
import Liveness.Refinement.Bounds

/-! # Drafts

A draft is a graph together with its closure and the bounds of its Ops. Taking up a new
closure drops the constraints that others imply and computes the bounds afresh.
-/

namespace Liveness

/-- A graph, its closure and the bounds of its Ops. -/
structure Draft (W : Type) where
  graph : Graph W
  closure : Closure
  bounds : Array (Bounds W)

/-- A graph after a pass, whether the pass changed it, and what there is to tell. -/
structure Refined (W : Type) where
  graph : Graph W
  changed : Bool
  log : Log W

namespace Graph

variable {W : Type}

/-- Drop constraints, but keep those that belong to a link. -/
def dropImplied (g : Graph W) (pairs : List (Nat × Nat)) : Except Error (Graph W) :=
  pairs.foldlM
    (fun g p => if (g.op p.1).fwdLink = some p.2 then .ok g else g.unconstrain p.1 p.2) g

end Graph

namespace Draft

variable {W : Type} [Weight W]

def lower (d : Draft W) (a : Nat) : W := (Bounds.lookup d.bounds a).lower

def upper (d : Draft W) (a : Nat) : W := (Bounds.lookup d.bounds a).upper

/-- Drop the constraints that others imply, and compute the bounds. -/
def settle (g : Graph W) (c : Closure) : Except Error (Draft W × Log W) := do
  let pairs := c.impliedPairs g.edges
  let g ← g.dropImplied pairs
  return (⟨g, c, Bounds.ofGraph g c⟩, [.impliedRemoved pairs.length])

/-- The draft of a graph, with a closure of its own. -/
def ofGraph (g : Graph W) : Except Error (Draft W × Log W) := do
  settle g (← Closure.ofEdges g.edges)

/-- Bring the closure up to date with new edges of the graph. -/
def update (d : Draft W) (edges : Edges) : Except Error (Draft W × Log W) := do
  settle d.graph (← d.closure.updated edges)

def rebuild (d : Draft W) : Except Error (Draft W × Log W) := ofGraph d.graph

end Draft

end Liveness
