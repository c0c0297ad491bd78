import Liveness.Frontier
import Liveness.Graph.Contraction

/-! # Whether a graph can be scheduled

A schedule keeps every constraint and puts linked Ops side by side. There is one
exactly when the graph with its link chains contracted has no cycle.
-/

namespace Liveness.Graph

variable {W : Type}

/-- Fail unless some order keeps all constraints and links. -/
def checkSchedulable (g : Graph W) : Except Error Unit := do
  let contraction ← g.contractLinks
  let order := contraction.graph.edges.topologicalOrder
  if order.length ≠ contraction.graph.opCount then
    throw (.cycle (contraction.expand order).length g.opCount)

/-- Whether some order keeps all constraints and links. -/
def isSchedulable (g : Graph W) : Bool := g.checkSchedulable.isOk

/-- Whether the graph can still be scheduled with a link added. -/
def canLink (g : Graph W) (before after : Nat) : Bool :=
  match g.link before after with
  | .ok linked => linked.isSchedulable
  | .error _ => false

/-- The edges of the graph that are not among the given ones. -/
def newEdges (g : Graph W) (old : Edges) : Except Error Edges :=
  if old.size ≠ g.opCount then .error (.lengthMismatch .constraintDifference g.opCount old.size)
  else .ok (g.edges.mapIdx fun a outs => outs.filter fun b => !(old.outs a).contains b)

end Liveness.Graph
