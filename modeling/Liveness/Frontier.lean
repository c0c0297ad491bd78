import Liveness.Graph.Basic

/-! # Peeling a graph from its start

A frontier holds the nodes whose predecessors have all been taken, in the order in
which they became ready. Taking one node after the other gives an order in which every
edge points forward; it contains all nodes exactly when there is no cycle.
-/

namespace Liveness

namespace Edges

def inDegrees (edges : Edges) : Array Nat :=
  edges.toList.flatten.foldl (fun degrees b => degrees.modify b (· + 1))
    (Array.replicate edges.size 0)

/-- The edges turned around; the new successors of each node are ascending. -/
def reverse (edges : Edges) : Edges :=
  let pairs := edges.toList.zipIdx.flatMap fun p => p.1.map fun b => (p.2, b)
  pairs.foldl (fun rev p => rev.modify p.2 (· ++ [p.1])) (Array.replicate edges.size [])

def inRange (edges : Edges) : Bool := edges.toList.flatten.all fun b => b < edges.size

end Edges

/-- The nodes that can be taken next, oldest first, and for every node the number of
edges into it from nodes that have not been taken. -/
structure Frontier where
  ready : List Nat
  waiting : Array Nat
  deriving DecidableEq, Repr

namespace Frontier

/-- The frontier before anything is taken. -/
def start (edges : Edges) : Frontier :=
  let degrees := edges.inDegrees
  ⟨(List.range edges.size).filter fun i => degrees.getD i 0 == 0, degrees⟩

/-- Count one edge into a node as taken; the node is ready when none is left. -/
def release (f : Frontier) (b : Nat) : Frontier :=
  let left := f.waiting.getD b 0 - 1
  ⟨if left = 0 then f.ready ++ [b] else f.ready, f.waiting.setIfInBounds b left⟩

/-- Take the ready node at index `i`, whose successors are `outs`. -/
def take (f : Frontier) (i : Nat) (outs : List Nat) : Frontier :=
  outs.foldl release ⟨f.ready.eraseIdx i, f.waiting⟩

end Frontier

/-- A rule that picks an index of the ready nodes, with a state of its own. -/
abbrev Choice (σ : Type) := σ → List Nat → Nat × σ

/-- Take nodes by the rule until none is ready, or until the rule picks an index where
there is no node. Each step takes another node, so as many steps as nodes are enough. -/
def peel {σ : Type} (edges : Edges) (choose : Choice σ) : Nat → σ → Frontier → List Nat
  | 0, _, _ => []
  | steps + 1, s, f =>
    if f.ready.isEmpty then []
    else
      let (i, s) := choose s f.ready
      match f.ready[i]? with
      | none => []
      | some a => a :: peel edges choose steps s (f.take i (edges.outs a))

/-- The nodes in the order in which the rule takes them. -/
def takeAll {σ : Type} (edges : Edges) (choose : Choice σ) (s : σ) : List Nat :=
  peel edges choose edges.size s (Frontier.start edges)

/-- The rule that picks the node which became ready last. -/
def Choice.newest : Choice Unit := fun _ ready => (ready.length - 1, ())

namespace Edges

/-- The nodes that can be put in order, the newest ready one first. Without a cycle
these are all of them. -/
def topologicalOrder (edges : Edges) : List Nat := takeAll edges Choice.newest ()

/-- Whether all edges end at nodes and can point forward at once. -/
def isSchedulable (edges : Edges) : Bool :=
  edges.inRange && edges.topologicalOrder.length == edges.size

end Edges

end Liveness
