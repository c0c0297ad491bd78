import Liveness.Closure.Words
import Liveness.Frontier

/-! # The closure of an acyclic graph

For every node the sets of the nodes that are before and after it in every order of the
edges. The rows are joined in an order in which predecessors come first. Edges can be
added later without starting again.
-/

namespace Liveness

/-- The edges as pairs. -/
def Edges.pairs (edges : Edges) : List (Nat × Nat) :=
  edges.toList.zipIdx.flatMap fun p => p.1.map fun b => (p.2, b)

/-- Check that all edges end at nodes and that there are no more lists than nodes. -/
def Edges.check (edges : Edges) (n : Nat) : Except Error Unit := do
  match edges.toList.flatten.find? fun b => n ≤ b with
  | some b => throw (.opOutOfRange b n)
  | none => if n < edges.size then throw (.lengthMismatch .closureEdges edges.size n)

/-- One set of nodes per node. -/
abbrev Rows (n : Nat) := Vector (Words n) n

namespace Rows

variable {n : Nat}

/-- The set of a node, empty for an address without one. -/
def row (rows : Rows n) (a : Nat) : Words n := rows[a]?.getD (.empty n)

def holds (rows : Rows n) (a b : Nat) : Bool := (rows.row a).testBit b

/-- Add a node and its own row to the row of `a`. -/
def join (rows : Rows n) (a b : Nat) : Rows n :=
  rows.setIfInBounds a (((rows.row a).insert b).union (rows.row b))

/-- Leave out each node that is in the row of another one. `kept` are the nodes already
looked at and not left out. -/
def essential (rows : Rows n) (kept : List Nat) : List Nat → List Nat
  | [] => kept
  | p :: rest =>
    if (kept ++ rest).any fun q => rows.holds q p then rows.essential kept rest
    else rows.essential (kept ++ [p]) rest

/-- The row of a node from those of its direct predecessors. -/
def complete (rows : Rows n) (preds : Edges) (a : Nat) : Rows n :=
  (rows.essential [] (preds.outs a)).foldl (fun rows p => rows.join a p) rows

/-- The rows of all nodes that reach each of `n` nodes, or the failure to find an order. -/
def ofEdges (n : Nat) (edges preds : Edges) : Except Error (Rows n) :=
  let order := edges.topologicalOrder
  if order.length ≠ edges.size then .error (.cycle order.length edges.size)
  else .ok (order.foldl (fun rows a => rows.complete preds a) (Vector.replicate n (.empty n)))

/-- Add an edge from `b` to `a`, and everything that it implies. -/
def insert (rows : Rows n) (b a : Nat) : Rows n :=
  if rows.holds a b then rows
  else
    (List.range n).foldl
      (fun rows c => if rows.holds c a && !rows.holds c b then rows.join c b else rows)
      (rows.join a b)

end Rows

/-- The two reachability matrices over `size` nodes. -/
structure Closure where
  size : Nat
  before : Rows size
  after : Rows size
  deriving DecidableEq, Repr

namespace Closure

/-- The closure of a graph without cycles. -/
def ofEdges (edges : Edges) : Except Error Closure := do
  edges.check edges.size
  let reversed := edges.reverse
  let before ← Rows.ofEdges edges.size edges reversed
  let after ← Rows.ofEdges edges.size reversed edges
  return ⟨edges.size, before, after⟩

/-- Whether `a` is before `b` in every order. -/
def precedes (c : Closure) (a b : Nat) : Bool := Rows.holds c.before b a

/-- Whether two nodes can come in either order. -/
def unordered (c : Closure) (a b : Nat) : Bool := !c.precedes a b && !c.precedes b a

/-- Add one edge, which must not close a cycle. -/
def addEdge (c : Closure) (a b : Nat) : Except Error Closure :=
  if a = b || c.precedes b a then .error (.cycle 0 c.size)
  else .ok { c with before := Rows.insert c.before a b, after := Rows.insert c.after b a }

/-- A computation on a closure in place, which may fail halfway. -/
abbrev InPlace (α : Type) := EStateM Error Closure α

/-- Add edges in place. Both matrices are copied, and the copies are only taken over once every
edge is in them. -/
def update (edges : Edges) : InPlace Unit := do
  let c ← get
  MonadExcept.ofExcept (edges.check c.size)
  let copy ← edges.pairs.foldlM (fun copy p => MonadExcept.ofExcept (copy.addEdge p.1 p.2)) c
  set copy

/-- The closure that an update makes of another one, unless it fails. -/
def updated (c : Closure) (edges : Edges) : Except Error Closure :=
  match update edges c with
  | .ok _ c' => .ok c'
  | .error e _ => .error e

end Closure

end Liveness
