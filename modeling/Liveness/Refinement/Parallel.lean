import Liveness.Refinement.Draft

/-! # The pass over parallel chains

Two tight chains between the same Ops can be run in either order. When every start of
one costs no more than the equally long start of the other, its Ops are constrained to
come first, one by one.
-/

namespace Liveness

namespace Graph

variable {W : Type}

/-- Whether an Op of a chain is linked. -/
def hasLinks (g : Graph W) (chain : List Nat) : Bool := chain.any fun a => (g.op a).isLinked

/-- Put a pair into a list of pairs in lexicographic order, unless it is there. -/
def insertPair (p : Nat × Nat) : List (Nat × Nat) → List (Nat × Nat)
  | [] => [p]
  | q :: qs =>
    if p.1 < q.1 || (p.1 = q.1 && p.2 < q.2) then p :: q :: qs
    else if p = q then q :: qs
    else q :: insertPair p qs

/-- The distinct pairs of a list in lexicographic order. -/
def sortPairs (pairs : List (Nat × Nat)) : List (Nat × Nat) := pairs.foldr insertPair []

end Graph

namespace Draft

variable {W : Type} [Weight W]

/-- Take out of the bounds of `x` and `y` what an Alloc that both need contributes: its
part of the upper bound of `x` and of the lower bound of `y`. -/
def withoutShared (d : Draft W) (x y : Nat) (bounds : W × W) (r : Nat) : W × W :=
  if (d.graph.op x).allocs.contains r then
    let alloc := d.graph.alloc r
    let w := Weight.neg alloc.weight
    let upper := (Bounds.widen ⟨0, bounds.1⟩ w (d.closure.extremes x alloc.ops)).upper
    let lower := (Bounds.widen ⟨bounds.2, 0⟩ w (d.closure.extremes y alloc.ops)).lower
    (upper, lower)
  else bounds

/-- The most that `x` can raise the liveness and the least that `y` can, but for the
Allocs that both need. -/
def ownBounds (d : Draft W) (x y : Nat) : W × W :=
  (d.graph.op y).allocs.foldl (d.withoutShared x y) (d.upper x, d.lower y)

/-- Whether the pairs of Ops of two chains favour the first chain at every length. The
sums of the bounds so far are `high` and `low`. -/
def favours (d : Draft W) (high low : W) : List (Nat × Nat) → Bool
  | [] => true
  | (x, y) :: rest =>
    let (upper, lower) := d.ownBounds x y
    let high := high + upper
    let low := low + lower
    if Weight.lt high low || (Weight.same high low && x < y) then d.favours high low rest
    else false

/-- The constraints between two parallel chains, if the first is to come first. -/
def chainConstraints (d : Draft W) (first second : List Nat) : List (Nat × Nat) :=
  let g := d.graph
  let sameEnd := match first.getLast?, second.getLast? with
    | some a, some b => (g.op a).outs == (g.op b).outs
    | _, _ => false
  if first.length < second.length || g.hasLinks second || !sameEnd then []
  else
    let pairs := first.zip second
    if d.favours 0 0 pairs then pairs.filter fun p => !(g.op p.1).outs.contains p.2 else []

/-- The constraints by which the tight chain from `a` is to come before others. -/
def constraintsFrom (d : Draft W) (a : Nat) : List (Nat × Nat) :=
  let siblings := d.graph.siblings a
  let chain := d.graph.tightChainFrom a
  if siblings.length ≤ 1 || d.graph.hasLinks chain then []
  else (siblings.filter fun b => b != a).flatMap fun b =>
    d.chainConstraints chain (d.graph.tightChainFrom b)

/-- Insert a constraint unless the opposite one holds or a cycle results. -/
def tryConstrain (d : Draft W) (state : Graph W × Nat) (p : Nat × Nat) :
    Except Error (Graph W × Nat) := do
  let (g, count) := state
  if (g.op p.2).outs.contains p.1 || d.closure.precedes p.2 p.1 then return (g, count)
  let constrained ← g.constrain p.1 p.2
  if constrained.isSchedulable then return (constrained, count + 1)
  else return (← constrained.unconstrain p.1 p.2, count)

def orderParallelChains (d : Draft W) : Except Error (Refined W) := do
  let pairs := Graph.sortPairs ((List.range d.graph.opCount).flatMap d.constraintsFrom)
  let (g, count) ← pairs.foldlM d.tryConstrain (d.graph, 0)
  return ⟨g, 0 < count, [.chainsOrdered count]⟩

end Draft

end Liveness
