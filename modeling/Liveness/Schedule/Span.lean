import Liveness.Schedule.Window

/-! # Spans

The span of an Alloc is the number of places from its first to its last Op. The total
liveness of a schedule is the sum of the weights of the Allocs, each times its span.
The change of one span by a move follows from where the ends of the Alloc are.
-/

namespace Liveness

/-- The number of places from the smallest to the largest of some places. -/
def spanOf (places : List Nat) : Nat :=
  match places.min?, places.max? with
  | some low, some high => high - low + 1
  | _, _ => 0

/-- The sum of the weights of the Allocs that have Ops, each times its span, when the
places of the Ops are given. -/
def Graph.totalLiveness {W : Type} [Weight W] (g : Graph W) (placeOf : Nat → Nat) : W :=
  let used := g.allocs.toList.filter fun alloc => !alloc.ops.isEmpty
  Weight.sum (used.map fun alloc =>
    Weight.scale (spanOf (alloc.ops.map placeOf)) alloc.weight)

namespace Schedule

variable {W : Type} [Weight W]

/-- The change of a span when the block `[x, o)` moves ahead behind the block `[o, z)`.
The ascending places of the Alloc run from `first` to `last`; of them, `post` is the
first one that is not before `o`, and `pre` the one before it. -/
def spanChange (x o z first last pre post : Int) : Int :=
  if first < x then
    if pre < x then -(o - x)
    else (pre - x + z - o) - (last - o + o - x)
  else if last < z then (z - x - (post - pre) + 1) - (last - first + 1)
  else if post < z then (first - x) - (post - o)
  else -(z - o)

/-- The change of the cost of one Alloc when the window of size `n` at `start` moves to
`target`. -/
def shiftCost (s : Schedule W) (start target n r : Nat) : W :=
  let (x, o, z) := (⟨start, target, n⟩ : Move).bounds
  let weight := (s.graph.alloc r).weight
  let places := s.placesOfAlloc r
  let first := places.head?.getD 0
  let last := places.getLast?.getD 0
  if last < x || z ≤ first || (first < x && z ≤ last) then 0
  else if (x ≤ first && last < o) || (o ≤ first && last < z) then 0
  else if first < x && x ≤ last && last < o then Weight.scale ((z : Int) - o) weight
  else if o ≤ first && first < z && z ≤ last then Weight.scale ((o : Int) - x) weight
  else
    let pre := ((places.filter fun p => p < o).getLast?).getD 0
    let post := (places.find? fun p => o ≤ p).getD 0
    Weight.scale (spanChange x o z first last pre post) weight

end Schedule

end Liveness
