import Liveness.Schedule.InPlace
import Liveness.Schedule.Span

/-! # Prices in place

The price of a move for one Alloc as it is computed index by index, where every index has to be
in range; otherwise there is no result. Where the ends of the Alloc do not tell the price, two
neighbours among its places are read that lie on both sides of a border.
-/

namespace Liveness.Schedule

variable {W : Type} [Weight W]

/-- The last one of some ascending places that is before a border, and the first one that is not. -/
def besides? (border : Nat) (places : List Nat) : Option (Nat × Nat) := do
  let count := countBefore border places
  let post ← places[count]?
  let pre ← places[← minus? count 1]?
  return (pre, post)

/-- The change of the cost of one Alloc when the window of size `n` at `start` moves to
`target`, if all that it is computed with is in range. -/
def shiftCost? (s : Schedule W) (start target n r : Nat) : Option W := do
  let (x, o, z) := (⟨start, target, n⟩ : Move).bounds
  let alloc ← s.graph.allocs[r]?
  let places ← s.allocPlaces[r]?
  let first := places.head?.getD 0
  let last := places.getLast?.getD 0
  if last < x || z ≤ first || (first < x && z ≤ last) then return 0
  else if (x ≤ first && last < o) || (o ≤ first && last < z) then return 0
  else if first < x && x ≤ last && last < o then
    return Weight.scale ((z : Int) - o) alloc.weight
  else if o ≤ first && first < z && z ≤ last then
    return Weight.scale ((o : Int) - x) alloc.weight
  else
    let (pre, post) ← besides? o places
    return Weight.scale (spanChange x o z first last pre post) alloc.weight

end Liveness.Schedule
