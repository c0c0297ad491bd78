import Liveness.Weight.Binary64

/-! # Moves

A move takes a block of a schedule to another place; what it jumps over goes the other
way. So every move exchanges two neighbouring blocks, and each has a form in which the
moved block goes forward.
-/

namespace Liveness

/-- Move the `size` places from `start` on so that they begin at `target`. -/
structure Move where
  start : Nat
  target : Nat
  size : Nat
  deriving DecidableEq, Repr

/-- A shift of a window and the change of total liveness that it causes. -/
structure Shift (W : Type) where
  distance : Int
  cost : W
  deriving DecidableEq, Repr

namespace Move

/-- The same exchange of blocks with the moved block going forward. -/
def canonical (m : Move) : Move :=
  if m.target < m.start then ⟨m.target, m.target + m.size, m.start - m.target⟩ else m

/-- Where the first block begins, where the second one does, and where it ends. -/
def bounds (m : Move) : Nat × Nat × Nat :=
  let c := m.canonical
  (c.start, c.start + c.size, c.target + c.size)

/-- Exchange the blocks `[a, b)` and `[b, c)` of an array. -/
def exchange {α : Type} (xs : Array α) (a b c : Nat) : Array α :=
  xs.extract 0 a ++ xs.extract b c ++ xs.extract a b ++ xs.extract c xs.size

def apply {α : Type} (m : Move) (xs : Array α) : Array α :=
  let (a, b, c) := m.bounds
  exchange xs a b c

def text (m : Move) : String :=
  let size := m.size
  let start := m.start
  let target := m.target
  s!"(start0={start}, start1={target}, nToShift={size})"

end Move

namespace Shift

variable {W : Type} [Weight W]

def stay : Shift W := ⟨0, 0⟩

/-- Whether two searches found the same shift at costs that agree. -/
def agrees (a b : Shift W) : Bool := a.distance == b.distance && Weight.agree a.cost b.cost

def text (s : Shift W) : String :=
  let distance := s.distance
  let cost := Weight.text s.cost
  s!"(shift={distance}, cost={cost})"

/-- Whether two shifts are equal up to costs of equal rank. -/
def same (a b : Shift W) : Bool := a.distance == b.distance && Weight.same a.cost b.cost

/-- Whether two shifts agree up to a relative error of their costs. -/
def agreesWithin (tolerance : Float) (a b : Shift (Tiered Float)) : Bool :=
  a.distance == b.distance && a.cost.maxRelativeError b.cost ≤ tolerance

end Shift

end Liveness
