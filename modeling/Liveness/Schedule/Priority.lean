import Liveness.Weight.Binary64

/-! # Priorities

Priorities need little: one below all others, the larger of two, and a test. They need
not be totally ordered; the double that is not a number is a priority too.
-/

namespace Liveness

/-- What the scheduler asks of priorities. -/
class Priority (P : Type) extends Zero P where
  bottom : P
  larger : P → P → P
  atLeast : P → P → Bool

namespace Priority

variable {P : Type} [Priority P]

def top (ps : List P) : P := ps.foldl larger bottom

end Priority

instance : Priority Float where
  zero := 0.0
  bottom := -1.0 / 0.0
  larger := Binary64.maxNumber
  atLeast := fun a b => b ≤ a

namespace Numbers

scoped instance : Priority Nat where
  zero := 0
  bottom := 0
  larger := Nat.max
  atLeast := fun a b => b ≤ a

end Numbers

end Liveness
