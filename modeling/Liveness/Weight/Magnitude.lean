/-! # Magnitudes

The numbers that a weight holds on each tier. A magnitude may be incomparable to
every number, itself included; `order` makes the comparison total by putting such
values above all others and equal to each other.
-/

namespace Liveness

/-- The arithmetic of one tier. `compare?` is `none` when either side is no number. -/
class Magnitude (α : Type) extends Zero α, Add α, Sub α where
  scale : Int → α → α
  compare? : α → α → Option Ordering
  isNaN : α → Bool
  isFinite : α → Bool
  agree : α → α → Bool
  text : α → String

namespace Magnitude

variable {α : Type} [Magnitude α]

/-- The total comparison: what is no number ranks above every number. -/
def order (a b : α) : Ordering := (compare? a b).getD (compare (isNaN a) (isNaN b))

def isZero (x : α) : Bool := compare? x 0 == some .eq

end Magnitude

end Liveness
