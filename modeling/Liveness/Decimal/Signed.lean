/-! # Doubles with their signs

A double as its sign and its magnitude. Arithmetic knows only one value that is not a
number, but the order that tells all doubles apart has one of either sign, the negative
one below and the positive one above everything else.
-/

namespace Liveness.Decimal

/-- A double given by its sign and by a magnitude that has no sign of its own. -/
structure Signed where
  negative : Bool
  magnitude : Float

namespace Signed

def toFloat (x : Signed) : Float := if x.negative then -x.magnitude else x.magnitude

/-- Whether two doubles are equal as numbers: zeros of both signs are, and what is not a
number equals nothing. -/
def same (x y : Signed) : Bool := x.toFloat == y.toFloat

/-- The rank in the order that tells all doubles apart: by sign, then by magnitude. -/
def rank (x : Signed) : Int :=
  let word : Int := x.magnitude.toBits.toNat
  if x.negative then -word - 1 else word

end Signed

end Liveness.Decimal
