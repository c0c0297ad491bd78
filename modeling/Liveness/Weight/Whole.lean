import Liveness.Weight.Tiered

/-! # Weights of whole numbers

Whole numbers as magnitudes. Nothing is rounded, so two sums of the same weights agree
only when they are equal. The instance is scoped, since whole numbers have a zero, sums and
differences of their own.
-/

namespace Liveness.Numbers

scoped instance : Magnitude Int where
  zero := 0
  scale := fun k x => k * x
  compare? := fun a b => some (compare a b)
  isNaN := fun _ => false
  isFinite := fun _ => true
  agree := fun a b => decide (a = b)
  text := toString

end Liveness.Numbers
