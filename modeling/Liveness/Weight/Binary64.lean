import Liveness.Decimal.Layout
import Liveness.Weight.Tiered

/-! # Weights of doubles

Doubles as magnitudes. Sums are rounded, so two sums of the same weights are taken to
agree when they differ by no more than a small part of their size.
-/

namespace Liveness

namespace Binary64

/-- The comparison of doubles: no answer when either is not a number. -/
def compare? (a b : Float) : Option Ordering :=
  if a < b then some .lt
  else if a == b then some .eq
  else if b < a then some .gt
  else none

/-- The larger of two doubles, of which one that is not a number is left out. -/
def maxNumber (a b : Float) : Float :=
  if a.isNaN then b
  else if b.isNaN then a
  else if a < b then b
  else a

/-- The distance of two doubles relative to the size of the second. -/
def relativeError (a b : Float) : Float := (a - b).abs / (1.0 + b.abs)

/-- The relative error up to which two sums are taken to agree. -/
def tolerance : Float := 1e-5

end Binary64

instance : Magnitude Float where
  zero := 0.0
  scale := fun k x => x * Float.ofInt k
  compare? := Binary64.compare?
  isNaN := Float.isNaN
  isFinite := Float.isFinite
  agree := fun a b => !(Binary64.tolerance < Binary64.relativeError a b)
  text := Decimal.plainText

namespace Tiered

/-- The weight that is `x` on tier 0. -/
def ofFloat (x : Float) : Tiered Float := onTier x 0

/-- The product with a double, tier by tier. -/
def times (w : Tiered Float) (k : Float) : Tiered Float := ⟨w.tiers.map (· * k)⟩

def abs (w : Tiered Float) : Tiered Float := ⟨w.tiers.map Float.abs⟩

/-- The sum of the absolute values of all tiers. -/
def l1 (w : Tiered Float) : Float := w.tiers.toList.foldl (fun s x => s + x.abs) 0.0

/-- The largest relative error over all tiers, which leaves out tiers without one. -/
def maxRelativeError (a b : Tiered Float) : Float :=
  (a.tiers.toList.zip b.tiers.toList).foldl
    (fun e p => Binary64.maxNumber e (Binary64.relativeError p.1 p.2)) 0.0

end Tiered

end Liveness
