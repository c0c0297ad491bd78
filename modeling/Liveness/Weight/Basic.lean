/-! # Weights

What the scheduler needs of the cost of an Alloc: sums, differences, multiples by whole
numbers and a total comparison. Nothing here assumes that the arithmetic is exact, so
the same code runs on doubles and on weights that obey the laws of an ordered group.
-/

namespace Liveness

/-- The arithmetic of costs. `order` ranks any two weights; `agree` allows for the
rounding of two different ways to sum the same weights; `defect?` is the text of the
first part that is not finite. -/
class Weight (W : Type) extends Zero W, Add W, Sub W where
  scale : Int → W → W
  order : W → W → Ordering
  agree : W → W → Bool
  defect? : W → Option String
  text : W → String

namespace Weight

variable {W : Type} [Weight W]

def neg (w : W) : W := scale (-1) w

def lt (a b : W) : Bool := order a b == .lt

/-- Smaller or of equal rank. -/
def le (a b : W) : Bool := order a b != .gt

def same (a b : W) : Bool := order a b == .eq

/-- The smaller weight, the first of two equal ones. -/
def min (a b : W) : W := if lt b a then b else a

/-- The larger weight, the second of two equal ones. -/
def max (a b : W) : W := if lt b a then a else b

/-- The sum from left to right, starting at zero. -/
def sum (ws : List W) : W := ws.foldl (· + ·) 0

/-- The largest weight, zero for no weights. -/
def maximum : List W → W
  | [] => 0
  | w :: ws => ws.foldl max w

end Weight

end Liveness
