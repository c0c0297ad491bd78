import Liveness.Decimal.Double

/-! # Shortest decimals

The shortest decimal that reads back to `m · 2 ^ q` is found on grids of powers of
ten, from coarse to fine. On each grid only the two neighbours of the value can be
in its rounding interval, and of two hits the nearer one is taken.
-/

namespace Liveness.Decimal

/-- The decimal `digits · 10 ^ exponent`. -/
structure Scientific where
  digits : Nat
  exponent : Int
  deriving DecidableEq, Repr

/-- Which neighbour stands for a value exactly between two grid points. -/
inductive TieRule where
  | upward
  | toEven
  deriving DecidableEq, Repr

/-- The reals that round to a double, as numerators over a common denominator.
The ends belong to the interval when `closed` holds. -/
structure Interval where
  value : Nat
  below : Nat
  above : Nat
  denominator : Nat
  closed : Bool

namespace Interval

/-- The interval around `m · 2 ^ q`. The gap below a power of two is half as wide,
except at the bottom of the exponent range. -/
def around (m : Nat) (q : Int) : Interval :=
  let lowerGap := if m = 1 <<< Double.mantissaBits ∧ q ≠ -1074 then 1 else 2
  let up := 1 <<< (q - 2).toNat
  { value := 4 * m * up
    below := (4 * m - lowerGap) * up
    above := (4 * m + 2) * up
    denominator := 1 <<< (2 - q).toNat
    closed := m % 2 = 0 }

/-- The interval divided by `10 ^ p`, so that grid points become whole numbers. -/
def scaled (i : Interval) (p : Int) : Interval :=
  let up := Nat.pow 10 (-p).toNat
  { value := i.value * up
    below := i.below * up
    above := i.above * up
    denominator := i.denominator * Nat.pow 10 p.toNat
    closed := i.closed }

/-- Whether a whole number lies in the interval. -/
def contains (i : Interval) (c : Nat) : Bool :=
  let x := c * i.denominator
  if i.closed then i.below ≤ x && x ≤ i.above else i.below < x && x < i.above

/-- The grid point nearest to the value among its neighbours in the interval. -/
def nearest? (tie : TieRule) (i : Interval) : Option Nat :=
  let low := i.value / i.denominator
  let high := low + 1
  match i.contains low && low ≠ 0, i.contains high with
  | false, false => none
  | true, false => some low
  | false, true => some high
  | true, true =>
    let down := i.value - low * i.denominator
    let up := high * i.denominator - i.value
    if down < up then some low
    else if up < down then some high
    else match tie with
      | .upward => some high
      | .toEven => some (if low % 2 = 0 then low else high)

end Interval

/-- Try the grids `10 ^ p`, `10 ^ (p - 1)`, … until one has a hit. -/
def firstHit (tie : TieRule) (i : Interval) : Nat → Int → Option Scientific
  | 0, _ => none
  | fuel + 1, p =>
    match (i.scaled p).nearest? tie with
    | some c => some ⟨c, p⟩
    | none => firstHit tie i fuel (p - 1)

def digitCount (n : Nat) : Nat := (Nat.toDigits 10 n).length

/-- A power of ten that is not below `m · 2 ^ q`. -/
def coarsest (m : Nat) (q : Int) : Int :=
  if 0 ≤ q then digitCount (m <<< q.toNat)
  else
    let whole := m >>> (-q).toNat
    if whole ≠ 0 then digitCount whole
    else 1 - (digitCount ((1 <<< (-q).toNat) / m) : Int)

/-- The shortest decimal that reads back to `m · 2 ^ q`. Seventeen digits always
suffice, so the search never runs out of grids; zero is written with one digit. -/
def shortest (tie : TieRule) (m : Nat) (q : Int) : Scientific :=
  if m = 0 then ⟨0, 0⟩
  else (firstHit tie (Interval.around m q) 20 (coarsest m q)).getD ⟨0, 0⟩

end Liveness.Decimal
