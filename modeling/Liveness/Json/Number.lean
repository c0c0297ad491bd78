import Liveness.Decimal.Reader
import Liveness.Json.Value

/-! # Numbers in JSON

A numeral without point and exponent that fits its type is an integer. Any other number
becomes a double by a single multiplication or division: as many leading digits as fit
64 bits are kept, and the rest only count towards the power of ten.
-/

namespace Liveness.Json.Numeral

/-- The number of values of a 64-bit word. -/
def word : Nat := 1 <<< 64

/-- The natural number below `2 ^ 64` that the numeral spells. -/
def toNat? (n : Numeral) : Option Nat :=
  let value := Decimal.digitsValue n.whole
  if n.negative || n.fraction.isSome || n.exponent.isSome || word ≤ value then none
  else some value

/-- The integer of 64 bits with sign that the numeral spells. A zero with a minus sign
is no integer. -/
def toInt? (n : Numeral) : Option Int :=
  let value := Decimal.digitsValue n.whole
  if n.fraction.isSome || n.exponent.isSome then none
  else if n.negative then
    if value = 0 || word / 2 < value then none else some (-(value : Int))
  else if word / 2 ≤ value then none
  else some value

/-- Append digits as long as the result fits 64 bits. The rest is returned. -/
def absorb (kept : Nat) : List Char → Nat × List Char
  | [] => (kept, [])
  | d :: ds =>
    let next := 10 * kept + Decimal.digitValue d
    if word ≤ next then (kept, d :: ds) else absorb next ds

/-- The kept digits, and the power of ten by which they are to be multiplied. -/
def significand (n : Numeral) : Nat × Int :=
  let (kept, dropped) := absorb 0 n.whole
  let fraction := n.fraction.getD []
  let (kept, rest) := absorb kept fraction
  (kept, (dropped.length : Int) - (fraction.length - rest.length : Nat))

/-- The largest power of ten that a double can hold. -/
def maxPower : Nat := 308

def power (e : Nat) : Float := Float.ofScientific 1 false e

/-- `x · 10 ^ e`, unless that is infinite. Large negative powers are divided off in
steps of the largest power. -/
def applyPower : Nat → Float → Int → Option Float
  | 0, _, _ => none
  | steps + 1, x, e =>
    if e.natAbs ≤ maxPower then
      if 0 ≤ e then
        let y := x * power e.natAbs
        if y.isInf then none else some y
      else some (x / power e.natAbs)
    else if x == 0.0 then some x
    else if 0 ≤ e then none
    else applyPower steps (x / power maxPower) (e + maxPower)

/-- The largest exponent that is read at all. -/
def exponentLimit : Nat := 1 <<< 31

/-- The double of a numeral, unless its size overflows. -/
def toFloat? (n : Numeral) : Option Float :=
  let (kept, e) := n.significand
  let magnitude :=
    match n.exponent with
    | none => applyPower 10 (Float.ofNat kept) e
    | some (negative, ds) =>
      let shift := Decimal.digitsValue ds
      if exponentLimit ≤ shift then
        if kept ≠ 0 && !negative then none else some 0.0
      else applyPower 10 (Float.ofNat kept) (if negative then e - shift else e + shift)
  magnitude.map fun x => if n.negative then -x else x

end Liveness.Json.Numeral
