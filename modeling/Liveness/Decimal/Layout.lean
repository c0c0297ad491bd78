import Liveness.Decimal.Shortest

/-! # Layouts of decimal text

A layout says where the point of a shortest decimal goes, when an exponent is
written, and how the values that are not numbers are spelled. `plain` is the layout
of messages and tables, `data` that of stored graphs.
-/

namespace Liveness.Decimal

/-- The decisions that turn a double into text. A decimal `d.ddd · 10 ^ e` is written
without exponent exactly when `positional e` holds. -/
structure Layout where
  tie : TieRule
  positional : Int → Bool
  keepsPointZero : Bool
  exponentPlus : Bool
  nan : String
  infinity : String

/-- Always positional, a whole number without a point, half-way digits upward. -/
def plain : Layout where
  tie := .upward
  positional := fun _ => true
  keepsPointZero := false
  exponentPlus := false
  nan := "NaN"
  infinity := "inf"

/-- Positional for exponents from -5 to 15, always with a point there; otherwise with
a signed exponent; half-way digits to the even neighbour. -/
def data : Layout where
  tie := .toEven
  positional := fun e => -5 ≤ e && e < 16
  keepsPointZero := true
  exponentPlus := true
  nan := "null"
  infinity := "null"

namespace Layout

/-- The digits `ds` of `0.ds · 10 ^ point`, written positionally. -/
def positionalText (l : Layout) (ds : List Char) (point : Int) : List Char :=
  if point ≤ 0 then
    '0' :: '.' :: List.replicate (-point).toNat '0' ++ ds
  else if ds.length ≤ point.toNat then
    ds ++ List.replicate (point.toNat - ds.length) '0' ++
      (if l.keepsPointZero then ['.', '0'] else [])
  else
    ds.take point.toNat ++ '.' :: ds.drop point.toNat

/-- The digits `ds` of `d.ddd · 10 ^ e`, written with their exponent. -/
def scientificText (l : Layout) (ds : List Char) (e : Int) : List Char :=
  let fraction := if ds.length ≤ 1 then [] else '.' :: ds.drop 1
  let sign := if e < 0 then ['-'] else if l.exponentPlus then ['+'] else []
  ds.take 1 ++ fraction ++ 'e' :: sign ++ Nat.toDigits 10 e.natAbs

/-- The text of a decimal without its sign. -/
def unsignedText (l : Layout) (d : Scientific) : List Char :=
  let ds := Nat.toDigits 10 d.digits
  let e : Int := d.exponent + ds.length - 1
  if l.positional e then
    if d.digits = 0 then l.positionalText ['0'] 1
    else l.positionalText ds (e + 1)
  else l.scientificText ds e

def text (l : Layout) (x : Float) : String :=
  match Double.ofFloat x with
  | .nan => l.nan
  | .infinite neg => (if neg then "-" else "") ++ l.infinity
  | .finite neg m q =>
    (if neg then "-" else "") ++ String.ofList (l.unsignedText (shortest l.tie m q))

end Layout

def plainText (x : Float) : String := plain.text x

end Liveness.Decimal
