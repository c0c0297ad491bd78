import Liveness.Decimal.Signed

/-! # Reading decimals

A decimal is an optional sign, digits with an optional point, and an optional
exponent; or one of the words for infinity and not-a-number in either case of
letters. It is read to the double nearest to its exact value.
-/

namespace Liveness.Decimal

def digitValue (c : Char) : Nat := c.toNat - '0'.toNat

def digitsValue (ds : List Char) : Nat := ds.foldl (fun n c => 10 * n + digitValue c) 0

def splitDigits (cs : List Char) : List Char × List Char :=
  (cs.takeWhile Char.isDigit, cs.dropWhile Char.isDigit)

/-- The double nearest to `m · 10 ^ e`. Values beyond the range are cut off before
their powers of ten are formed. -/
def nearest (m : Nat) (e : Int) : Float :=
  let size : Int := (Nat.toDigits 10 m).length + e
  if m = 0 then 0.0
  else if 400 < size then 1.0 / 0.0
  else if size < -400 then 0.0
  else if 0 ≤ e then Float.ofScientific m false e.toNat
  else Float.ofScientific m true (-e).toNat

def splitSign : List Char → Bool × List Char
  | '-' :: cs => (true, cs)
  | '+' :: cs => (false, cs)
  | cs => (false, cs)

/-- Read what stands after the digits: nothing, or an exponent that ends the text. -/
def readExponent? : List Char → Option Int
  | [] => some 0
  | c :: cs =>
    if c = 'e' || c = 'E' then
      let (negative, rest) := splitSign cs
      let (ds, rest) := splitDigits rest
      if ds.isEmpty || !rest.isEmpty then none
      else some (if negative then -(digitsValue ds : Int) else digitsValue ds)
    else none

def readUnsigned? (cs : List Char) : Option Float :=
  let (whole, rest) := splitDigits cs
  let (fraction, rest) := match rest with
    | '.' :: rest => splitDigits rest
    | rest => ([], rest)
  if whole.isEmpty && fraction.isEmpty then none
  else (readExponent? rest).map fun e =>
    nearest (digitsValue (whole ++ fraction)) (e - fraction.length)

/-- Read a decimal or one of the words `inf`, `infinity` and `nan`, and keep its sign. -/
def readSigned? (text : String) : Option Signed :=
  let (negative, cs) := splitSign text.toList
  let magnitude :=
    match String.ofList (cs.map Char.toLower) with
    | "inf" => some (1.0 / 0.0)
    | "infinity" => some (1.0 / 0.0)
    | "nan" => some (0.0 / 0.0)
    | _ => readUnsigned? cs
  magnitude.map fun x => ⟨negative, x⟩

/-- Read a decimal or one of the words. -/
def read? (text : String) : Option Float := (readSigned? text).map Signed.toFloat

end Liveness.Decimal
