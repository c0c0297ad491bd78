/-! # Doubles as exact numbers

A double is read off its bits as a sign, a mantissa and a power of two. Everything
that writes doubles as decimals works on this exact form.
-/

namespace Liveness.Decimal

/-- The meaning of a double: `finite neg m q` stands for `±m · 2 ^ q`. -/
inductive Double where
  | nan
  | infinite (negative : Bool)
  | finite (negative : Bool) (mantissa : Nat) (exponent : Int)
  deriving DecidableEq, Repr

namespace Double

def mantissaBits : Nat := 52

/-- Split 64 bits into sign, exponent and mantissa. -/
def ofBits (bits : UInt64) : Double :=
  let word := bits.toNat
  let negative := word ≥ 1 <<< 63
  let stored := (word >>> mantissaBits) % (1 <<< 11)
  let fraction := word % (1 <<< mantissaBits)
  if stored = 2047 then
    if fraction = 0 then .infinite negative else .nan
  else if stored = 0 then
    .finite negative fraction (-1074)
  else
    .finite negative ((1 <<< mantissaBits) + fraction) (Int.ofNat stored - 1075)

def ofFloat (x : Float) : Double := ofBits x.toBits

/-- The sign bit of the double, which a zero has too and a NaN shows to no one. -/
def negative : Double → Bool
  | .nan => false
  | .infinite neg => neg
  | .finite neg _ _ => neg

end Double

end Liveness.Decimal
