import Liveness.Error
import Liveness.Weight.Basic
import Liveness.Weight.Magnitude

/-! # Tiered weights

A weight holds one magnitude on each of seven tiers, from 3 down to -3. Arithmetic
is tier by tier, and weights are compared on the highest tier on which they differ,
so no amount on a lower tier outweighs anything on a higher one.
-/

namespace Liveness

/-- The highest tier; the lowest is its negative. -/
def maxTier : Int := 3

def tierCount : Nat := 7

/-- One magnitude per tier, highest tier first. -/
structure Tiered (α : Type) where
  tiers : Vector α tierCount

namespace Tiered

variable {α : Type} [Magnitude α]

/-- Whether a weight has the given tier. -/
def isTier (tier : Int) : Bool := -maxTier ≤ tier && tier ≤ maxTier

/-- The weight that is `x` on one tier and zero on all others. -/
def onTier (x : α) (tier : Int) : Tiered α :=
  ⟨Vector.ofFn fun i => if tier = maxTier - i.val then x else 0⟩

/-- `onTier` for a tier that exists. -/
def onTier? (x : α) (tier : Int) : Option (Tiered α) :=
  if isTier tier then some (onTier x tier) else none

/-- A weight from unchecked input: the magnitude has to be finite and the tier to exist. -/
def checked (x : α) (tier : Int) : Except Error (Tiered α) :=
  if !Magnitude.isFinite x then .error (.nonFiniteWeight (Magnitude.text x))
  else if isTier tier then .ok (onTier x tier)
  else .error (.invalidTier tier)

/-- The magnitude on a tier, zero on tiers that do not exist. -/
def get (w : Tiered α) (tier : Int) : α :=
  if isTier tier then w.tiers.toList.getD (maxTier - tier).toNat 0 else 0

def zero : Tiered α := ⟨Vector.ofFn fun _ => 0⟩

def add (a b : Tiered α) : Tiered α := ⟨Vector.zipWith (· + ·) a.tiers b.tiers⟩

def sub (a b : Tiered α) : Tiered α := ⟨Vector.zipWith (· - ·) a.tiers b.tiers⟩

def scale (k : Int) (w : Tiered α) : Tiered α := ⟨w.tiers.map (Magnitude.scale k)⟩

/-- Lexicographic comparison of magnitudes. -/
def orderLists : List α → List α → Ordering
  | a :: as, b :: bs => (Magnitude.order a b).then (orderLists as bs)
  | _, _ => .eq

/-- Comparison on the highest tier on which two weights differ. -/
def order (a b : Tiered α) : Ordering := orderLists a.tiers.toList b.tiers.toList

def isFinite (w : Tiered α) : Bool := w.tiers.toList.all Magnitude.isFinite

def isZero (w : Tiered α) : Bool := w.tiers.toList.all Magnitude.isZero

/-- The text of the highest tier that is not finite. -/
def defect? (w : Tiered α) : Option String :=
  (w.tiers.toList.find? fun x => !Magnitude.isFinite x).map Magnitude.text

/-- Whether two weights agree on every tier. -/
def agree (a b : Tiered α) : Bool :=
  (a.tiers.toList.zip b.tiers.toList).all fun p => Magnitude.agree p.1 p.2

/-- A magnitude with its tier, which is left out for tier 0. -/
def tierText (x : α) (tier : Int) : String :=
  if tier = 0 then Magnitude.text x else Magnitude.text x ++ s!"@{tier}"

/-- The tiers that are not zero, joined by plus signs; `0` when there are none. -/
def text (w : Tiered α) : String :=
  let shown := w.tiers.toList.zipIdx.filter fun p => !Magnitude.isZero p.1
  if shown.isEmpty then "0"
  else "+".intercalate (shown.map fun p => tierText p.1 (maxTier - p.2))

instance : Weight (Tiered α) where
  zero := zero
  add := add
  sub := sub
  scale := scale
  order := order
  agree := agree
  defect? := defect?
  text := text

end Tiered

end Liveness
