import Liveness.Schedule.Span

/-! # The ripple search

All destinations of a window in one direction are priced in one sweep. Each step takes
the window past one more Op, so only the Allocs of that Op are priced anew; all others
either stay as they are or grow or shrink by their weight with every step.
-/

namespace Liveness

/-- What is known of an Alloc during a sweep: the step at which it was priced last, its
price then, and what every further step adds to it. -/
structure Ripple (W : Type) where
  step : Nat
  price : W
  growth : W
  deriving DecidableEq, Repr

/-- The ripples of a sweep by Alloc, and the Allocs that have one. Between sweeps there
are none. -/
structure Scratch (W : Type) where
  ripples : Array (Option (Ripple W))
  touched : List Nat
  deriving DecidableEq, Repr

namespace Scratch

variable {W : Type}

/-- No ripples for any of the given number of Allocs. -/
def clean (n : Nat) : Scratch W := ⟨Array.replicate n none, []⟩

def find? (s : Scratch W) (r : Nat) : Option (Ripple W) := s.ripples.getD r none

def enter (s : Scratch W) (r : Nat) (ripple : Ripple W) : Scratch W :=
  ⟨s.ripples.setIfInBounds r (some ripple),
    if (s.find? r).isNone then r :: s.touched else s.touched⟩

def clear (s : Scratch W) : Scratch W :=
  ⟨s.touched.foldl (fun ripples r => ripples.setIfInBounds r none) s.ripples, []⟩

end Scratch

/-- Where a sweep stands: the ripples, the price of the window at this step, and what
the next step adds to it. -/
structure Wave (W : Type) where
  scratch : Scratch W
  price : W
  growth : W

namespace Schedule

variable {W : Type} [Weight W]

/-- Start the ripple of an Alloc of the window. It grows if all of its other Ops are
behind the sweep, and shrinks if they are all ahead. -/
def enterWindow (s : Schedule W) (start n : Nat) (sign : Int) (w : Wave W) (r : Nat) : Wave W :=
  let places := s.placesOfAlloc r
  let hasBefore := places.any fun p => p < start
  let hasAfter := places.any fun p => start + n ≤ p
  let side : Int := (if hasBefore then 1 else 0) - (if hasAfter then 1 else 0)
  let growth := Weight.scale (sign * side) (s.graph.alloc r).weight
  ⟨w.scratch.enter r ⟨0, 0, growth⟩, w.price, w.growth + growth⟩

/-- Take what the ripple of an Alloc has come to out of the price. -/
def settleRipple (step : Nat) (w : Wave W) (r : Nat) : Wave W :=
  match w.scratch.find? r with
  | none => w
  | some ripple =>
    let spent := Weight.scale ((step : Int) - ripple.step - 1) ripple.growth
    ⟨w.scratch, w.price - ripple.price - spent, w.growth - ripple.growth⟩

/-- Price an Alloc of the Op at `place` that is jumped over, and start a new ripple for
it. It goes on growing if the Op is its outermost one and an Op of the window needs it. -/
def enterJumped (s : Schedule W) (start n target place : Nat) (direction : Direction)
    (step : Nat) (w : Wave W) (r : Nat) : Wave W :=
  let price := s.shiftCost start target n r
  let places := s.placesOfAlloc r
  let outermost := match direction with
    | .backward => places.head?
    | .forward => places.getLast?
  let inWindow := match places.find? fun p => start ≤ p with
    | some p => p - start < n
    | none => false
  let growth := if inWindow && outermost == some place then (s.graph.alloc r).weight else 0
  ⟨w.scratch.enter r ⟨step, price, growth⟩, w.price + price, w.growth + growth⟩

/-- Where the window starts after some steps. -/
def targetOf (start : Nat) (direction : Direction) (step : Nat) : Nat :=
  match direction with
  | .backward => start - step
  | .forward => start + step

/-- The place of the Op that the window jumps over at a step. -/
def jumpedPlace (start n : Nat) (direction : Direction) (step : Nat) : Nat :=
  match direction with
  | .backward => start - step
  | .forward => start + step + n - 1

/-- Price one further step. -/
def advance (s : Schedule W) (start n : Nat) (direction : Direction) (w : Wave W)
    (step : Nat) : Wave W :=
  let place := jumpedPlace start n direction step
  let jumped := s.allocsAt place
  let w := jumped.foldl (settleRipple step) w
  let w : Wave W := ⟨w.scratch, w.price + w.growth, w.growth⟩
  let target := targetOf start direction step
  jumped.foldl (s.enterJumped start n target place direction step) w

/-- Price steps one after the other. -/
def advanceAll (s : Schedule W) (start n : Nat) (direction : Direction) (w : Wave W) :
    List Nat → Wave W × List W
  | [] => (w, [])
  | step :: steps =>
    let w := s.advance start n direction w step
    let (last, prices) := s.advanceAll start n direction w steps
    (last, w.price :: prices)

/-- The prices of moving the window of size `n` at `start` by 1, 2, … places. -/
def sweep (s : Schedule W) (scratch : Scratch W) (start n : Nat) (direction : Direction)
    (steps : Nat) : List W × Scratch W :=
  let window := s.allocsBetween start (start + n)
  let w := window.foldl (s.enterWindow start n direction.sign) ⟨scratch, 0, 0⟩
  let (w, prices) := s.advanceAll start n direction w (List.range' 1 steps)
  (prices, w.scratch.clear)

/-- The better of the best shift so far and one of the given distance and price. -/
def better (s : Schedule W) (start n : Nat) (best : Shift W) (candidate : Int × W) : Shift W :=
  let target := ((start : Int) + candidate.1).toNat
  if Weight.lt candidate.2 best.cost && s.keepsLinksEitherWay start target n then
    ⟨candidate.1, candidate.2⟩
  else best

/-- The shifts backward with their prices, the farthest first. -/
def backwardShifts (prices : List W) : List (Int × W) :=
  (prices.zipIdx.map fun p => (-(p.2 + 1 : Int), p.1)).reverse

/-- The shifts forward with their prices, the nearest first. -/
def forwardShifts (prices : List W) : List (Int × W) :=
  prices.zipIdx.map fun p => ((p.2 + 1 : Int), p.1)

/-- The best shift of the window of size `n` at `start`. -/
def bestRipple (s : Schedule W) (scratch : Scratch W) (start n : Nat) : Shift W × Scratch W :=
  let back := s.back start
  let ahead := s.ahead start
  let (backPrices, scratch) :=
    if n ≤ back then s.sweep scratch start n .backward back else ([], scratch)
  let (aheadPrices, scratch) :=
    if n ≤ ahead then s.sweep scratch start n .forward ahead else ([], scratch)
  let best := (backwardShifts backPrices).foldl (s.better start n) Shift.stay
  ((forwardShifts aheadPrices).foldl (s.better start n) best, scratch)

end Schedule

end Liveness
