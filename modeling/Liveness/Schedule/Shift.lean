import Liveness.Schedule.Span

/-! # Carrying out moves

A move exchanges two blocks of the schedule. Only the data that depends on the Ops of
the two blocks is brought up to date; the liveness is left for later.
-/

namespace Liveness.Schedule

variable {W : Type} [Weight W]

/-- Mark two Ops as touched. -/
def touch (s : Schedule W) (a b : Nat) : Schedule W :=
  { s with susceptible := (s.susceptible.setIfInBounds a true).setIfInBounds b true }

/-- Mark the constraints between an Op of the block `[a, b)` and Ops outside that come
before the block as inputs or after it as outputs. -/
def touchAround (a b : Nat) (s : Schedule W) (i : Nat) : Schedule W :=
  let x := s.opAt i
  let op := s.graph.op x
  let inputs := op.ins.filter fun y => s.placeOf y < a
  let outputs := op.outs.filter fun y => b ≤ s.placeOf y
  (inputs ++ outputs).foldl (fun s y => s.touch y x) s

/-- Mark the constraints that cross an edge of the block `[a, b)`. -/
def touchBlock (s : Schedule W) (a b : Nat) : Schedule W :=
  (List.range' a (b - a)).foldl (touchAround a b) s

/-- Bring the places of Allocs up to date. -/
def refreshAllocs (s : Schedule W) (rs : List Nat) : Schedule W :=
  { s with
    allocPlaces := rs.foldl
      (fun ps r => ps.setIfInBounds r (placesOf s.places (s.graph.alloc r).ops)) s.allocPlaces }

/-- Bring the places of the Ops before some Ops up to date. -/
def refreshInputs (s : Schedule W) (as : List Nat) : Schedule W :=
  { s with
    inPlaces := as.foldl
      (fun ps a => ps.setIfInBounds a (placesOf s.places (s.graph.op a).ins)) s.inPlaces }

/-- Bring the places of the Ops after some Ops up to date. -/
def refreshOutputs (s : Schedule W) (as : List Nat) : Schedule W :=
  { s with
    outPlaces := as.foldl
      (fun ps a => ps.setIfInBounds a (placesOf s.places (s.graph.op a).outs)) s.outPlaces }

/-- Compute the room ahead of the windows of size `n` that start from `low` up to `high`. -/
def refreshAhead (s : Schedule W) (n low high : Nat) : Schedule W :=
  { s with
    roomAhead := s.roomAhead.mapIdx fun i room =>
      if low ≤ i && i < high then s.roomAheadAt n i else room }

/-- Compute the room behind the windows of size `n` that start from `low` up to `high`. -/
def refreshBack (s : Schedule W) (n low high : Nat) : Schedule W :=
  { s with
    roomBack := s.roomBack.mapIdx fun i room =>
      if low ≤ i && i < high then s.roomBackAt n i else room }

/-- Exchange the blocks `[a, b)` and `[b, c)` of the schedule. -/
def exchangeBlocks (s : Schedule W) (a b c : Nat) : Schedule W :=
  let ops := Move.exchange s.ops a b c
  { s with
    ops := ops
    places := place ops a c s.places
    placeAllocs := Move.exchange s.placeAllocs a b c }

/-- Carry out a move. The windows whose room can have changed are those near the two
blocks, and those between a block and the Ops before or after it. -/
def apply (s : Schedule W) (m : Move) : Schedule W :=
  let n := m.size
  let (a, b, c) := m.bounds
  let allocs := s.allocsBetween a c
  let s := (s.touchBlock a b).touchBlock b c
  let s := (s.exchangeBlocks a b c).refreshAllocs allocs
  let consumers := s.consumersBetween a c
  let producers := s.producersBetween a c
  let s := (s.refreshInputs consumers).refreshOutputs producers
  let count := s.windowCount n
  let aheadFrom := (producers.map s.placeOf).foldl min a - (n + 1)
  let backTo := min ((consumers.map fun x => s.placeOf x + 1).foldl max c) count
  (s.refreshAhead n aheadFrom (min c count)).refreshBack n (a - (n + 1)) backTo

end Liveness.Schedule
