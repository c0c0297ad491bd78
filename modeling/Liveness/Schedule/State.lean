import Liveness.Event
import Liveness.Graph.Schedulable

/-! # Scheduled graphs

A schedule of a graph with everything that makes moves cheap to price and to carry out:
where each Op is, where the Ops around it and the Ops of each Alloc are, how much is
live at each place, and how far each window of the current size can move.
-/

namespace Liveness

/-- What the improvement phase did. -/
structure Stats (W : Type) where
  rounds : Nat
  changes : Nat
  resets : Nat
  initial : W
  final : W
  deriving DecidableEq, Repr

/-- A graph and a schedule of its Ops. `ops` lists the Ops by place and `places` the
place of each Op; lists of places are ascending. -/
structure Schedule (W : Type) where
  graph : Graph W
  ops : Array Nat
  places : Array Nat
  allocPlaces : Array (List Nat)
  placeAllocs : Array (List Nat)
  inPlaces : Array (List Nat)
  outPlaces : Array (List Nat)
  liveness : Array W
  roomAhead : Array Nat
  roomBack : Array Nat
  susceptible : Array Bool
  ending : Ending
  stats : Stats W
  deriving DecidableEq, Repr

/-- The counters before anything was done. -/
def Stats.zero {W : Type} [Zero W] : Stats W := ⟨0, 0, 0, 0, 0⟩

namespace Schedule

variable {W : Type}

def opCount (s : Schedule W) : Nat := s.graph.opCount

def allocCount (s : Schedule W) : Nat := s.graph.allocCount

def opAt (s : Schedule W) (i : Nat) : Nat := s.ops.getD i 0

def placeOf (s : Schedule W) (a : Nat) : Nat := s.places.getD a 0

def placesOfAlloc (s : Schedule W) (r : Nat) : List Nat := s.allocPlaces.getD r []

def allocsAt (s : Schedule W) (i : Nat) : List Nat := s.placeAllocs.getD i []

/-- The places of the Ops before an Op. -/
def placesBefore (s : Schedule W) (a : Nat) : List Nat := s.inPlaces.getD a []

/-- The places of the Ops after an Op. -/
def placesAfter (s : Schedule W) (a : Nat) : List Nat := s.outPlaces.getD a []

def windowCount (s : Schedule W) (n : Nat) : Nat := s.opCount + 1 - n

/-- Record the places from `a` up to `c` for the Ops at them. -/
def place (ops : Array Nat) (a c : Nat) (places : Array Nat) : Array Nat :=
  (List.range' a (c - a)).foldl (fun places i => places.setIfInBounds (ops.getD i 0) i) places

/-- The ascending places of Ops. -/
def placesOf (places : Array Nat) (as : List Nat) : List Nat :=
  Ascending.sort (as.map fun a => places.getD a 0)

/-- Add the weight of an Alloc where it becomes live, and take it off after its end. -/
def addSpan [Weight W] (weight : W) (deltas : Array W) (places : List Nat) : Array W :=
  match places.head?, places.getLast? with
  | some first, some last =>
    (deltas.modify first (· + weight)).modify (last + 1) (· - weight)
  | _, _ => deltas

/-- The sums of the leading parts of a list. -/
def runningSums [Weight W] (sum : W) : List W → List W
  | [] => []
  | d :: ds => (sum + d) :: runningSums (sum + d) ds

/-- What is live at each place, from the places of the Allocs. -/
def livenessOf [Weight W] (s : Schedule W) : Array W :=
  let deltas := s.graph.allocs.toList.zipIdx.foldl
    (fun deltas p => addSpan p.1.weight deltas (s.placesOfAlloc p.2))
    (Array.replicate (s.opCount + 1) 0)
  (runningSums 0 (deltas.toList.take s.opCount)).toArray

def refreshLiveness [Weight W] (s : Schedule W) : Schedule W :=
  { s with liveness := s.livenessOf }

def sumLiveness [Weight W] (s : Schedule W) : W := Weight.sum s.liveness.toList

def maxLiveness [Weight W] (s : Schedule W) : W := Weight.maximum s.liveness.toList

/-- The first place from `start + n` on of an Op after the window of size `n` at `start`,
or the number of Ops if there is none. -/
def firstConsumer (s : Schedule W) (start n : Nat) : Nat :=
  let window := (List.range' start n).map s.opAt
  let found := window.filterMap fun a => (s.placesAfter a).find? fun i => start + n ≤ i
  found.min?.getD s.opCount

/-- The last place before `start` of an Op before the window of size `n` at `start`. -/
def lastProducer? (s : Schedule W) (start n : Nat) : Option Nat :=
  let window := (List.range' start n).map s.opAt
  let found := window.filterMap fun a =>
    ((s.placesBefore a).filter fun i => i < start).getLast?
  found.max?

/-- How far the window of size `n` at `start` can go back. -/
def roomBackAt (s : Schedule W) (n start : Nat) : Nat :=
  match s.lastProducer? start n with
  | some p => start - p - 1
  | none => start

/-- How far the window of size `n` at `start` can go ahead. -/
def roomAheadAt (s : Schedule W) (n start : Nat) : Nat := s.firstConsumer start n - start - n

/-- Compute how far each window of size `n` can move. -/
def setRoom (s : Schedule W) (n : Nat) : Schedule W :=
  let starts := List.range (s.windowCount n)
  { s with
    roomBack := (starts.map (s.roomBackAt n)).toArray
    roomAhead := (starts.map (s.roomAheadAt n)).toArray }

def ahead (s : Schedule W) (start : Nat) : Nat := s.roomAhead.getD start 0

def back (s : Schedule W) (start : Nat) : Nat := s.roomBack.getD start 0

/-- A graph with a given schedule, and windows of size one. -/
def ofOrder [Weight W] (g : Graph W) (order : List Nat) : Schedule W :=
  let places := place order.toArray 0 order.length (Array.replicate g.opCount 0)
  let s : Schedule W :=
    { graph := g
      ops := order.toArray
      places := places
      allocPlaces := g.allocs.map fun alloc => placesOf places alloc.ops
      placeAllocs := (order.map fun a => (g.op a).allocs).toArray
      inPlaces := g.ops.map fun op => placesOf places op.ins
      outPlaces := g.ops.map fun op => placesOf places op.outs
      liveness := #[]
      roomAhead := #[]
      roomBack := #[]
      susceptible := Array.replicate g.opCount true
      ending := .converged
      stats := Stats.zero }
  s.refreshLiveness.setRoom 1

/-- Mark an Op at its place; fail if another Op was marked there. -/
def mark (s : Schedule W) (marks : Array (Option Nat)) (a : Nat) :
    Except Error (Array (Option Nat)) := do
  s.graph.checkOp a
  match marks.getD (s.placeOf a) none with
  | some _ => throw (.duplicateOp a)
  | none => return marks.setIfInBounds (s.placeOf a) (some a)

/-- The given Ops in the order of the schedule. -/
def restrict (s : Schedule W) (as : List Nat) : Except Error (List Nat) := do
  let marks ← as.foldlM s.mark (Array.replicate s.opCount none)
  return marks.toList.filterMap id

/-- Fail unless each Op is recorded at the place that holds it. -/
def checkPlaces (s : Schedule W) : Except Error Unit :=
  s.ops.toList.zipIdx.forM fun p =>
    if s.placeOf p.1 = p.2 then .ok ()
    else .error (.inconsistent (.misplaced p.2 p.1 (s.placeOf p.1)))

/-- Fail unless an Op before `a` is recorded as such and scheduled earlier. -/
def checkInput (s : Schedule W) (a i : Nat) : Except Error Unit :=
  if !(s.placesBefore a).contains (s.placeOf i) then .error (.inconsistent (.inputMissing a i))
  else if s.placeOf a ≤ s.placeOf i then
    .error (.inconsistent (.inputLate a (s.placeOf a) i (s.placeOf i)))
  else .ok ()

/-- Fail unless an Op after `a` is recorded as such. -/
def checkOutput (s : Schedule W) (a o : Nat) : Except Error Unit :=
  if (s.placesAfter a).contains (s.placeOf o) then .ok ()
  else .error (.inconsistent (.outputMissing a o))

/-- Fail unless the Op linked after `a` is at the next place. -/
def checkLinked (s : Schedule W) (a : Nat) : Option Nat → Except Error Unit
  | none => .ok ()
  | some b =>
    if s.placeOf b = s.placeOf a + 1 then .ok () else .error (.inconsistent (.linkBroken a b))

/-- Check the places, and then for each Op its constraints and its link. -/
def check (s : Schedule W) : Except Error Unit := do
  s.checkPlaces
  s.graph.ops.toList.forM fun op => do
    op.ins.forM (s.checkInput op.address)
    op.outs.forM (s.checkOutput op.address)
    s.checkLinked op.address op.fwdLink

end Schedule

end Liveness
