import Liveness.Schedule.State

/-! # Windows

A window is a block of places that moves as a whole. Moving it breaks a link when the
link crosses an edge of one of the two blocks that change places. How far windows can
move is carried over when they grow by one.
-/

namespace Liveness.Schedule

variable {W : Type}

/-- The Allocs needed at the places from `start` up to `stop`. -/
def allocsBetween (s : Schedule W) (start stop : Nat) : List Nat :=
  Ascending.ofList ((List.range' start (stop - start)).flatMap s.allocsAt)

/-- The Ops before those at the places from `start` up to `stop`. -/
def producersBetween (s : Schedule W) (start stop : Nat) : List Nat :=
  Ascending.ofList ((List.range' start (stop - start)).flatMap fun i =>
    (s.graph.op (s.opAt i)).ins)

/-- The Ops after those at the places from `start` up to `stop`. -/
def consumersBetween (s : Schedule W) (start stop : Nat) : List Nat :=
  Ascending.ofList ((List.range' start (stop - start)).flatMap fun i =>
    (s.graph.op (s.opAt i)).outs)

/-- Whether no link crosses an edge of the blocks that change places when the window of
size `n` at `start` moves ahead to `target`. -/
def keepsLinks (s : Schedule W) (start target n : Nat) : Bool :=
  let op (i : Nat) := s.graph.op (s.opAt i)
  !((op start).hasBwdLink || (op (start + n - 1)).hasFwdLink ||
    (op (start + n)).hasBwdLink || (op (target + n - 1)).hasFwdLink)

/-- `keepsLinks` for a move in either direction. -/
def keepsLinksEitherWay (s : Schedule W) (start target n : Nat) : Bool :=
  if start < target then s.keepsLinks start target n
  else s.keepsLinks target (target + n) (start - target)

/-- The room behind the window of size `n` at `i`, from that of its first `n - 1` places
and the Ops before its last one. -/
def grownBack (s : Schedule W) (n i room : Nat) : Nat :=
  let before := s.placesBefore (s.opAt (i + n - 1))
  match (before.filter fun p => p < i).getLast? with
  | some p => min room (i - 1 - p)
  | none => room

/-- The room ahead of the window of size `n` at `i`, from that of its last `n - 1` places
and the Ops after its first one. The last window has none. -/
def grownAhead (s : Schedule W) (n i : Nat) : Nat :=
  if i + 1 = s.windowCount n then 0
  else
    let room := s.ahead (i + 1)
    match (s.placesAfter (s.opAt i)).find? fun c => i + n ≤ c with
    | some c => min room (c - (i + n))
    | none => room

/-- Carry the rooms over from windows of one size to windows one larger. -/
def growRoom (s : Schedule W) (n : Nat) : Schedule W :=
  let count := s.windowCount n
  { s with
    roomBack := s.roomBack.pop.mapIdx fun i room => if i < count then s.grownBack n i room else room
    roomAhead := s.roomAhead.pop.mapIdx fun i room => if i < count then s.grownAhead n i else room }

def resize (s : Schedule W) (old new : Nat) : Schedule W :=
  if new = old + 1 then s.growRoom new else s.setRoom new

end Liveness.Schedule
