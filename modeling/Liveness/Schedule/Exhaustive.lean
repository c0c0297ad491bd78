import Liveness.Schedule.Span

/-! # The simple search

Every legal destination of a window is tried on a copy of the schedule, and the total
liveness is summed up again each time.
-/

namespace Liveness.Schedule

variable {W : Type} [Weight W]

/-- The best destination so far, and the places to try the next one on. -/
structure Trial (W : Type) where
  best : Shift W
  places : Array Nat

/-- Try one destination: exchange the blocks, sum up, and put the blocks back. -/
def tryTarget (s : Schedule W) (start n : Nat) (t : Trial W) (target : Nat) : Trial W :=
  if target = start then t
  else
    let (a, b, c) := if start < target then (start, start + n, target + n)
      else (target, start, start + n)
    let moved := place (Move.exchange s.ops a b c) a c t.places
    let total := s.graph.totalLiveness fun op => moved.getD op 0
    let restored := place s.ops a c moved
    if Weight.lt total t.best.cost && s.keepsLinksEitherWay start target n then
      ⟨⟨(target : Int) - start, total⟩, restored⟩
    else ⟨t.best, restored⟩

/-- The destinations of a window: from as far back to as far ahead as it can go. A move
by less than its size is left to the window that it jumps over. -/
def targets (start n back ahead : Nat) : List Nat :=
  let low := if back < n then start else start - back
  let high := if ahead < n then start else start + ahead + 1
  List.range' low (high - low)

/-- The best shift of the window of size `n` at `start`. Fails if the recorded room of
the window is not what it should be. -/
def bestSimple (s : Schedule W) (start n : Nat) : Except Error (Shift W) :=
  let back := s.roomBackAt n start
  let ahead := s.roomAheadAt n start
  if back ≠ s.back start || ahead ≠ s.ahead start then
    .error (.inconsistent (.staleRoom start n (s.back start) back (s.ahead start) ahead))
  else
    let current := s.graph.totalLiveness s.placeOf
    let found := (targets start n back ahead).foldl (s.tryTarget start n)
      ⟨⟨0, current⟩, s.places⟩
    .ok ⟨found.best.distance, found.best.cost - current⟩

end Liveness.Schedule
