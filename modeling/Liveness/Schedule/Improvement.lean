import Liveness.Schedule.Exhaustive
import Liveness.Schedule.Shift
import Liveness.Schedule.Sweep
import Liveness.Schedule.Table
import Liveness.Settings

/-! # Improving schedules

A round visits the windows of one size in a given order and carries out the best move
of each that lowers the total liveness. After a round without a move the windows grow;
after such a round that follows moves they start again at size one. The phase ends when
no window is left that could move past a block of its own size, or when the budget is
spent. All failures keep the schedule as far as it had come.
-/

namespace Liveness

/-- A failure, and the schedule at which it came up. -/
structure Failure (W : Type) where
  error : Error
  schedule : Schedule W

/-- Where a round stands: the schedule, the scratch data of sweeps, the number of moves
and the sum of their costs in this round, and the sum of the costs of all moves. -/
structure Round (W : Type) where
  schedule : Schedule W
  scratch : Scratch W
  changes : Nat
  delta : W
  accumulated : W
  log : Log W

/-- Where the phase stands between rounds: what is carried over from the last round, the
size of the windows, and whether nothing moved since they had size one. -/
structure Phase (W : Type) where
  schedule : Schedule W
  scratch : Scratch W
  window : Nat
  quiet : Bool
  accumulated : W
  log : Log W

/-- The fixed surroundings of the phase: the settings, the order in which Ops are
visited, and whether the time limit is passed at the end of a round. -/
structure Plan (R : Type) where
  settings : SettingsOver R
  visits : List Nat
  timeUp : Nat → Bool

namespace Schedule

variable {W R : Type} [Weight W]

/-- The best shift of a window by the search of the settings. -/
def bestFound (s : Schedule W) (settings : SettingsOver R) (scratch : Scratch W) (start n : Nat) :
    Except Error (Shift W × Scratch W) :=
  match settings.search with
  | .ripple => .ok (s.bestRipple scratch start n)
  | .simple => (s.bestSimple start n).map fun best => (best, scratch)

/-- The wording of two searches that disagree. -/
def mismatchText (s : Schedule W) (settings : SettingsOver R) (found reference : Shift W) : String :=
  settings.search.name ++ " suggests " ++ found.text ++ ", Simple suggests " ++
    reference.text ++ "\n" ++ s.table

/-- The best shift of a window, compared with that of the simple search if the settings
say so. -/
def bestShift (s : Schedule W) (settings : SettingsOver R) (scratch : Scratch W) (start n : Nat) :
    Except Error (Shift W × Scratch W) := do
  let (found, scratch) ← s.bestFound settings scratch start n
  if settings.checked then
    let reference ← s.bestSimple start n
    if !found.agrees reference then
      throw (.costMismatch start n (s.mismatchText settings found reference))
  return (found, scratch)

/-- Whether the window of size `n` that starts at the Op `a` is to be looked at: it ends
inside the schedule, no link holds it at an edge, and, if the settings say so, one of
its Ops was touched before this round. -/
def isCandidate (s : Schedule W) (settings : SettingsOver R) (touched : Array Bool) (n a : Nat) :
    Bool :=
  let start := s.placeOf a
  if s.opCount < start + n then false
  else
    let last := s.opAt (start + n - 1)
    let window := (List.range' start n).map s.opAt
    !(s.graph.op a).hasBwdLink && !(s.graph.op last).hasFwdLink &&
      (!settings.onlySusceptible || window.any fun b => touched.getD b false)

end Schedule

namespace Round

variable {W R : Type} [Weight W]

/-- Attach the schedule to a failure. -/
def orFail {α : Type} (s : Schedule W) : Except Error α → Except (Failure W) α
  | .ok x => .ok x
  | .error e => .error ⟨e, s⟩

/-- Carry out a shift of a window, and check the schedule if the settings say so. -/
def shift (r : Round W) (settings : SettingsOver R) (start n : Nat) (best : Shift W) :
    Except (Failure W) (Round W) := do
  let move : Move := ⟨start, ((start : Int) + best.distance).toNat, n⟩
  let s := r.schedule.apply move
  if settings.checked then orFail s s.check
  return { r with
    schedule := s
    changes := r.changes + 1
    delta := r.delta + best.cost
    accumulated := r.accumulated + best.cost
    log := r.log ++ [.moved move best.cost] }

/-- Look at the window that starts at an Op, and move it if that lowers the liveness. -/
def visit (settings : SettingsOver R) (touched : Array Bool) (n : Nat) (r : Round W) (a : Nat) :
    Except (Failure W) (Round W) := do
  let s := r.schedule
  if !s.isCandidate settings touched n a then return r
  let start := s.placeOf a
  let (best, scratch) ← orFail s (s.bestShift settings r.scratch start n)
  let r := { r with scratch := scratch }
  if Weight.lt best.cost 0 then r.shift settings start n best else return r

end Round

namespace Phase

variable {W R : Type} [Weight W]

def withStats (s : Schedule W) (f : Stats W → Stats W) : Schedule W :=
  { s with stats := f s.stats }

/-- Visit all windows of the current size once. -/
def runRound (p : Phase W) (plan : Plan R) : Except (Failure W) (Round W) := do
  let s := withStats p.schedule fun stats => { stats with rounds := stats.rounds + 1 }
  let touched := s.susceptible
  let s := { s with susceptible := Array.replicate s.opCount false }
  let start : Round W := ⟨s, p.scratch, 0, 0, p.accumulated, []⟩
  plan.visits.foldlM (Round.visit plan.settings touched p.window) start

def touchAll (s : Schedule W) : Schedule W :=
  { s with susceptible := Array.replicate s.susceptible.size true }

/-- Choose the size of the windows of the next round. -/
def nextWindow (p : Phase W) (r : Round W) : Phase W :=
  let s := withStats r.schedule fun stats => { stats with changes := stats.changes + r.changes }
  let log := p.log ++ r.log
  if p.quiet && r.changes = 0 then
    ⟨touchAll s, r.scratch, p.window + 1, true, r.accumulated, log⟩
  else if r.changes = 0 then
    let s := withStats s fun stats => { stats with resets := stats.resets + 1 }
    ⟨touchAll s, r.scratch, 1, true, r.accumulated, log⟩
  else ⟨s, r.scratch, p.window, false, r.accumulated, log⟩

/-- Adapt the recorded rooms to the size of the windows, and tell of the round. -/
def settle (old : Nat) (r : Round W) (p : Phase W) : Phase W :=
  let event := Event.roundEnded p.schedule.stats.rounds r.changes r.delta old p.window
  let s := if old = p.window then p.schedule else p.schedule.resize old p.window
  { p with schedule := s, log := p.log ++ [event] }

/-- Whether nothing moved since the windows had size one, and no window has room for a
move past a block of its own size. -/
def isConverged (p : Phase W) : Bool :=
  p.quiet && (p.schedule.roomAhead.toList.zip p.schedule.roomBack.toList).all fun room =>
    room.1 ≤ p.window && room.2 ≤ p.window

/-- The limit that is passed after a round, that of moves before that of time. -/
def limitPassed? (plan : Plan R) (s : Schedule W) : Option Ending :=
  if plan.settings.budget.swapLimit ≤ (s.stats.changes : Int) then some .swapLimited
  else if plan.timeUp s.stats.rounds then some .timeLimited
  else none

/-- The schedule with the reason why the phase ended. -/
def finish (p : Phase W) (ending : Ending) : Phase W :=
  { p with schedule := { p.schedule with ending := ending } }

/-- Run rounds until the phase ends. A phase that uses up its rounds is out of time. -/
def run (plan : Plan R) : Nat → Phase W → Except (Failure W) (Phase W)
  | 0, p => .ok (p.finish .timeLimited)
  | rounds + 1, p => do
    let r ← p.runRound plan
    let next := (p.nextWindow r).settle p.window r
    if next.isConverged then return next.finish .converged
    else match limitPassed? plan next.schedule with
      | some ending => return next.finish ending
      | none => Phase.run plan rounds next

end Phase

namespace Schedule

variable {W R : Type} [Weight W]

/-- The number of rounds after which a phase is cut off. Between two moves the windows
start again at size one and grow to at most the number of Ops; and without rounding no
order of the Ops comes twice. -/
def roundLimit (n : Nat) : Nat :=
  (n + 3) * ((List.range' 1 n).foldl (· * ·) 1 + 1) + (1 <<< 64)

/-- How a phase starts. A spent budget ends it at once. -/
def beginPhase (s : Schedule W) : Phase W :=
  let sum := s.sumLiveness
  let s := { s with stats := ⟨0, 0, 0, sum, sum⟩, ending := .converged }
  let s := if s.roomAhead.size = s.windowCount 1 then s else s.setRoom 1
  let s := { s with susceptible := Array.replicate s.opCount true }
  ⟨s, Scratch.clean s.allocCount, 1, true, 0, []⟩

/-- The end of a phase that a spent budget does not let begin. -/
def endingOf [Priority R] (budget : BudgetOver R) : Ending :=
  if Priority.atLeast 0 budget.timeLimit then .timeLimited else .swapLimited

/-- Compute the liveness after the phase, and fail if it did not change by the sum of
the costs of all moves. -/
def closeBooks (initialMax : W) (p : Phase W) : Except (Failure W) (Schedule W × Log W) :=
  let s := p.schedule.refreshLiveness
  let final := s.sumLiveness
  let s := { s with stats := { s.stats with final := final } }
  let observed := final - s.stats.initial
  if Weight.agree observed p.accumulated then
    let balance : Balance W := ⟨s.stats.initial, final, initialMax, s.maxLiveness⟩
    .ok (s, p.log ++ [.finished s.ending s.stats.rounds s.stats.changes balance])
  else .error ⟨.drift (Weight.text p.accumulated) (Weight.text observed), s⟩

def improve [Priority R] (s : Schedule W) (plan : Plan R) : Except (Failure W) (Schedule W × Log W) := do
  let initialMax := s.maxLiveness
  let phase := s.beginPhase
  let budget := plan.settings.budget
  let phase ← if budget.isExhausted then pure (phase.finish (endingOf budget))
    else phase.run plan (roundLimit s.opCount)
  closeBooks initialMax phase

end Schedule

end Liveness
