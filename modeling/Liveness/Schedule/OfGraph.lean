import Liveness.Random.Source
import Liveness.Refinement.Rounds
import Liveness.Schedule.Kahn
import Liveness.Schedule.Improvement

/-! # From a graph to its schedule

A graph is refined by the passes that are on, put in a first order, and improved. The
seed decides both the random picks of the first order and the order of visits, each
from a state of its own. The source of random numbers and the clock are given by the caller.
-/

namespace Liveness

/-- The plan of the settings for a number of Ops, with every Op visited in an order
drawn from the seed. -/
def Plan.ofSettings {R : Type} (source : Random.Source) (settings : SettingsOver R) (n : Nat)
    (timeUp : Nat → Bool) : Plan R where
  settings := settings
  visits := (source.shuffle (source.ofSeed settings.seed) (Array.range n)).toList
  timeUp := timeUp

namespace Graph

variable {W R : Type} [Weight W] [Priority R]

/-- The first order of the Ops by the rule, priorities and seed of the settings. -/
def firstOrder (g : Graph W) (source : Random.Source) (settings : SettingsOver R) :
    Except Error (List Nat) :=
  Kahn.schedule g source.below settings.tieBreak settings.priorities
    (source.ofSeed settings.seed)

def schedule (g : Graph W) (source : Random.Source) (settings : SettingsOver R)
    (timeUp : Nat → Bool) : Except Error (Schedule W × Log W) := do
  let (refined, refining) ← g.refine settings.passes
  let order ← refined.firstOrder source settings
  let s := Schedule.ofOrder refined order
  s.check
  match s.improve (Plan.ofSettings source settings s.opCount timeUp) with
  | .error failure => throw failure.error
  | .ok (s, improving) =>
    return (s, .started g.opCount g.allocCount g.constraintCount :: refining ++ improving)

end Graph

end Liveness
