import Liveness.Refinement.Pass
import Liveness.Schedule.Move

/-! # Events

What happens while a graph is refined and scheduled, as data in the order in which it
happens. Whoever asked for it gets the events of the wanted levels as text.
-/

namespace Liveness

/-- Why the improvement phase stopped. -/
inductive Ending where
  | converged
  | timeLimited
  | swapLimited
  deriving DecidableEq, Repr

/-- The level of an event, by how much has to be asked for to see it. -/
inductive Level where
  | changes
  | checks
  | details
  deriving DecidableEq, Repr

/-- The liveness of a schedule before and after the improvement phase. -/
structure Balance (W : Type) where
  sumBefore : W
  sumAfter : W
  maxBefore : W
  maxAfter : W
  deriving DecidableEq, Repr

/-- Something that happened. -/
inductive Event (W : Type) where
  | started (ops allocs constraints : Nat)
  | closureBuilt
  | closureUpdated (constraints round : Nat)
  | closureRebuilt (round : Nat)
  | impliedRemoved (count : Nat)
  | dropsLinked (count : Nat)
  | closePairsLinked (count : Nat)
  | chainsOrdered (count : Nat)
  | passRan (pass : Pass) (changed : Bool)
  | moved (move : Move) (cost : W)
  | roundEnded (round changes : Nat) (delta : W) (window next : Nat)
  | finished (ending : Ending) (rounds changes : Nat) (balance : Balance W)

/-- The events of a run, in order. -/
abbrev Log (W : Type) := List (Event W)

namespace Ending

def name : Ending → String
  | .converged => "Converged"
  | .timeLimited => "TimeLimited"
  | .swapLimited => "SwapLimited"

end Ending

namespace Level

/-- The verbosity from which on events of the level are shown. -/
def threshold : Level → Nat
  | .changes => 1
  | .checks => 2
  | .details => 3

def name : Level → String
  | .changes => "INFO"
  | .checks => "DEBUG"
  | .details => "TRACE"

end Level

namespace Event

variable {W : Type}

def level : Event W → Level
  | started .. | roundEnded .. | finished .. => .changes
  | moved .. => .details
  | _ => .checks

def message [Weight W] : Event W → String
  | started ops allocs constraints =>
    s!"Scheduling graph with {ops} Ops, {allocs} Allocs and {constraints} constraints"
  | closureBuilt => "Building transitive closure"
  | closureUpdated constraints round =>
    s!"Updating transitive closure with {constraints} constraints, round {round}"
  | closureRebuilt round => s!"Rebuilding transitive closure, round {round}"
  | impliedRemoved count => s!"Removing {count} redundant constraints"
  | dropsLinked count => s!"link_tight_drops inserted {count} links"
  | closePairsLinked count => s!"link_close_tight_pairs inserted {count} links"
  | chainsOrdered count => s!"constrain_parallel_chains inserted {count} constraints"
  | passRan pass changed =>
    let pass := pass.name
    s!"{pass} changed the graph: {changed}"
  | moved move cost =>
    let move := move.text
    let cost := Weight.text cost
    s!"Applied {move} with cost {cost}"
  | roundEnded round changes delta window next =>
    let delta := Weight.text delta
    s!"Round {round}: {changes} changes (delta {delta}), window size {window} -> {next}"
  | finished ending rounds changes b =>
    let ending := ending.name
    let sumBefore := Weight.text b.sumBefore
    let sumAfter := Weight.text b.sumAfter
    let maxBefore := Weight.text b.maxBefore
    let maxAfter := Weight.text b.maxAfter
    s!"Rotation finished ({ending}) after {rounds} rounds and {changes} changes: " ++
      s!"sum liveness {sumBefore} -> {sumAfter}, max liveness {maxBefore} -> {maxAfter}"

/-- The lines of a log that a verbosity shows. -/
def lines [Weight W] (verbosity : Nat) (log : Log W) : List String :=
  let shown := log.filter fun e => e.level.threshold ≤ verbosity
  shown.map fun e => e.level.name ++ " " ++ e.message

end Event

end Liveness
