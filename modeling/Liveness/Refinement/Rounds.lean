import Liveness.Refinement.Allocs
import Liveness.Refinement.Links
import Liveness.Refinement.Parallel
import Liveness.Settings

/-! # Rounds of passes

The enabled passes run one after the other, in rounds. A pass that changed nothing is
left out of the next round, and a round of all passes in which nothing changed is the
last one. The rounds then stop quietly; otherwise as many as allowed were run.
-/

namespace Liveness

/-- Where the rounds stand: the draft, the passes of the next round, the edges before
the last round and the number of rounds so far. -/
structure Rounds (W : Type) where
  draft : Draft W
  next : List Pass
  previous : Edges
  count : Nat
  log : Log W

namespace Draft

variable {W : Type} [Weight W]

def run (d : Draft W) : Pass → Except Error (Refined W)
  | .slideLinks => d.graph.slideLinks
  | .linkTightDrops => d.linkTightDrops
  | .linkClosePairs => d.linkClosePairs
  | .orderParallelChains => d.orderParallelChains
  | .dropWeightless => d.graph.dropWeightless
  | .dropSolitary => d.graph.dropSolitary
  | .dropInner => d.graph.dropInner d.closure
  | .dropFixed => d.graph.dropFixed d.closure
  | .combine => d.graph.combine

/-- Run one pass, and fail if the graph can no longer be scheduled. -/
def runChecked (d : Draft W) (pass : Pass) : Except Error (Refined W) := do
  let result ← d.run pass
  if result.changed then
    match result.graph.checkSchedulable with
    | .ok () => pure ()
    | .error cause => throw (.passBroke pass cause)
  return { result with log := result.log ++ [.passRan pass result.changed] }

/-- Run passes in order, and collect those that changed the graph. -/
def runAll (d : Draft W) : List Pass → Except Error (Draft W × List Pass × Log W)
  | [] => .ok (d, [], [])
  | pass :: rest => do
    let result ← d.runChecked pass
    let (last, changers, log) ← ({ d with graph := result.graph } : Draft W).runAll rest
    return (last, if result.changed then pass :: changers else changers, result.log ++ log)

/-- Take up the constraints that the last round added. The closure is extended edge by
edge if they are few, and computed again otherwise. -/
def refresh (d : Draft W) (previous : Edges) (round : Nat) :
    Except Error (Draft W × Log W) := do
  let added ← d.graph.newEdges previous
  let count := added.toList.flatten.length
  if count < d.graph.opCount / 10 then
    let (d, log) ← d.update added
    return (d, .closureUpdated count round :: log)
  else
    let (d, log) ← d.rebuild
    return (d, .closureRebuilt round :: log)

end Draft

namespace Rounds

variable {W : Type} [Weight W]

/-- The passes of the round after one in which `ran` passes were tried and `changers`
changed the graph; none if the rounds are over. A single pass is not tried alone. -/
def passesAfter (all : List Pass) (ran : Nat) (changers : List Pass) : Option (List Pass) :=
  match changers with
  | [] => if ran = all.length then none else some all
  | [_] => some all
  | changers => some changers

/-- The draft that a round starts with: the first one, or a refreshed one. -/
def start (r : Rounds W) : Except Error (Draft W × Log W) :=
  if r.count = 0 then .ok (r.draft, []) else r.draft.refresh r.previous r.count

/-- Run at most the given number of rounds, and tell whether they ended with a round of all
passes that changed nothing. -/
def runTelling (all : List Pass) : Nat → Rounds W → Except Error (Graph W × Log W × Bool)
  | 0, r => .ok (r.draft.graph, r.log, false)
  | left + 1, r => do
    let (draft, fresh) ← r.start
    let previous := draft.graph.edges
    let (draft, changers, told) ← draft.runAll r.next
    let log := r.log ++ fresh ++ told
    match passesAfter all r.next.length changers with
    | none => return (draft.graph, log, true)
    | some next => Rounds.runTelling all left ⟨draft, next, previous, r.count + 1, log⟩

end Rounds

namespace Graph

variable {W : Type} [Weight W]

/-- Refine a graph by the passes that are on, and tell whether refinement stopped quietly.
Without any pass the graph is left as it is and not even checked. -/
def refineTelling (g : Graph W) (passes : Passes) : Except Error (Graph W × Log W × Bool) := do
  let all := passes.enabled
  if all.isEmpty then return (g, [], true)
  g.checkSchedulable
  let (draft, log) ← Draft.ofGraph g
  Rounds.runTelling all passes.maxRounds ⟨draft, all, #[], 0, .closureBuilt :: log⟩

def refine (g : Graph W) (passes : Passes) : Except Error (Graph W × Log W) :=
  (g.refineTelling passes).map fun (h, log, _) => (h, log)

end Graph

end Liveness
