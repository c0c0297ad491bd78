import Liveness.Graph.Schedulable
import Liveness.Schedule.Priority
import Liveness.Settings

/-! # First schedules

Chains of links are contracted to units, and the units are taken in an order that keeps
all constraints. Among the ready units only those of the highest priority are candidates,
and a rule picks one: at random, the newest, or the one that raises the liveness least.
-/

namespace Liveness

/-- How many units still need each Alloc, and whether a unit that needed it was taken. -/
structure Demand where
  outstanding : Array Nat
  live : Array Bool
  deriving DecidableEq, Repr

namespace Demand

variable {W : Type} [Weight W]

def start (g : Graph W) : Demand :=
  ⟨g.allocs.map fun alloc => alloc.ops.length, Array.replicate g.allocCount false⟩

def left (d : Demand) (r : Nat) : Nat := d.outstanding.getD r 0

def isLive (d : Demand) (r : Nat) : Bool := d.live.getD r false

/-- The change of liveness from an Alloc when a unit that needs it is taken. -/
def addChange (g : Graph W) (d : Demand) (change : W) (r : Nat) : W :=
  let w := (g.alloc r).weight
  let change := if d.left r = 1 then change - w else change
  if d.isLive r then change else change + w

/-- The change of liveness when a unit is taken. -/
def change (g : Graph W) (d : Demand) (u : Nat) : W := (g.op u).allocs.foldl (addChange g d) 0

/-- Count one unit that needs an Alloc as taken. -/
def takeNeed (d : Demand) (r : Nat) : Demand :=
  ⟨d.outstanding.modify r (· - 1), d.live.setIfInBounds r true⟩

def take (g : Graph W) (d : Demand) (u : Nat) : Demand := (g.op u).allocs.foldl takeNeed d

end Demand

namespace Kahn

variable {W P σ : Type} [Weight W] [Priority P]

/-- The indices of the ready units of the highest priority. -/
def candidates (priority : Nat → P) (ready : List Nat) : List Nat :=
  let top := Priority.top (ready.map priority)
  (List.range ready.length).filter fun i => Priority.atLeast (priority (ready.getD i 0)) top

/-- The candidate that raises the liveness least, the last of equal ones. -/
def cheapest (cost : Nat → W) (best : Nat × W) : List Nat → Nat
  | [] => best.1
  | i :: rest =>
    let c := cost i
    cheapest cost (if Weight.le c best.2 then (i, c) else best) rest

/-- Pick a candidate by the rule. `pick s k` draws an index below `k`. Without a
candidate there is nothing to pick. -/
def choose? (pick : σ → Nat → Nat × σ) (rule : TieBreak) (cost : Nat → W) (s : σ)
    (options : List Nat) : Option (Nat × σ) :=
  match rule with
  | .random =>
    let (k, s) := pick s options.length
    options[k]?.map fun i => (i, s)
  | .fifo => options.getLast?.map fun i => (i, s)
  | .greedy =>
    match options with
    | [] => none
    | i :: rest => some (cheapest cost (i, cost i) rest, s)

/-- The rule as a choice among the ready units of a graph. -/
def choice (g : Graph W) (pick : σ → Nat → Nat × σ) (rule : TieBreak) (priority : Nat → P) :
    Choice (Demand × σ) := fun (demand, s) ready =>
  let cost (i : Nat) := demand.change g (ready.getD i 0)
  match choose? pick rule cost s (candidates priority ready) with
  | some (i, s) => (i, (demand.take g (ready.getD i 0), s))
  | none => (ready.length, (demand, s))

/-- The priorities of Ops that are listed; the last entry of an Op counts. -/
def priorities (n : Nat) (listed : List (Nat × P)) : Array P :=
  listed.foldl (fun ps p => ps.setIfInBounds p.1 p.2) (Array.replicate n 0)

/-- The priority of a unit, the highest one of its members. -/
def unitPriority (ps : Array P) (unit : List Nat) : P :=
  Priority.top (unit.map fun a => ps.getD a 0)

def order (g : Graph W) (pick : σ → Nat → Nat × σ) (rule : TieBreak) (priority : Nat → P)
    (s : σ) : List Nat :=
  takeAll g.edges (choice g pick rule priority) (Demand.start g, s)

def schedule (g : Graph W) (pick : σ → Nat → Nat × σ) (rule : TieBreak)
    (listed : List (Nat × P)) (s : σ) : Except Error (List Nat) := do
  g.checkOps (listed.map Prod.fst)
  let ps := priorities g.opCount listed
  let contraction ← g.contractLinks
  let unitPriorities := (contraction.units.map (unitPriority ps)).toArray
  let units := order contraction.graph pick rule (fun u => unitPriorities.getD u 0) s
  let result := contraction.expand units
  if result.length ≠ g.opCount then throw (.cycle result.length g.opCount)
  return result

end Kahn

end Liveness
