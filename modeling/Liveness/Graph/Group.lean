import Liveness.Decimal.Signed
import Liveness.Graph.Edit
import Liveness.Weight.Binary64

/-! # Groups of constraints and Allocs

Edits that add helper Ops or Allocs for a whole group at once: bottlenecks that order
bins of Ops, Allocs that draw pairs of Ops together, and attractors that draw Ops to
the start of the schedule by priority.
-/

namespace Liveness

namespace Graph

variable {W : Type}

/-- Add an Op after `previous` and every Op of one bin, and before every Op of the next. -/
def addBottleneck (g : Graph W) (previous : Option Nat) (bin next : List Nat) (name : String) :
    Graph W :=
  let neck := g.opCount
  let ins := bin.map fun a => (a, neck)
  let outs := next.map fun a => (neck, a)
  let chain := previous.toList.map fun a => (a, neck)
  (g.addOp name).connectAll (ins ++ outs ++ chain)

/-- Add a bottleneck between every two adjacent bins, numbered from `i`. -/
def addBottlenecks (stem : String) (g : Graph W) (previous : Option Nat) (i : Nat) :
    List (List Nat) → Graph W × List Nat
  | bin :: next :: bins =>
    let neck := g.opCount
    let g := g.addBottleneck previous bin next (stem ++ s!"{i}")
    let (g, necks) := addBottlenecks stem g (some neck) (i + 1) (next :: bins)
    (g, neck :: necks)
  | _ => (g, [])

/-- Order bins of Ops one after the other, and return the bottlenecks between them. -/
def separateBins (g : Graph W) (bins : List (List Nat)) (stem : String) :
    Except Error (Graph W × List Nat) := do
  g.checkOps bins.flatten
  return g.addBottlenecks stem none 0 bins

/-- Add an Alloc that two Ops need. -/
def addAttraction (g : Graph W) (weight : W) (a b : Nat) : Graph W :=
  let r := g.allocCount
  ((g.addAlloc weight).attach a r).attach b r

/-- Add an Alloc for every pair of Ops, and return the Allocs. -/
def attract (g : Graph W) (pairs : List (Nat × Nat)) (weight : W) :
    Except Error (Graph W × List Nat) := do
  pairs.forM fun p => do
    g.checkOp p.1
    g.checkOp p.2
  let allocs := (List.range pairs.length).map (g.allocCount + ·)
  return (pairs.foldl (fun g p => g.addAttraction weight p.1 p.2) g, allocs)

end Graph

open Decimal (Signed)

namespace Attraction

/-- Put a priority into a list sorted by rank, behind those of its own rank. -/
def place (x : Signed) : List Signed → List Signed
  | [] => [x]
  | y :: ys => if x.rank < y.rank then x :: y :: ys else y :: place x ys

/-- Drop each priority that equals the one kept before it. -/
def dropRepeats (kept : Signed) : List Signed → List Signed
  | [] => []
  | x :: xs => if x.same kept then dropRepeats kept xs else x :: dropRepeats x xs

/-- The distinct priorities in ascending order. Zeros of both signs count as one. -/
def distinct (priorities : List Signed) : List Signed :=
  match priorities.foldl (fun sorted x => place x sorted) [] with
  | [] => []
  | x :: xs => x :: dropRepeats x xs

/-- The index of the last priority of the same rank in a sorted list, zero if none. -/
def indexAmong (sorted : List Signed) (priority : Signed) : Nat :=
  let upTo := sorted.takeWhile fun x => x.rank ≤ priority.rank
  match upTo.getLast? with
  | some x => if x.rank = priority.rank then upTo.length - 1 else 0
  | none => 0

end Attraction

namespace Graph

/-- Add an attractor Op for `a` that shares an Alloc of the given weight with it. -/
def addAttractor (g : Graph (Tiered Float)) (a : Nat) (weight : Tiered Float) :
    Graph (Tiered Float) :=
  let r := g.allocCount
  let name := "priorityAttractor_" ++ (g.op a).name ++ "_" ++ weight.text
  let attractor := g.opCount
  (((g.addAlloc weight).addOp name).attach attractor r).attach a r

/-- Add an attractor for every Op whose weight is not zero, and return them in order. -/
def addAttractors (g : Graph (Tiered Float)) :
    List (Nat × Tiered Float) → Graph (Tiered Float) × List Nat
  | [] => (g, [])
  | (a, weight) :: rest =>
    if weight.isZero then addAttractors g rest
    else
      let attractor := g.opCount
      let (g, attractors) := addAttractors (g.addAttractor a weight) rest
      (g, attractor :: attractors)

/-- Constrain each Op of a list before the next one. -/
def connectChain {W : Type} (g : Graph W) (chain : List Nat) : Graph W :=
  g.connectAll (chain.zip (chain.drop 1))

/-- Draw Ops to the start of the schedule. Every Op shares an Alloc with an attractor Op;
it weighs `step` times the index of the priority among the distinct ones. The attractors
form a chain before all Ops that had nothing before them. Nothing is added for an Op of
the lowest priority, and nothing at all when all priorities are equal. -/
def attractToStart (g : Graph (Tiered Float)) (ops : List Nat) (priorities : List Signed)
    (tier : Int) (step : Float) : Except Error (Graph (Tiered Float) × List Nat) := do
  if ops.length ≠ priorities.length then
    throw (.lengthMismatch .startAttractors ops.length priorities.length)
  if !Tiered.isTier tier then throw (.invalidTier tier)
  g.checkOps ops
  let sorted := Attraction.distinct priorities
  if sorted.length ≤ 1 then return (g, [])
  let weights := priorities.map fun p =>
    Tiered.onTier (step * Float.ofNat (Attraction.indexAmong sorted p)) tier
  let inputs := g.inputs
  let (g, attractors) := g.addAttractors (ops.zip weights)
  let g := g.connectChain attractors
  return match attractors.getLast? with
    | none => (g, attractors)
    | some last => (g.connectAll (inputs.map fun a => (last, a)), attractors)

end Graph

end Liveness
