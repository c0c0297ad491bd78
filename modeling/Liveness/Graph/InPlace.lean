import Liveness.Graph.Group

/-! # Edits in place

The public edits as they change one graph step by step. A step that fails ends the edit and
leaves the graph as the steps before have made it, so it matters that all checks come first.
-/

namespace Liveness

/-- A computation on a graph in place, which may fail halfway. -/
abbrev InPlace (W α : Type) := EStateM Error (Graph W) α

namespace InPlace

variable {W : Type}

/-- Fail as a check of the graph does. -/
def check (f : Graph W → Except Error Unit) : InPlace W Unit := fun g =>
  match f g with
  | .ok () => .ok () g
  | .error e => .error e g

def modifyOp (a : Nat) (f : Op → Op) : InPlace W Unit := modify fun g => g.modifyOp a f

def modifyAlloc (r : Nat) (f : Alloc W → Alloc W) : InPlace W Unit :=
  modify fun g => g.modifyAlloc r f

/-- Record a constraint at its first Op, and at its second one if it is new. -/
def connect (before after : Nat) : InPlace W Unit := do
  let g ← get
  modifyOp before fun op => { op with outs := Ascending.insert after op.outs }
  if !(g.op before).outs.contains after then
    modifyOp after fun op => { op with ins := Ascending.insert before op.ins }

def attach (a r : Nat) : InPlace W Unit := do
  modifyAlloc r fun alloc => { alloc with ops := Ascending.insert a alloc.ops }
  modifyOp a fun op => { op with allocs := Ascending.insert r op.allocs }

def addOp (name : String) : InPlace W Nat := do
  let g ← get
  set (g.addOp name)
  return g.opCount

def addAlloc (weight : W) : InPlace W Nat := do
  let g ← get
  set (g.addAlloc weight)
  return g.allocCount

def addOpWith (ins allocs : List Nat) (name : String) : InPlace W Nat := do
  ins.forM fun i => check fun g => g.checkOp i
  allocs.forM fun r => check fun g => g.checkAlloc r
  let a ← addOp name
  ins.forM fun i => connect i a
  allocs.forM fun r => attach a r
  return a

def need (a r : Nat) : InPlace W Unit := do
  check fun g => g.checkOp a
  check fun g => g.checkAlloc r
  attach a r

def needAll (ops : List Nat) (r : Nat) : InPlace W Unit := do
  ops.forM fun a => check fun g => g.checkOp a
  check fun g => g.checkAlloc r
  ops.forM fun a => attach a r

def constrain (before after : Nat) : InPlace W Unit := do
  check fun g => g.checkConstraint before after
  connect before after

def constrainAll (pairs : List (Nat × Nat)) : InPlace W Unit := do
  pairs.forM fun p => check fun g => g.checkConstraint p.1 p.2
  pairs.forM fun p => connect p.1 p.2

def unconstrain (before after : Nat) : InPlace W Unit := do
  check fun g => g.checkOp before
  check fun g => g.checkOp after
  modifyOp before fun op => { op with outs := op.outs.erase after }
  modifyOp after fun op => { op with ins := op.ins.erase before }

def link (before after : Nat) : InPlace W Unit := do
  check fun g => g.checkConstraint before after
  check fun g => Graph.checkLink (g.op before).fwdLink after fun e =>
    .linkConflict before after before e .forward
  check fun g => Graph.checkLink (g.op after).bwdLink before fun e =>
    .linkConflict before after after e .backward
  connect before after
  modifyOp before fun op => { op with fwdLink := some after }
  modifyOp after fun op => { op with bwdLink := some before }

/-- Add a bottleneck between every two adjacent bins, numbered from `i`. -/
def addBottlenecks (stem : String) (previous : Option Nat) (i : Nat) :
    List (List Nat) → InPlace W (List Nat)
  | bin :: next :: bins => do
    let neck ← addOp (stem ++ s!"{i}")
    bin.forM fun a => connect a neck
    next.forM fun a => connect neck a
    previous.toList.forM fun a => connect a neck
    let necks ← addBottlenecks stem (some neck) (i + 1) (next :: bins)
    return neck :: necks
  | _ => return []

def separateBins (bins : List (List Nat)) (stem : String) : InPlace W (List Nat) := do
  bins.flatten.forM fun a => check fun g => g.checkOp a
  addBottlenecks stem none 0 bins

/-- Add an Alloc for every pair of Ops. -/
def addAttractions (weight : W) : List (Nat × Nat) → InPlace W (List Nat)
  | [] => return []
  | p :: pairs => do
    let r ← addAlloc weight
    attach p.1 r
    attach p.2 r
    let rs ← addAttractions weight pairs
    return r :: rs

def attract (pairs : List (Nat × Nat)) (weight : W) : InPlace W (List Nat) := do
  pairs.forM fun p => check fun g => do
    g.checkOp p.1
    g.checkOp p.2
  addAttractions weight pairs

/-- Empty the list of Ops of an Alloc, and then take it from the list of each of them. -/
def releaseAll [Zero W] (r : Nat) : InPlace W Unit := do
  check fun g => g.checkAlloc r
  let g ← get
  modifyAlloc r fun alloc => { alloc with ops := [] }
  (g.alloc r).ops.forM fun a => modifyOp a fun op => { op with allocs := op.allocs.erase r }

def release (a r : Nat) : InPlace W Unit := do
  check fun g => g.checkOp a
  check fun g => g.checkAlloc r
  modifyOp a fun op => { op with allocs := op.allocs.erase r }
  modifyAlloc r fun alloc => { alloc with ops := alloc.ops.erase a }

def reweigh [Weight W] (r : Nat) (weight : W) : InPlace W Unit := do
  check fun g => g.checkAlloc r
  match Weight.defect? weight with
  | some magnitude => throw (.nonFiniteWeight magnitude)
  | none => modifyAlloc r fun alloc => { alloc with weight := weight }

/-- Add an attractor for every Op whose weight is not zero. -/
def addAttractors : List (Nat × Tiered Float) → InPlace (Tiered Float) (List Nat)
  | [] => return []
  | (a, weight) :: rest =>
    if weight.isZero then addAttractors rest
    else do
      let r ← addAlloc weight
      let g ← get
      let attractor ← addOp ("priorityAttractor_" ++ (g.op a).name ++ "_" ++ weight.text)
      attach attractor r
      attach a r
      let attractors ← addAttractors rest
      return attractor :: attractors

def attractToStart (ops : List Nat) (priorities : List Decimal.Signed) (tier : Int)
    (step : Float) : InPlace (Tiered Float) (List Nat) := do
  if ops.length ≠ priorities.length then
    throw (.lengthMismatch .startAttractors ops.length priorities.length)
  if !Tiered.isTier tier then throw (.invalidTier tier)
  ops.forM fun a => check fun g => g.checkOp a
  let inputs := (← get).inputs
  let sorted := Attraction.distinct priorities
  if sorted.length ≤ 1 then return []
  let weights := priorities.map fun p =>
    Tiered.onTier (step * Float.ofNat (Attraction.indexAmong sorted p)) tier
  let attractors ← addAttractors (ops.zip weights)
  (attractors.zip (attractors.drop 1)).forM fun p => connect p.1 p.2
  match attractors.getLast? with
  | none => return attractors
  | some last =>
    inputs.forM fun a => connect last a
    return attractors

end InPlace

/-- A call of one of the public edits with any arguments. -/
inductive Call where
  | addOp (name : String)
  | addOps (names : List String)
  | addOpWith (ins allocs : List Nat) (name : String)
  | addAlloc (weight : Tiered Float)
  | need (op alloc : Nat)
  | needAll (ops : List Nat) (alloc : Nat)
  | constrain (before after : Nat)
  | constrainAll (pairs : List (Nat × Nat))
  | unconstrain (before after : Nat)
  | link (before after : Nat)
  | separateBins (bins : List (List Nat)) (stem : String)
  | attract (pairs : List (Nat × Nat)) (weight : Tiered Float)
  | attractToStart (ops : List Nat) (priorities : List Decimal.Signed) (tier : Int) (step : Float)
  | releaseAll (alloc : Nat)
  | release (op alloc : Nat)
  | reweigh (alloc : Nat) (weight : Tiered Float)

namespace Call

/-- Carry out a call in place, and return the addresses of what it adds. -/
def perform : Call → InPlace (Tiered Float) (List Nat)
  | .addOp name => return [← InPlace.addOp name]
  | .addOps names => names.mapM InPlace.addOp
  | .addOpWith ins allocs name => return [← InPlace.addOpWith ins allocs name]
  | .addAlloc weight => return [← InPlace.addAlloc weight]
  | .need a r => do InPlace.need a r; return []
  | .needAll ops r => do InPlace.needAll ops r; return []
  | .constrain before after => do InPlace.constrain before after; return []
  | .constrainAll pairs => do InPlace.constrainAll pairs; return []
  | .unconstrain before after => do InPlace.unconstrain before after; return []
  | .link before after => do InPlace.link before after; return []
  | .separateBins bins stem => InPlace.separateBins bins stem
  | .attract pairs weight => InPlace.attract pairs weight
  | .attractToStart ops priorities tier step =>
    InPlace.attractToStart ops priorities tier step
  | .releaseAll r => do InPlace.releaseAll r; return []
  | .release a r => do InPlace.release a r; return []
  | .reweigh r weight => do InPlace.reweigh r weight; return []

/-- The edited graph of a call, and the addresses of what it adds. -/
def edit (g : Graph (Tiered Float)) : Call → Except Error (Graph (Tiered Float) × List Nat)
  | .addOp name => .ok (g.addOp name, [g.opCount])
  | .addOps names => .ok (g.addOps names, (List.range names.length).map (g.opCount + ·))
  | .addOpWith ins allocs name => do return (← g.addOpWith ins allocs name, [g.opCount])
  | .addAlloc weight => .ok (g.addAlloc weight, [g.allocCount])
  | .need a r => do return (← g.need a r, [])
  | .needAll ops r => do return (← g.needAll ops r, [])
  | .constrain before after => do return (← g.constrain before after, [])
  | .constrainAll pairs => do return (← g.constrainAll pairs, [])
  | .unconstrain before after => do return (← g.unconstrain before after, [])
  | .link before after => do return (← g.link before after, [])
  | .separateBins bins stem => g.separateBins bins stem
  | .attract pairs weight => g.attract pairs weight
  | .attractToStart ops priorities tier step => g.attractToStart ops priorities tier step
  | .releaseAll r => do return (← g.releaseAll r, [])
  | .release a r => do return (← g.release a r, [])
  | .reweigh r weight => do return (← g.reweigh r weight, [])

end Call

end Liveness
