import Liveness.Graph.Basic

/-! # Editing graphs

Every operation checks all of its addresses before it changes anything, so a graph is
either edited as a whole or not at all. Constraints are kept at both of their Ops, and
the need of an Op for an Alloc at both the Op and the Alloc.
-/

namespace Liveness.Graph

variable {W : Type}

def modifyOp (g : Graph W) (a : Nat) (f : Op → Op) : Graph W := ⟨g.ops.modify a f, g.allocs⟩

def modifyAlloc (g : Graph W) (r : Nat) (f : Alloc W → Alloc W) : Graph W :=
  ⟨g.ops, g.allocs.modify r f⟩

/-- Record a constraint at both of its Ops. -/
def connect (g : Graph W) (before after : Nat) : Graph W :=
  (g.modifyOp before fun op => { op with outs := Ascending.insert after op.outs }).modifyOp after
    fun op => { op with ins := Ascending.insert before op.ins }

/-- Record the need for an Alloc at both the Op and the Alloc. -/
def attach (g : Graph W) (a r : Nat) : Graph W :=
  (g.modifyAlloc r fun alloc => { alloc with ops := Ascending.insert a alloc.ops }).modifyOp a
    fun op => { op with allocs := Ascending.insert r op.allocs }

/-- Forget the need for an Alloc at both the Op and the Alloc. -/
def detach (g : Graph W) (a r : Nat) : Graph W :=
  (g.modifyAlloc r fun alloc => { alloc with ops := alloc.ops.erase a }).modifyOp a
    fun op => { op with allocs := op.allocs.erase r }

def connectAll (g : Graph W) (pairs : List (Nat × Nat)) : Graph W :=
  pairs.foldl (fun g p => g.connect p.1 p.2) g

def attachAll (g : Graph W) (ops : List Nat) (r : Nat) : Graph W :=
  ops.foldl (fun g a => g.attach a r) g

/-- Add an Op; its address is the number of Ops before. -/
def addOp (g : Graph W) (name : String) : Graph W :=
  ⟨g.ops.push (Op.isolated g.opCount name), g.allocs⟩

def addOps (g : Graph W) (names : List String) : Graph W := names.foldl addOp g

/-- Add an Alloc; its address is the number of Allocs before. -/
def addAlloc (g : Graph W) (weight : W) : Graph W :=
  ⟨g.ops, g.allocs.push (Alloc.unused g.allocCount weight)⟩

/-- Add an Op that comes after `ins` and needs `allocs`. -/
def addOpWith (g : Graph W) (ins allocs : List Nat) (name : String) : Except Error (Graph W) := do
  g.checkOps ins
  allocs.forM g.checkAlloc
  let a := g.opCount
  let g := (g.addOp name).connectAll (ins.map fun i => (i, a))
  return allocs.foldl (fun g r => g.attach a r) g

def need (g : Graph W) (a r : Nat) : Except Error (Graph W) := do
  g.checkOp a
  g.checkAlloc r
  return g.attach a r

def needAll (g : Graph W) (ops : List Nat) (r : Nat) : Except Error (Graph W) := do
  g.checkOps ops
  g.checkAlloc r
  return g.attachAll ops r

/-- Let `before` come before `after`. -/
def constrain (g : Graph W) (before after : Nat) : Except Error (Graph W) := do
  g.checkConstraint before after
  return g.connect before after

def constrainAll (g : Graph W) (pairs : List (Nat × Nat)) : Except Error (Graph W) := do
  pairs.forM fun p => g.checkConstraint p.1 p.2
  return g.connectAll pairs

/-- Forget a constraint, present or not. A link between the two Ops stays. -/
def unconstrain (g : Graph W) (before after : Nat) : Except Error (Graph W) := do
  g.checkOp before
  g.checkOp after
  return (g.modifyOp before fun op => { op with outs := op.outs.erase after }).modifyOp after
    fun op => { op with ins := op.ins.erase before }

/-- Record a link and its constraint. -/
def join (g : Graph W) (before after : Nat) : Graph W :=
  ((g.connect before after).modifyOp before fun op => { op with fwdLink := some after }).modifyOp
    after fun op => { op with bwdLink := some before }

/-- Fail if a link already there points elsewhere. -/
def checkLink (found : Option Nat) (expected : Nat) (conflict : Nat → Error) :
    Except Error Unit :=
  match found with
  | none => .ok ()
  | some existing => if existing = expected then .ok () else .error (conflict existing)

/-- Let `after` come directly after `before`. An Op has at most one link on each side. -/
def link (g : Graph W) (before after : Nat) : Except Error (Graph W) := do
  g.checkConstraint before after
  checkLink (g.op before).fwdLink after fun e => .linkConflict before after before e .forward
  checkLink (g.op after).bwdLink before fun e => .linkConflict before after after e .backward
  return g.join before after

/-- Let no Op need the Alloc any more. -/
def releaseAll [Zero W] (g : Graph W) (r : Nat) : Except Error (Graph W) := do
  g.checkAlloc r
  return (g.alloc r).ops.foldl (fun g a => g.detach a r) g

/-- Let an Op not need an Alloc any more. -/
def release (g : Graph W) (a r : Nat) : Except Error (Graph W) := do
  g.checkOp a
  g.checkAlloc r
  return g.detach a r

/-- Give an Alloc another weight, which has to be finite. -/
def reweigh [Weight W] (g : Graph W) (r : Nat) (weight : W) : Except Error (Graph W) := do
  g.checkAlloc r
  match Weight.defect? weight with
  | some magnitude => throw (.nonFiniteWeight magnitude)
  | none => return g.modifyAlloc r fun alloc => { alloc with weight := weight }

end Liveness.Graph
