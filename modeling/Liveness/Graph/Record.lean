import Liveness.Graph.Edit

/-! # Records of graphs

The plain data in which a graph is stored: Ops and Allocs with explicit addresses, and
only the forward half of constraints and links. Records may come in any order, as long
as the addresses are those of a graph.
-/

namespace Liveness

/-- An Op as it is stored. A link of -1 means that there is none. -/
structure OpRecord where
  address : Nat
  name : String
  outs : List Nat
  allocs : List Nat
  fwdLink : Int
  deriving DecidableEq, Repr

structure AllocRecord (W : Type) where
  address : Nat
  weight : W
  deriving DecidableEq, Repr

structure GraphRecord (W : Type) where
  ops : List OpRecord
  allocs : List (AllocRecord W)
  deriving DecidableEq, Repr

namespace OpRecord

def ofOp (op : Op) : OpRecord :=
  { address := op.address
    name := op.name
    outs := op.outs
    allocs := op.allocs
    fwdLink := match op.fwdLink with
      | some b => (b : Int)
      | none => -1 }

end OpRecord

namespace Graph

variable {W : Type}

/-- The record of a graph whose weights are all finite. -/
def toRecord [Weight W] (g : Graph W) : Except Error (GraphRecord W) :=
  match g.allocs.toList.findSome? fun alloc => Weight.defect? alloc.weight with
  | some magnitude => .error (.nonFiniteWeight magnitude)
  | none => .ok
    { ops := g.ops.toList.map OpRecord.ofOp
      allocs := g.allocs.toList.map fun alloc => ⟨alloc.address, alloc.weight⟩ }

/-- Fail unless every address is below the count and comes once. -/
def checkAddresses (kind : RecordKind) (count : Nat) (seen : List Nat) :
    List Nat → Except Error Unit
  | [] => .ok ()
  | a :: rest => do
    if count ≤ a then throw (.malformedGraph (.addressTooLarge kind a count))
    if seen.contains a then throw (.malformedGraph (.addressRepeated kind a))
    checkAddresses kind count (a :: seen) rest

/-- Add the constraints, needs and link of one stored Op. -/
def addRecord (g : Graph W) (r : OpRecord) : Except Error (Graph W) := do
  let g ← r.outs.foldlM (fun g b => g.constrain r.address b) g
  let g ← r.allocs.foldlM (fun g alloc => g.need r.address alloc) g
  if r.fwdLink = -1 then return g
  else if 0 ≤ r.fwdLink then g.link r.address r.fwdLink.toNat
  else throw (.malformedGraph (.badLink r.fwdLink r.address))

/-- The Ops and Allocs of a record by address, without constraints, needs and links. -/
def skeleton (r : GraphRecord W) : Graph W :=
  let names := (List.range r.ops.length).filterMap fun a =>
    (r.ops.find? fun op => op.address == a).map OpRecord.name
  let weights := (List.range r.allocs.length).filterMap fun a =>
    (r.allocs.find? fun alloc => alloc.address == a).map AllocRecord.weight
  weights.foldl addAlloc ((empty : Graph W).addOps names)

/-- Rebuild a graph from its record. The addresses are checked first, Ops before
Allocs; then each Op adds its constraints, its needs and its link. -/
def ofRecord (r : GraphRecord W) : Except Error (Graph W) := do
  checkAddresses .op r.ops.length [] (r.ops.map OpRecord.address)
  checkAddresses .alloc r.allocs.length [] (r.allocs.map AllocRecord.address)
  r.ops.foldlM addRecord (skeleton r)

end Graph

end Liveness
