import Liveness.Ascending
import Liveness.Error
import Liveness.Weight.Basic

/-! # Graphs of Ops and Allocs

Ops are to be put in order; a constraint says that one Op comes before another, and a
link that it comes directly before. An Alloc is a resource with a weight that is live
from the first to the last of the Ops that need it. Addresses are indices, given out
in the order of insertion.
-/

namespace Liveness

/-- An operation to be scheduled, with its constraints, links and Allocs. -/
structure Op where
  address : Nat
  name : String
  ins : List Nat
  outs : List Nat
  allocs : List Nat
  fwdLink : Option Nat
  bwdLink : Option Nat
  deriving DecidableEq, Repr

/-- A resource shared by a set of Ops. -/
structure Alloc (W : Type) where
  address : Nat
  weight : W
  ops : List Nat
  deriving DecidableEq, Repr

/-- Ops and Allocs, each at the index that is its address. -/
structure Graph (W : Type) where
  ops : Array Op
  allocs : Array (Alloc W)
  deriving DecidableEq, Repr

/-- The successors of every Op, by address. -/
abbrev Edges := Array (List Nat)

/-- The successors of an Op, none for an address without one. -/
def Edges.outs (edges : Edges) (i : Nat) : List Nat := edges.getD i []

namespace Op

/-- An Op without constraints, links and Allocs. -/
def isolated (address : Nat) (name : String) : Op := ⟨address, name, [], [], [], none, none⟩

/-- Whether the Op directly after this one is fixed. -/
def hasFwdLink (op : Op) : Bool := op.fwdLink.isSome

/-- Whether the Op directly before this one is fixed. -/
def hasBwdLink (op : Op) : Bool := op.bwdLink.isSome

def isLinked (op : Op) : Bool := op.hasFwdLink || op.hasBwdLink

end Op

namespace Alloc

variable {W : Type}

/-- An Alloc that no Op needs yet. -/
def unused (address : Nat) (weight : W) : Alloc W := ⟨address, weight, []⟩

end Alloc

namespace Graph

variable {W : Type}

def empty : Graph W := ⟨#[], #[]⟩

def opCount (g : Graph W) : Nat := g.ops.size

def allocCount (g : Graph W) : Nat := g.allocs.size

/-- The number of constraints, those of links included. -/
def constraintCount (g : Graph W) : Nat := g.ops.toList.foldl (fun n op => n + op.ins.length) 0

/-- The Op at an address, an isolated nameless one where there is none. -/
def op (g : Graph W) (a : Nat) : Op := g.ops.getD a (Op.isolated a "")

/-- The Alloc at an address, an unused weightless one where there is none. -/
def alloc [Zero W] (g : Graph W) (r : Nat) : Alloc W := g.allocs.getD r (Alloc.unused r 0)

def edges (g : Graph W) : Edges := g.ops.map Op.outs

/-- The Ops without constraints before them. -/
def inputs (g : Graph W) : List Nat :=
  (g.ops.toList.filter fun op => op.ins.isEmpty).map Op.address

/-- The Ops with the same constraints before them as the Op at `a`, itself included. -/
def siblings (g : Graph W) (a : Nat) : List Nat :=
  match (g.op a).ins with
  | [] => g.inputs
  | i :: is => (g.op i).outs.filter fun b => (g.op b).ins == i :: is

def checkOp (g : Graph W) (a : Nat) : Except Error Unit :=
  if a < g.opCount then .ok () else .error (.opOutOfRange a g.opCount)

def checkAlloc (g : Graph W) (r : Nat) : Except Error Unit :=
  if r < g.allocCount then .ok () else .error (.allocOutOfRange r g.allocCount)

def checkConstraint (g : Graph W) (before after : Nat) : Except Error Unit := do
  g.checkOp before
  g.checkOp after
  if before = after then throw (.selfConstraint before)

def checkOps (g : Graph W) (as : List Nat) : Except Error Unit := as.forM g.checkOp

/-- Two graphs with equal Ops and with Allocs that are equal up to weights of equal rank. -/
def same [Weight W] (g h : Graph W) : Bool :=
  g.ops == h.ops && g.allocCount == h.allocCount &&
    (g.allocs.toList.zip h.allocs.toList).all fun p =>
      p.1.address == p.2.address && Weight.same p.1.weight p.2.weight && p.1.ops == p.2.ops

/-- A line per Op with the names of the Ops constrained before it. -/
def text (g : Graph W) : String :=
  let line (op : Op) :=
    let ins := op.ins.map fun i => " " ++ (g.op i).name ++ " "
    "\n" ++ op.name ++ "   <-  [" ++ String.join ins ++ "]"
  String.join (g.ops.toList.map line)

end Graph

end Liveness
