import Liveness.Graph.Chain
import Liveness.Graph.Edit

/-! # Contracting chains

Ops that are scheduled one directly after the other can be replaced by a single unit
with the constraints and Allocs of them all. An order of the units, with every unit
spelled out, is an order of the Ops.
-/

namespace Liveness

/-- A contracted graph, and for each of its Ops the Ops it stands for, in order. -/
structure Contraction (W : Type) where
  graph : Graph W
  units : List (List Nat)

namespace Contraction

variable {W : Type}

/-- The Ops that one unit stands for. -/
def unit (c : Contraction W) (u : Nat) : List Nat := c.units.getD u []

/-- Spell out an order of units, if all of them exist. -/
def expand? (c : Contraction W) (order : List Nat) : Option (List Nat) :=
  (order.mapM fun u => c.units[u]?).map List.flatten

/-- Spell out an order of units. -/
def expand (c : Contraction W) (order : List Nat) : List Nat := order.flatMap c.unit

end Contraction

namespace Graph

variable {W : Type}

/-- Check that the Ops of chains exist and that none comes twice. -/
def checkDistinct (g : Graph W) (seen : List Nat) : List Nat → Except Error Unit
  | [] => .ok ()
  | a :: rest => do
    g.checkOp a
    if seen.contains a then throw (.duplicateOp a)
    g.checkDistinct (a :: seen) rest

/-- The first constraint from an Op of a chain to an earlier Op of it. -/
def backwardIn? (g : Graph W) (earlier : List Nat) : List Nat → Option (Nat × Nat)
  | [] => none
  | a :: rest =>
    match (g.op a).outs.find? earlier.contains with
    | some b => some (a, b)
    | none => g.backwardIn? (a :: earlier) rest

/-- The chains, and then each remaining Op as a unit of its own. -/
def unitsOf (g : Graph W) (chains : List (List Nat)) : List (List Nat) :=
  let members := chains.flatten
  let alone := (List.range g.opCount).filter fun a => !members.contains a
  chains ++ alone.map fun a => [a]

/-- For every Op the index of the first unit it is in. -/
def unitIndices (g : Graph W) (units : List (List Nat)) : Array Nat :=
  ((List.range g.opCount).map fun a => units.findIdx fun unit => unit.contains a).toArray

/-- The Op that stands for a unit. It is named after the members, needs all of their
Allocs, and has all of their constraints with other units. -/
def unitOp (g : Graph W) (indices : Array Nat) (u : Nat) (unit : List Nat) : Op :=
  let others (next : Op → List Nat) :=
    Ascending.ofList (((unit.flatMap fun a => next (g.op a)).map fun a => indices.getD a 0).filter
      fun v => v != u)
  { address := u
    name := "(" ++ " ".intercalate (unit.map fun a => (g.op a).name) ++ ")"
    ins := others Op.ins
    outs := others Op.outs
    allocs := Ascending.ofList (unit.flatMap fun a => (g.op a).allocs)
    fwdLink := none
    bwdLink := none }

/-- An Alloc with its Ops replaced by their units. -/
def unitAlloc (indices : Array Nat) (alloc : Alloc W) : Alloc W :=
  { alloc with ops := Ascending.ofList (alloc.ops.map fun a => indices.getD a 0) }

/-- Contract each chain to a unit. Units of chains come first, in the order of the
chains, then the remaining Ops by address. Links are left out. -/
def contract (g : Graph W) (chains : List (List Nat)) : Except Error (Contraction W) := do
  g.checkDistinct [] chains.flatten
  match chains.findSome? (g.backwardIn? []) with
  | some (a, b) => throw (.chainCycle a b)
  | none =>
    let units := g.unitsOf chains
    let indices := g.unitIndices units
    let ops := units.zipIdx.map fun p => g.unitOp indices p.2 p.1
    return ⟨⟨ops.toArray, g.allocs.map (unitAlloc indices)⟩, units⟩

def contractLinks (g : Graph W) : Except Error (Contraction W) := g.contract g.linkChains

def contractTight (g : Graph W) : Except Error (Contraction W) := g.contract g.tightChains

end Graph

end Liveness
