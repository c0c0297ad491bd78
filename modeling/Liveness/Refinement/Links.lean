import Liveness.Refinement.Draft

/-! # Passes over links

Constraints of a chain of links can be moved to its ends, since the chain is scheduled
as a whole. A tight pair is linked where running its second Op at once costs nothing:
when it lowers the liveness enough, or when no other Op has bounds that overlap.
-/

namespace Liveness

namespace Graph

variable {W : Type}

/-- Let a constraint start at the tail of a chain. -/
def slideToTail (tail : Nat) (a : Nat) (g : Graph W) (b : Nat) : Except Error (Graph W) := do
  (← g.unconstrain a b).constrain tail b

/-- Let a constraint end at the head of a chain. -/
def slideToHead (head : Nat) (a : Nat) (g : Graph W) (b : Nat) : Except Error (Graph W) := do
  (← g.unconstrain b a).constrain b head

/-- Move the constraints of one Op of a chain with Ops outside to the ends of the chain,
and tell whether there were any. -/
def slideOp (chain : List Nat) (head tail : Nat) (state : Graph W × Bool) (a : Nat) :
    Except Error (Graph W × Bool) := do
  let (g, changed) := state
  let outside (bs : List Nat) := bs.filter fun b => !chain.contains b
  let outs := if a = tail then [] else outside (g.op a).outs
  let g ← outs.foldlM (slideToTail tail a) g
  let ins := if a = head then [] else outside (g.op a).ins
  let g ← ins.foldlM (slideToHead head a) g
  return (g, changed || !outs.isEmpty || !ins.isEmpty)

/-- Move the constraints of a chain with Ops outside to its ends. -/
def slideChain (state : Graph W × Bool) (chain : List Nat) : Except Error (Graph W × Bool) :=
  match chain.head?, chain.getLast? with
  | some head, some tail => chain.foldlM (slideOp chain head tail) state
  | _, _ => .ok state

/-- Move the constraints of all chains of links to their ends. -/
def slideLinks (g : Graph W) : Except Error (Refined W) := do
  let (g, changed) ← g.linkChains.foldlM slideChain (g, false)
  return ⟨g, changed, []⟩

/-- Insert each link with which the graph can still be scheduled, and count them. -/
def linkWherePossible (g : Graph W) (pairs : List (Nat × Nat)) :
    Except Error (Graph W × Nat) :=
  pairs.foldlM
    (fun state p => do
      let (g, count) := state
      if g.canLink p.1 p.2 then return (← g.link p.1 p.2, count + 1) else return (g, count))
    (g, 0)

/-- Whether neither side of a pair is linked already. -/
def isFree (g : Graph W) (a b : Nat) : Bool := !(g.op a).hasFwdLink && !(g.op b).hasBwdLink

end Graph

namespace Draft

variable {W : Type} [Weight W]

/-- The tight pairs of which the second Op lowers the liveness by at least as much as
the first can raise it. -/
def tightDrops (d : Draft W) : List (Nat × Nat) :=
  d.graph.tightPairs.filter fun p =>
    Weight.le (d.upper p.2) (d.lower p.1) && d.graph.isFree p.1 p.2

def linkTightDrops (d : Draft W) : Except Error (Refined W) := do
  let (g, count) ← d.graph.linkWherePossible d.tightDrops
  return ⟨g, 0 < count, [.dropsLinked count]⟩

/-- Whether an Op that can come on either side of `a` has bounds that overlap those of
the pair of `a` and `b`. -/
def overlaps (d : Draft W) (a b : Nat) : Bool :=
  let low := Weight.min (d.lower a) (d.lower b)
  let high := Weight.max (d.upper a) (d.upper b)
  (List.range d.graph.opCount).any fun x =>
    x != a && d.closure.unordered x a && Weight.lt low (d.upper x) && Weight.lt (d.lower x) high

/-- The tight pairs whose bounds no other Op overlaps. -/
def closePairs (d : Draft W) : List (Nat × Nat) :=
  d.graph.tightPairs.filter fun p => d.graph.isFree p.1 p.2 && !d.overlaps p.1 p.2

def linkClosePairs (d : Draft W) : Except Error (Refined W) := do
  let (g, count) ← d.graph.linkWherePossible d.closePairs
  return ⟨g, 0 < count, [.closePairsLinked count]⟩

end Draft

end Liveness
