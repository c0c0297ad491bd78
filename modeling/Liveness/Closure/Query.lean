import Liveness.Ascending
import Liveness.Closure.Basic
import Liveness.Random.Source

/-! # Questions about all orders

What the closure says about every order of the edges at once: the sets of nodes on one
side of others, the range of places of a node, the first and last of a set, and how
many places a set can span.
-/

namespace Liveness

/-- Whether something holds in every order, in some but not all, or in none. -/
inductive Verdict where
  | always
  | sometimes
  | never
  deriving DecidableEq, Repr

/-- The nodes that are always before, sometimes before and sometimes after, or never
before `op`, where no node is on a side of itself. -/
structure Filter where
  side : Verdict
  op : Nat
  deriving DecidableEq, Repr

namespace Filter

/-- A seed that a list of filters gives. -/
def seedOf (filters : List Filter) : UInt64 :=
  filters.foldl (fun seed f => seed * 0x9E3779B97F4A7C15 + UInt64.ofNat f.op)
    (UInt64.ofNat filters.length)

/-- The filters in an order drawn from their seed, which only changes how soon a set is known. -/
def shuffled (source : Random.Source) (filters : List Filter) : List Filter :=
  (source.shuffle (source.ofSeed (seedOf filters)) filters.toArray).toList

end Filter

/-- The bounds `low ≤ span < high` on the number of places that a set spans. -/
structure SpanBound where
  low : Nat
  high : Nat
  deriving DecidableEq, Repr

namespace Closure

def select (c : Closure) (f : Filter) : Words c.size :=
  let before := Rows.row c.before f.op
  let after := Rows.row c.after f.op
  match f.side with
  | .always => before
  | .never => after
  | .sometimes => ((Words.full c.size).diff (before.union after)).erase f.op

/-- Narrow a set by filters, until none is left or the set is empty. -/
def narrow (c : Closure) (found : Words c.size) : List Filter → Words c.size
  | [] => found
  | f :: rest =>
    let found := found.inter (c.select f)
    if found.isEmpty then found else c.narrow found rest

/-- Widen a set by filters, until none is left or all nodes are in it. -/
def widen (c : Closure) (found : Words c.size) : List Filter → Words c.size
  | [] => found
  | f :: rest =>
    let found := found.union (c.select f)
    if found = Words.full c.size then found else c.widen found rest

variable (source : Random.Source)

/-- The nodes that every filter selects; without filters, all nodes. -/
def allOf (c : Closure) (filters : List Filter) : List Nat :=
  (c.narrow (Words.full c.size) (Filter.shuffled source filters)).nodes

/-- The nodes that at least one filter selects. -/
def anyOf (c : Closure) (filters : List Filter) : List Nat :=
  (c.widen (Words.empty c.size) (Filter.shuffled source filters)).nodes

/-- The number of nodes that every filter selects. -/
def countOf (c : Closure) (filters : List Filter) : Nat :=
  (c.narrow (Words.full c.size) (Filter.shuffled source filters)).count

/-- Whether all nodes of a list have the same nodes on one side. -/
def sameSide (c : Closure) (side : Verdict) : List Nat → Bool
  | [] => true
  | a :: rest => rest.all fun b => c.select ⟨side, b⟩ == c.select ⟨side, a⟩

def earliest (c : Closure) (a : Nat) : Nat := (Rows.row c.before a).count

def latest (c : Closure) (a : Nat) : Nat :=
  c.size - (Rows.row c.after a).count - 1

/-- Whether a node leads others: never if one of them beats it, always if it beats all. -/
def verdict (beats : Nat → Nat → Bool) (a : Nat) (others : List Nat) : Verdict :=
  if others.any fun b => beats b a then .never
  else if others.all fun b => beats a b then .always
  else .sometimes

/-- Whether `a` is the first of a set, and whether it is the last. -/
def extremes (c : Closure) (a : Nat) (ids : List Nat) : Verdict × Verdict :=
  let others := ids.filter fun b => b != a
  (verdict c.precedes a others, verdict (fun b a => c.precedes a b) a others)

def allExtremes (c : Closure) (ids : List Nat) : List (Verdict × Verdict) :=
  ids.map fun a => c.extremes a ids

/-- Whether `x` can be after one node of a set and before a different one. -/
def canBeInside (c : Closure) (ids : List Nat) (x : Nat) : Bool :=
  let followable := ids.filter fun a => !c.precedes x a
  let precedable := ids.filter fun b => !c.precedes b x
  match followable, precedable with
  | a :: follow, b :: precede => !follow.isEmpty || !precede.isEmpty || a != b
  | _, _ => false

/-- Bounds on the span of a set: with every node that is always inside it, and with
every node that can be inside it. -/
def spanBound (c : Closure) (ids : List Nat) : SpanBound :=
  let members := Ascending.ofList ids
  if members.isEmpty then ⟨0, 1⟩
  else
    let taken := members.foldl (fun s a => s.insert a) (Words.empty c.size)
    let afterSome := members.foldl (fun s a => s.union (Rows.row c.after a)) (Words.empty c.size)
    let beforeSome := members.foldl (fun s a => s.union (Rows.row c.before a)) (Words.empty c.size)
    let between := (afterSome.inter beforeSome).diff taken
    let outside := (List.range c.size).filter fun x => !taken.testBit x
    let possible := outside.filter (c.canBeInside members)
    ⟨members.length + between.count, members.length + possible.length + 1⟩

/-- The edges that other paths imply. -/
def implied (c : Closure) (edges : Edges) : Edges :=
  let reversed := edges.reverse
  edges.mapIdx fun a outs =>
    outs.filter fun b => (reversed.outs b).any fun other => c.precedes a other

def impliedPairs (c : Closure) (edges : Edges) : List (Nat × Nat) :=
  (c.implied edges).toList.zipIdx.flatMap fun p => p.1.map fun b => (p.2, b)

end Closure

end Liveness
