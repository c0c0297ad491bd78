import Liveness.Refinement.Draft

/-! # Passes over Allocs

An Alloc that costs the same in every schedule, or nothing, can be left out; so can an
Op that is always strictly inside the span of an Alloc. Allocs of the same Ops can be
taken together.
-/

namespace Liveness.Graph

variable {W : Type} [Weight W]

/-- The addresses of the Allocs for which a condition holds. -/
def allocsWhere (g : Graph W) (p : Alloc W → Bool) : List Nat :=
  (g.allocs.toList.filter p).map Alloc.address

/-- Leave out the Allocs for which a condition holds. -/
def dropWhere (g : Graph W) (p : Alloc W → Bool) : Except Error (Refined W) := do
  let dropped := g.allocsWhere p
  let g ← dropped.foldlM releaseAll g
  return ⟨g, !dropped.isEmpty, []⟩

/-- Leave out Allocs of weight zero. -/
def dropWeightless (g : Graph W) : Except Error (Refined W) :=
  g.dropWhere fun alloc => !alloc.ops.isEmpty && Weight.same alloc.weight 0

/-- Leave out Allocs of a single Op, which are live at one place in every schedule. -/
def dropSolitary (g : Graph W) : Except Error (Refined W) :=
  g.dropWhere fun alloc => alloc.ops.length == 1

/-- Leave out Allocs that span the same number of places in every schedule. -/
def dropFixed (g : Graph W) (c : Closure) : Except Error (Refined W) :=
  g.dropWhere fun alloc =>
    let bound := c.spanBound alloc.ops
    !alloc.ops.isEmpty && bound.high == bound.low + 1

/-- The Ops of an Alloc that are never its first and never its last. -/
def innerOps (c : Closure) (alloc : Alloc W) : List Nat :=
  alloc.ops.filter fun a => c.extremes a alloc.ops == (.never, .never)

/-- Leave out Ops that are always strictly inside the span of an Alloc. -/
def dropInner (g : Graph W) (c : Closure) : Except Error (Refined W) := do
  let pairs := g.allocs.toList.flatMap fun alloc =>
    (innerOps c alloc).map fun a => (a, alloc.address)
  let g ← pairs.foldlM (fun g p => g.release p.1 p.2) g
  return ⟨g, !pairs.isEmpty, []⟩

/-- The Allocs after the given one with the same Ops. -/
def twins (g : Graph W) (alloc : Alloc W) : List (Alloc W) :=
  g.allocs.toList.filter fun other => alloc.address < other.address && other.ops == alloc.ops

/-- The first Allocs of each set of Ops that several Allocs have. -/
def leaders (g : Graph W) : List (Alloc W) :=
  g.allocs.toList.filter fun alloc =>
    let isFirst := g.allocs.toList.all fun other =>
      alloc.address ≤ other.address || other.ops != alloc.ops
    !alloc.ops.isEmpty && isFirst && !(g.twins alloc).isEmpty

/-- Let one Alloc take over the weights of others, which are left out. -/
def absorb (g : Graph W) (alloc : Alloc W) (others : List (Alloc W)) :
    Except Error (Graph W) := do
  let weight := others.foldl (fun w other => w + other.weight) alloc.weight
  let g ← others.foldlM (fun g other => g.releaseAll other.address) g
  g.reweigh alloc.address weight

/-- Take together the Allocs of the same Ops. -/
def combine (g : Graph W) : Except Error (Refined W) := do
  let leaders := g.leaders
  let combined ← leaders.foldlM (fun h alloc => h.absorb alloc (g.twins alloc)) g
  return ⟨combined, !leaders.isEmpty, []⟩

end Liveness.Graph
