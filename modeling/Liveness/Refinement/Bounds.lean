import Liveness.Closure.Query
import Liveness.Weight.Binary64

/-! # Bounds on the change of liveness

Scheduling an Op makes every Alloc live of which it is the first Op, and frees every
Alloc of which it is the last. How far that can raise or lower the liveness follows
from what is known about the ends of each Alloc.
-/

namespace Liveness

/-- The least and the greatest change of liveness from scheduling an Op. -/
structure Bounds (W : Type) where
  lower : W
  upper : W
  deriving DecidableEq, Repr

namespace Bounds

variable {W : Type} [Weight W]

def zero : Bounds W := ⟨0, 0⟩

/-- The range of a change that happens always, sometimes or never. -/
def range (w : W) : Verdict → Bounds W
  | .always => ⟨w, w⟩
  | .never => ⟨0, 0⟩
  | .sometimes => ⟨Weight.min w 0, Weight.max w 0⟩

/-- Add what an Alloc of weight `w` contributes, given whether the Op is its first and
its last Op. -/
def widen (b : Bounds W) (w : W) (status : Verdict × Verdict) : Bounds W :=
  let starts := range w status.1
  let ends := range (Weight.neg w) status.2
  ⟨b.lower + (starts.lower + ends.lower), b.upper + (starts.upper + ends.upper)⟩

/-- The bounds of an Op, those without Allocs for an address without one. -/
def lookup (bounds : Array (Bounds W)) (a : Nat) : Bounds W := bounds.getD a zero

/-- Add what one Alloc contributes to each of its Ops. -/
def addAlloc (c : Closure) (bounds : Array (Bounds W)) (alloc : Alloc W) : Array (Bounds W) :=
  (alloc.ops.zip (c.allExtremes alloc.ops)).foldl
    (fun bounds p => bounds.modify p.1 fun b => b.widen alloc.weight p.2) bounds

/-- The bounds of all Ops, Alloc by Alloc. -/
def ofGraph (g : Graph W) (c : Closure) : Array (Bounds W) :=
  g.allocs.toList.foldl (addAlloc c) (Array.replicate g.opCount zero)

end Bounds

end Liveness
