/-! # Sources of random numbers

What a program that draws asks of its source: a state for every seed, indices below a bound, and
a list in another order. Nothing is known about which index or which order is drawn.
-/

namespace Liveness.Random

/-- A source of random indices and orders. -/
structure Source where
  State : Type
  ofSeed : UInt64 → State
  below : State → Nat → Nat × State
  shuffle : {α : Type} → State → Array α → Array α
  below_lt : ∀ s {n}, 0 < n → (below s n).1 < n
  shuffle_perm : ∀ {α : Type} s (xs : Array α), (shuffle s xs).toList.Perm xs.toList

end Liveness.Random
