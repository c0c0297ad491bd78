import Liveness.Random.Source
import Liveness.Random.Stream

/-! # Random indices and orders

An index below a bound is the high part of a word times the bound; a second word
removes most of the bias. A list is shuffled by swapping each element with one at or
before it, where one draw serves several swaps. So whatever is drawn, a shuffle only reorders.
-/

namespace Liveness.Random

/-- The number of values of a word. -/
def words : Nat := 1 <<< 32

/-- Draw an index below `r`. -/
def below (g : Generator) (r : Nat) : Nat × Generator :=
  let (w, g) := g.next
  let p := w.toNat * r
  let high := p / words
  let low := p % words
  if low ≤ words - r then (high, g)
  else
    let (w, g) := g.next
    let carry := if words ≤ low + w.toNat * r / words then 1 else 0
    (high + carry, g)

/-- The indices that one draw still serves. -/
structure Chunk where
  value : Nat
  remaining : Nat
  generator : Generator

namespace Chunk

/-- Multiply `p` by the numbers from `c` on while the product stays below `2 ^ 32`, and
return it with the first number left out. -/
def product : Nat → Nat → Nat → Nat × Nat
  | 0, p, c => (p, c)
  | steps + 1, p, c => if p * c < words then product steps (p * c) (c + 1) else (p, c)

/-- Draw for the index below `m` and as many following ones as fit one word. -/
def refill (g : Generator) (m : Nat) : Chunk :=
  let (p, c) := product 32 m (m + 1)
  let (value, g) := below g p
  ⟨value, c - m - 1, g⟩

def next (c : Chunk) (m : Nat) : Nat × Chunk :=
  let c := if c.remaining = 0 then refill c.generator m
    else { c with remaining := c.remaining - 1 }
  if c.remaining = 0 then (c.value, c)
  else (c.value % m, { c with value := c.value / m })

end Chunk

/-- Swap the elements from index `i` on, each with one at or before it. -/
def shuffleFrom {α : Type} : Nat → Nat → Chunk → Array α → Array α
  | 0, _, _, xs => xs
  | left + 1, i, c, xs =>
    let (j, c) := c.next (i + 1)
    shuffleFrom left (i + 1) c (xs.swapIfInBounds i j)

/-- The elements in an order drawn from the generator. -/
def shuffle {α : Type} (g : Generator) (xs : Array α) : Array α :=
  if xs.size ≤ 1 then xs else shuffleFrom xs.size 0 ⟨0, 1, g⟩ xs

/-- A drawn index is below the bound. -/
theorem below_lt (g : Generator) {r : Nat} (hr : 0 < r) :
    (below g r).1 < r := by
  have hwords : words = 4294967296 := rfl
  have hprod : ∀ w : UInt32, w.toNat * r ≤ 4294967295 * r := fun w =>
    Nat.mul_le_mul_right r (Nat.le_of_lt_succ w.toNat_lt)
  unfold below
  rw [hwords]
  dsimp only
  have hp := hprod g.next.1
  generalize g.next.1.toNat * r = p at hp ⊢
  split
  · dsimp only
    omega
  · -- with the highest index the low part would be small enough
    dsimp only
    split <;> omega

section

variable {α : Type}

theorem swapIfInBounds_perm (xs : Array α) (i j : Nat) :
    (xs.swapIfInBounds i j).toList.Perm xs.toList := by
  unfold Array.swapIfInBounds
  split
  · split
    · exact (Array.swap_perm _ _).toList
    · exact List.Perm.refl _
  · exact List.Perm.refl _

theorem shuffleFrom_perm (left i : Nat) (c : Chunk) (xs : Array α) :
    (shuffleFrom left i c xs).toList.Perm xs.toList := by
  induction left generalizing i c xs with
  | zero => exact List.Perm.refl _
  | succ left ih => exact (ih _ _ _).trans (swapIfInBounds_perm _ _ _)

theorem shuffle_perm (g : Generator) (xs : Array α) : (shuffle g xs).toList.Perm xs.toList := by
  unfold shuffle
  split
  · exact List.Perm.refl _
  · exact shuffleFrom_perm _ _ _ _

end

/-- The words of the cipher stream as a source. -/
def chaCha : Source where
  State := Generator
  ofSeed := Generator.ofSeed
  below := below
  shuffle := shuffle
  below_lt g _ hn := below_lt g hn
  shuffle_perm := shuffle_perm

end Liveness.Random
