/-! # A stream of random words

The words of the ChaCha stream cipher with twelve rounds, keyed by a seed. A generator
is a value: drawing from it gives a word and the generator that goes on after it.
-/

namespace Liveness.Random

/-- The sixteen words of a cipher block. -/
abbrev Block := Array UInt32

def rotateLeft (x : UInt32) (k : UInt32) : UInt32 := (x <<< k) ||| (x >>> (32 - k))

def wordAt (b : Block) (i : Nat) : UInt32 := b.getD i 0

/-- Add word `y` to word `x`, mix the sum into word `z`, and rotate that. -/
def mix (x y z : Nat) (k : UInt32) (b : Block) : Block :=
  let b := b.setIfInBounds x (wordAt b x + wordAt b y)
  b.setIfInBounds z (rotateLeft (wordAt b z ^^^ wordAt b x) k)

/-- The quarter round on four words. -/
def quarterRound (x y z w : Nat) (b : Block) : Block :=
  mix z w y 7 (mix x y w 8 (mix z w y 12 (mix x y w 16 b)))

/-- A round over the columns followed by a round over the diagonals. -/
def doubleRound (b : Block) : Block :=
  let b := quarterRound 0 4 8 12 b
  let b := quarterRound 1 5 9 13 b
  let b := quarterRound 2 6 10 14 b
  let b := quarterRound 3 7 11 15 b
  let b := quarterRound 0 5 10 15 b
  let b := quarterRound 1 6 11 12 b
  let b := quarterRound 2 7 8 13 b
  quarterRound 3 4 9 14 b

def repeated {α : Type} (f : α → α) : Nat → α → α
  | 0, x => x
  | n + 1, x => repeated f n (f x)

/-- The words with which every block starts. -/
def constants : List UInt32 := [0x61707865, 0x3320646e, 0x79622d32, 0x6b206574]

/-- The block of a key at a position of the stream. -/
def block (key : List UInt32) (counter : UInt64) : Block :=
  let start := (constants ++ key ++ [counter.toUInt32, (counter >>> 32).toUInt32, 0, 0]).toArray
  Array.zipWith (· + ·) start (repeated doubleRound 6 start)

/-- The key words of a seed: a linear congruence is stepped, and each state is permuted
to one word. -/
def keyWords : Nat → UInt64 → List UInt32
  | 0, _ => []
  | n + 1, state =>
    let state := state * 6364136223846793005 + 11634580027462260723
    let x := (((state >>> 18) ^^^ state) >>> 27).toUInt32
    let k := (state >>> 59).toUInt32
    ((x >>> k) ||| (x <<< ((32 - k) % 32))) :: keyWords n state

/-- A key, the position of the next block, and the words of the last block not drawn yet. -/
structure Generator where
  key : List UInt32
  counter : UInt64
  pending : List UInt32
  deriving DecidableEq, Repr

namespace Generator

def ofSeed (seed : UInt64) : Generator := ⟨keyWords 8 seed, 0, []⟩

def next (g : Generator) : UInt32 × Generator :=
  match g.pending with
  | w :: rest => (w, { g with pending := rest })
  | [] =>
    match (block g.key g.counter).toList with
    | w :: rest => (w, { g with counter := g.counter + 1, pending := rest })
    | [] => (0, g)

end Generator

end Liveness.Random
