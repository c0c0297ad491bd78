import Liveness.Schedule.Window

/-! # Rooms in place

The rooms of all windows as they are computed index by index, where every index has to be in
range and no difference may be below zero; otherwise there is no result. Windows that grow
by one have their rooms carried over in one pass, which overwrites each room while those of
the windows behind are still the old ones.
-/

namespace Liveness

/-- A difference that is not below zero. -/
def minus? (m n : Nat) : Option Nat := if n ≤ m then some (m - n) else none

/-- Overwrite an entry that is there. -/
def overwrite? (xs : Array Nat) (i v : Nat) : Option (Array Nat) :=
  if i < xs.size then some (xs.setIfInBounds i v) else none

/-- How far each window can go back and ahead. -/
structure Rooms where
  back : Array Nat
  ahead : Array Nat
  deriving DecidableEq, Repr

namespace Schedule

variable {W : Type}

/-- The recorded rooms. -/
def rooms (s : Schedule W) : Rooms := ⟨s.roomBack, s.roomAhead⟩

/-- How many of some ascending places are before a place. -/
def countBefore (place : Nat) (places : List Nat) : Nat := places.findIdx fun p => place ≤ p

/-- The last one of some ascending places that is before a place, if there is one. -/
def lastBefore? (place : Nat) (places : List Nat) : Option (Option Nat) :=
  match countBefore place places with
  | 0 => some none
  | count + 1 => places[count]?.map some

/-- The first one of some ascending places that is not before a place, if there is one. -/
def firstFrom (place : Nat) (places : List Nat) : Option Nat := places[countBefore place places]?

/-- The Ops of a window. -/
def window? (s : Schedule W) (start n : Nat) : Option (List Nat) :=
  (List.range' start n).mapM fun i => s.ops[i]?

/-- How far the window of size `n` at `start` can go back. -/
def roomBackAt? (s : Schedule W) (n start : Nat) : Option Nat := do
  let window ← s.window? start n
  let found ← window.mapM fun a => do lastBefore? start (← s.inPlaces[a]?)
  match (found.filterMap id).max? with
  | some p => minus? (← minus? start p) 1
  | none => some start

/-- How far the window of size `n` at `start` can go ahead. -/
def roomAheadAt? (s : Schedule W) (n start : Nat) : Option Nat := do
  let window ← s.window? start n
  let found ← window.mapM fun a => do return firstFrom (start + n) (← s.outPlaces[a]?)
  minus? (← minus? ((found.filterMap id).min?.getD s.opCount) start) n

/-- Compute how far each window of size `n` can move. -/
def rooms? (s : Schedule W) (n : Nat) : Option Rooms := do
  let starts := List.range (s.windowCount n)
  let back ← starts.mapM (s.roomBackAt? n)
  let ahead ← starts.mapM (s.roomAheadAt? n)
  return ⟨back.toArray, ahead.toArray⟩

/-- Carry over how far the window of size `n` at `i` can go back. -/
def growBack? (s : Schedule W) (n : Nat) (back : Array Nat) (i : Nat) : Option (Array Nat) := do
  let a ← s.ops[← minus? (i + n) 1]?
  match ← lastBefore? i (← s.inPlaces[a]?) with
  | some p => overwrite? back i (min (← back[i]?) (← minus? (← minus? i 1) p))
  | none => some back

/-- Carry over how far the window of size `n` at `i` can go ahead, from the window behind it. -/
def growAhead? (s : Schedule W) (n : Nat) (ahead : Array Nat) (i : Nat) : Option (Array Nat) := do
  if i + 1 = s.windowCount n then overwrite? ahead i 0
  else
    let room ← ahead[i + 1]?
    let a ← s.ops[i]?
    match firstFrom (i + n) (← s.outPlaces[a]?) with
    | some c => overwrite? ahead i (min room (← minus? c (i + n)))
    | none => overwrite? ahead i room

def growAt? (s : Schedule W) (n : Nat) (rooms : Rooms) (i : Nat) : Option Rooms := do
  return ⟨← s.growBack? n rooms.back i, ← s.growAhead? n rooms.ahead i⟩

/-- Carry the rooms over from windows of one size to windows of size `n`, one larger. -/
def grownRooms? (s : Schedule W) (n : Nat) : Option Rooms :=
  (List.range (s.windowCount n)).foldlM (s.growAt? n) ⟨s.roomBack.pop, s.roomAhead.pop⟩

end Schedule

end Liveness
