import Liveness.Decimal.Reader
import Liveness.Schedule.Priority
import Liveness.Text.Blank

/-! # Settings

How a graph is to be scheduled: the rule among ready units, the way moves are priced,
the budget of the improvement phase, the passes to run before, and how much is logged.
Settings can be given as pairs of texts. Priorities and the time limit are doubles when
run; what follows from settings does not depend on which numbers they are.
-/

namespace Liveness

/-- The rule that picks among the ready units of highest priority. -/
inductive TieBreak where
  | random
  | greedy
  | fifo
  deriving DecidableEq, Repr

/-- How the moves of a window are priced. -/
inductive Search where
  | simple
  | ripple
  deriving DecidableEq, Repr

/-- What the improvement phase may use up, with a time limit in the numbers `R`. -/
structure BudgetOver (R : Type) where
  timeLimit : R
  swapLimit : Int

abbrev Budget := BudgetOver Float

/-- The passes that are switched on, and the number of rounds they may take. -/
structure Passes where
  on : List Pass
  maxRounds : Nat
  deriving DecidableEq, Repr

/-- Everything that decides how a graph is scheduled, with priorities and a time limit in
the numbers `R`. An Op without a priority has priority zero. With `checked` set, every
price is compared with that of the simple search, and the schedule is checked after every
move. -/
structure SettingsOver (R : Type) where
  tieBreak : TieBreak
  priorities : List (Nat × R)
  search : Search
  budget : BudgetOver R
  seed : UInt64
  checked : Bool
  onlySusceptible : Bool
  passes : Passes
  verbosity : Nat

/-- Settings with doubles. -/
abbrev Settings := SettingsOver Float

namespace TieBreak

def name : TieBreak → String
  | .random => "Random"
  | .greedy => "Greedy"
  | .fifo => "Fifo"

/-- The rule of the given name, whatever the case of its letters. -/
def ofName (text : String) : Except Error TieBreak :=
  match String.ofList (text.toList.map Char.toLower) with
  | "random" => .ok .random
  | "greedy" => .ok .greedy
  | "fifo" => .ok .fifo
  | _ => .error (.invalidSetting (.unknownTieBreak text))

end TieBreak

namespace Search

def name : Search → String
  | .simple => "Simple"
  | .ripple => "Ripple"

/-- The search of the given name, whatever the case of its letters. -/
def ofName (text : String) : Except Error Search :=
  match String.ofList (text.toList.map Char.toLower) with
  | "simple" => .ok .simple
  | "ripple" => .ok .ripple
  | _ => .error (.invalidSetting (.unknownSearch text))

end Search

/-- Whether a budget allows nothing at all. -/
def BudgetOver.isExhausted {R : Type} [Priority R] (b : BudgetOver R) : Bool :=
  Priority.atLeast 0 b.timeLimit || b.swapLimit ≤ 0

namespace Budget

def longest : Float := Float.ofBits 0x7fefffffffffffff

def mostSwaps : Int := 0x7fffffffffffffff

/-- A budget that is never used up. -/
def unbounded : Budget := ⟨longest, mostSwaps⟩

/-- A budget that keeps the first schedule. -/
def nothing : Budget := ⟨0.0, 0⟩

end Budget

namespace Passes

def allOff : Passes := ⟨[], 4⟩

def allOn : Passes := ⟨Pass.all, 4⟩

/-- The passes that are on, in running order. -/
def enabled (p : Passes) : List Pass := Pass.all.filter p.on.contains

end Passes

namespace Settings

/-- The settings that hold where nothing else is said. -/
def standard : Settings where
  tieBreak := .greedy
  priorities := []
  search := .ripple
  budget := Budget.unbounded
  seed := 1011
  checked := false
  onlySusceptible := true
  passes := Passes.allOff
  verbosity := 0

/-- Read a natural number below `2 ^ 64`. -/
def readWord? (text : String) : Option UInt64 :=
  let ds := match text.toList with
    | '+' :: ds => ds
    | ds => ds
  let value := Decimal.digitsValue ds
  if ds.isEmpty || !ds.all Char.isDigit || 1 <<< 64 ≤ value then none
  else some (UInt64.ofNat value)

/-- Read an integer of 64 bits with sign. -/
def readInt? (text : String) : Option Int :=
  let (negative, ds) := Decimal.splitSign text.toList
  let value : Int := Decimal.digitsValue ds
  let value := if negative then -value else value
  let fits := -Budget.mostSwaps - 1 ≤ value && value ≤ Budget.mostSwaps
  if ds.isEmpty || !ds.all Char.isDigit || !fits then none else some value

/-- Read a truth value. -/
def readBool? (text : String) : Option Bool :=
  match text with
  | "true" => some true
  | "false" => some false
  | _ => none

/-- Read the trimmed value of a key. -/
def readValue {α : Type} (read? : String → Option α) (key text : String) : Except Error α :=
  match read? (Text.trim text) with
  | some value => .ok value
  | none => .error (.invalidSetting (.badValue text key))

/-- Change the setting of one key. -/
def set (s : Settings) (key text : String) : Except Error Settings :=
  match key with
  | "kahnTieBreaker" => do return { s with tieBreak := ← TieBreak.ofName text }
  | "seed" => do return { s with seed := ← readValue readWord? key text }
  | "timeLimitSeconds" => do
    let limit ← readValue Decimal.read? key text
    return { s with budget := { s.budget with timeLimit := limit } }
  | "swapLimitCount" => do
    let limit ← readValue readInt? key text
    return { s with budget := { s.budget with swapLimit := limit } }
  | "rotationAlgo" => do return { s with search := ← Search.ofName text }
  | "debug" => do return { s with checked := ← readValue readBool? key text }
  | "filterSusceptible" => do
    return { s with onlySusceptible := ← readValue readBool? key text }
  | "allTCOs" => do
    let on ← readValue readBool? key text
    return { s with passes := if on then Passes.allOn else Passes.allOff }
  | _ => throw (.invalidSetting (.unknownKey key))

/-- The settings that pairs of key and text describe. -/
def ofPairs (pairs : List (String × String)) : Except Error Settings :=
  pairs.foldlM (fun s p => s.set p.1 p.2) standard

end Settings

end Liveness
