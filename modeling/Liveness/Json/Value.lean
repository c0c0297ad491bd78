/-! # JSON as it is written

A value keeps its numbers as they are spelled, because an integer and a number with a
point are read differently. A string that spells half of a surrogate pair has no text,
which matters only to a reader that asks for it.
-/

namespace Liveness.Json

/-- A number as it is spelled. -/
structure Numeral where
  negative : Bool
  whole : List Char
  fraction : Option (List Char)
  exponent : Option (Bool × List Char)
  deriving DecidableEq, Repr

/-- A JSON value. The members of an object keep their order and may repeat. -/
inductive Value where
  | null
  | boolean (b : Bool)
  | number (n : Numeral)
  | string (text : Option String)
  | array (items : List Value)
  | object (members : List (Option String × Value))

end Liveness.Json
