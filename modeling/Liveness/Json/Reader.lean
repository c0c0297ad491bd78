import Liveness.Decimal.Reader
import Liveness.Json.Value

/-! # Reading JSON

The grammar in its strict form: no comments, no trailing commas, no leading zeros, no
raw control characters in strings. Only the four blank characters of the format may
stand between tokens.
-/

namespace Liveness.Json

/-- Whether a character may stand between tokens. -/
def isSpace (c : Char) : Bool := c = ' ' || c = '\t' || c = '\n' || c = '\r'

def skipSpace (cs : List Char) : List Char := cs.dropWhile isSpace

/-- A part of a string: a character, or a unit of 16 bits given by its digits. -/
inductive Piece where
  | character (c : Char)
  | codeUnit (n : Nat)
  deriving DecidableEq, Repr

namespace Piece

/-- Whether a unit is the first half of a surrogate pair. -/
def isHigh (n : Nat) : Bool := 0xd800 ≤ n && n < 0xdc00

/-- Whether a unit is the second half of a surrogate pair. -/
def isLow (n : Nat) : Bool := 0xdc00 ≤ n && n < 0xe000

/-- The characters of the pieces, unless half of a surrogate pair stands alone. -/
def characters? : List Piece → Option (List Char)
  | [] => some []
  | .character c :: rest => (characters? rest).map (c :: ·)
  | [.codeUnit n] => if isHigh n || isLow n then none else some [Char.ofNat n]
  | .codeUnit n :: .codeUnit m :: rest =>
    if isHigh n then
      if isLow m then
        let c := Char.ofNat (0x10000 + (n - 0xd800) * 0x400 + (m - 0xdc00))
        (characters? rest).map (c :: ·)
      else none
    else if isLow n then none
    else (characters? (.codeUnit m :: rest)).map (Char.ofNat n :: ·)
  | .codeUnit n :: .character c :: rest =>
    if isHigh n || isLow n then none
    else (characters? (.character c :: rest)).map (Char.ofNat n :: ·)

end Piece

def hexValue? (c : Char) : Option Nat :=
  if c.isDigit then some (c.toNat - '0'.toNat)
  else if 'a' ≤ c && c ≤ 'f' then some (c.toNat - 'a'.toNat + 10)
  else if 'A' ≤ c && c ≤ 'F' then some (c.toNat - 'A'.toNat + 10)
  else none

def hexUnit? (a b c d : Char) : Option Nat := do
  let a ← hexValue? a
  let b ← hexValue? b
  let c ← hexValue? c
  let d ← hexValue? d
  return ((a * 16 + b) * 16 + c) * 16 + d

/-- The character that a one-letter escape stands for. -/
def escaped? : Char → Option Char
  | '"' => some '"'
  | '\\' => some '\\'
  | '/' => some '/'
  | 'b' => some '\x08'
  | 'f' => some '\x0c'
  | 'n' => some '\n'
  | 'r' => some '\r'
  | 't' => some '\t'
  | _ => none

def readPieces? : List Char → Option (List Piece × List Char)
  | [] => none
  | '"' :: rest => some ([], rest)
  | '\\' :: 'u' :: a :: b :: c :: d :: rest => do
    let unit ← hexUnit? a b c d
    let (pieces, rest) ← readPieces? rest
    return (.codeUnit unit :: pieces, rest)
  | '\\' :: e :: rest => do
    let c ← escaped? e
    let (pieces, rest) ← readPieces? rest
    return (.character c :: pieces, rest)
  | c :: rest => do
    if c = '\\' || c.toNat < 0x20 then none
    else
      let (pieces, rest) ← readPieces? rest
      return (.character c :: pieces, rest)

def readString? (cs : List Char) : Option (Option String × List Char) := do
  let (pieces, rest) ← readPieces? cs
  return ((Piece.characters? pieces).map String.ofList, rest)

/-- Read a whole number: a zero, or digits that do not start with one. -/
def readWhole? (cs : List Char) : Option (List Char × List Char) :=
  match cs with
  | '0' :: rest => some (['0'], rest)
  | cs =>
    let (ds, rest) := Decimal.splitDigits cs
    if ds.isEmpty then none else some (ds, rest)

/-- Read an optional fraction, which has at least one digit. -/
def readFraction? (cs : List Char) : Option (Option (List Char) × List Char) :=
  match cs with
  | '.' :: rest =>
    let (ds, rest) := Decimal.splitDigits rest
    if ds.isEmpty then none else some (some ds, rest)
  | cs => some (none, cs)

/-- Read an optional exponent, which has at least one digit. -/
def readPower? (cs : List Char) : Option (Option (Bool × List Char) × List Char) :=
  match cs with
  | [] => some (none, [])
  | c :: rest =>
    if c = 'e' || c = 'E' then
      let (negative, rest) := Decimal.splitSign rest
      let (ds, rest) := Decimal.splitDigits rest
      if ds.isEmpty then none else some (some (negative, ds), rest)
    else some (none, c :: rest)

def readNumber? (cs : List Char) : Option (Numeral × List Char) := do
  let (negative, cs) := match cs with
    | '-' :: rest => (true, rest)
    | cs => (false, cs)
  let (whole, cs) ← readWhole? cs
  let (fraction, cs) ← readFraction? cs
  let (exponent, cs) ← readPower? cs
  return (⟨negative, whole, fraction, exponent⟩, cs)

mutual

/-- Read one value. The first argument bounds the number of values in the text. -/
def readValue? : Nat → List Char → Option (Value × List Char)
  | 0, _ => none
  | bound + 1, cs =>
    match skipSpace cs with
    | 'n' :: 'u' :: 'l' :: 'l' :: rest => some (.null, rest)
    | 't' :: 'r' :: 'u' :: 'e' :: rest => some (.boolean true, rest)
    | 'f' :: 'a' :: 'l' :: 's' :: 'e' :: rest => some (.boolean false, rest)
    | '"' :: rest => (readString? rest).map fun p => (.string p.1, p.2)
    | '[' :: rest =>
      match skipSpace rest with
      | ']' :: rest => some (.array [], rest)
      | rest => (readItems? bound rest).map fun p => (.array p.1, p.2)
    | '\x7b' :: rest =>
      match skipSpace rest with
      | '\x7d' :: rest => some (.object [], rest)
      | rest => (readMembers? bound rest).map fun p => (.object p.1, p.2)
    | rest => (readNumber? rest).map fun p => (.number p.1, p.2)

/-- Read the items of an array up to its closing bracket. -/
def readItems? : Nat → List Char → Option (List Value × List Char)
  | 0, _ => none
  | bound + 1, cs => do
    let (value, rest) ← readValue? bound cs
    match skipSpace rest with
    | ']' :: rest => some ([value], rest)
    | ',' :: rest => (readItems? bound rest).map fun p => (value :: p.1, p.2)
    | _ => none

/-- Read the members of an object up to its closing bracket. -/
def readMembers? : Nat → List Char → Option (List (Option String × Value) × List Char)
  | 0, _ => none
  | bound + 1, cs =>
    match skipSpace cs with
    | '"' :: rest => do
      let (key, rest) ← readString? rest
      match skipSpace rest with
      | ':' :: rest => do
        let (value, rest) ← readValue? bound rest
        match skipSpace rest with
        | '\x7d' :: rest => some ([(key, value)], rest)
        | ',' :: rest => (readMembers? bound rest).map fun p => ((key, value) :: p.1, p.2)
        | _ => none
      | _ => none
    | _ => none

end

/-- Read a text that holds exactly one value. -/
def read? (text : String) : Option Value :=
  let cs := text.toList
  match readValue? (cs.length + 1) cs with
  | some (value, rest) => if (skipSpace rest).isEmpty then some value else none
  | none => none

end Liveness.Json
