import Liveness.Decimal.Layout

/-! # Writing JSON

Texts of values without any blanks between tokens. Strings escape only what they have
to: the quote, the backslash and control characters.
-/

namespace Liveness.Json

/-- The two hexadecimal digits of a control character. -/
def controlDigits (n : Nat) : List Char :=
  let ds := Nat.toDigits 16 n
  List.replicate (2 - ds.length) '0' ++ ds

/-- A character as it stands in a string. -/
def writtenChar (c : Char) : List Char :=
  match c with
  | '"' => ['\\', '"']
  | '\\' => ['\\', '\\']
  | '\x08' => ['\\', 'b']
  | '\x0c' => ['\\', 'f']
  | '\n' => ['\\', 'n']
  | '\r' => ['\\', 'r']
  | '\t' => ['\\', 't']
  | c => if c.toNat < 0x20 then ['\\', 'u', '0', '0'] ++ controlDigits c.toNat else [c]

def writeString (text : String) : String :=
  String.ofList ('"' :: text.toList.flatMap writtenChar ++ ['"'])

def writeArray (items : List String) : String := "[" ++ ",".intercalate items ++ "]"

def writeObject (members : List (String × String)) : String :=
  let member (m : String × String) := writeString m.1 ++ ":" ++ m.2
  "\x7b" ++ ",".intercalate (members.map member) ++ "\x7d"

def writeNats (ns : List Nat) : String := writeArray (ns.map toString)

def writeFloat (x : Float) : String := Decimal.data.text x

end Liveness.Json
