import Liveness.Graph.Record
import Liveness.Weight.Binary64

/-! # Graphs as text

A stored graph is the text of its record. How records are written and read is left to a codec.
-/

namespace Liveness

/-- Whether all weights of a record are finite. -/
def GraphRecord.isFinite (r : GraphRecord (Tiered Float)) : Bool :=
  r.allocs.all fun alloc => alloc.weight.isFinite

/-- A way to write records as texts and to read them. Both may fail. -/
structure Codec where
  encode : GraphRecord (Tiered Float) → Option String
  decode : String → Option (GraphRecord (Tiered Float))

/-- A codec gives back every record of finite weights that it writes, and it reads no others. -/
structure Codec.Faithful (codec : Codec) : Prop where
  decode_encode : ∀ {r}, r.isFinite = true →
    ∃ text, codec.encode r = some text ∧ codec.decode text = some r
  isFinite_of_decode : ∀ {text r}, codec.decode text = some r → r.isFinite = true

namespace Graph

def store (g : Graph (Tiered Float)) (codec : Codec) : Except Error String := do
  match codec.encode (← g.toRecord) with
  | some text => return text
  | none => throw .unreadable

def restore (codec : Codec) (text : String) : Except Error (Graph (Tiered Float)) :=
  match codec.decode text with
  | some record => ofRecord record
  | none => .error .unreadable

end Graph

end Liveness
