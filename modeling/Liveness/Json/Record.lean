import Liveness.Graph.Stored
import Liveness.Json.Number
import Liveness.Json.Reader
import Liveness.Json.Writer

/-! # Records as JSON text

A record may be written as an object, in which unknown members are skipped, or as an array of
exactly its fields in order.
-/

namespace Liveness

namespace Json.Value

def string? : Value → Option String
  | .string text => text
  | _ => none

def nat? : Value → Option Nat
  | .number n => n.toNat?
  | _ => none

def int? : Value → Option Int
  | .number n => n.toInt?
  | _ => none

def float? : Value → Option Float
  | .number n => n.toFloat?
  | _ => none

/-- The items of an array, each read by `f`. -/
def list? {α : Type} (f : Value → Option α) : Value → Option (List α)
  | .array items => items.mapM f
  | _ => none

/-- The value of the only member with the given key. -/
def field? (members : List (String × Value)) (key : String) : Option Value :=
  match members.filter fun m => m.1 == key with
  | [m] => some m.2
  | _ => none

/-- The values of a record's fields, in the order of `keys`. Every key of an object has
to be a text, and each field has to be there once. -/
def fields? (keys : List String) : Value → Option (List Value)
  | .array items => if items.length = keys.length then some items else none
  | .object members => do
    let members ← members.mapM fun m => m.1.map fun key => (key, m.2)
    keys.mapM (field? members)
  | _ => none

end Json.Value

namespace OpRecord

def keys : List String := ["address", "debugString", "outs", "allocs", "fwdLink"]

def ofJson? (value : Json.Value) : Option OpRecord :=
  match value.fields? keys with
  | some [address, name, outs, allocs, link] => do
    let address ← address.nat?
    let name ← name.string?
    let outs ← outs.list? Json.Value.nat?
    let allocs ← allocs.list? Json.Value.nat?
    let link ← link.int?
    return ⟨address, name, outs, allocs, link⟩
  | _ => none

def toJson (r : OpRecord) : String :=
  Json.writeObject (keys.zip [toString r.address, Json.writeString r.name,
    Json.writeNats r.outs, Json.writeNats r.allocs, toString r.fwdLink])

end OpRecord

namespace Tiered

/-- Read the magnitudes of a weight, one for each tier. -/
def ofJson? (value : Json.Value) : Option (Tiered Float) := do
  let tiers ← value.list? Json.Value.float?
  if h : tiers.toArray.size = tierCount then some ⟨⟨tiers.toArray, h⟩⟩ else none

def toJson (w : Tiered Float) : String := Json.writeArray (w.tiers.toList.map Json.writeFloat)

end Tiered

namespace AllocRecord

def keys : List String := ["address", "weight"]

def ofJson? (value : Json.Value) : Option (AllocRecord (Tiered Float)) :=
  match value.fields? keys with
  | some [address, weight] => do
    let address ← address.nat?
    let weight ← Tiered.ofJson? weight
    return ⟨address, weight⟩
  | _ => none

def toJson (r : AllocRecord (Tiered Float)) : String :=
  Json.writeObject (keys.zip [toString r.address, r.weight.toJson])

end AllocRecord

namespace GraphRecord

def keys : List String := ["ops", "allocs"]

def ofJson? (value : Json.Value) : Option (GraphRecord (Tiered Float)) :=
  match value.fields? keys with
  | some [ops, allocs] => do
    let ops ← ops.list? OpRecord.ofJson?
    let allocs ← allocs.list? AllocRecord.ofJson?
    return ⟨ops, allocs⟩
  | _ => none

def toJson (r : GraphRecord (Tiered Float)) : String :=
  Json.writeObject (keys.zip [Json.writeArray (r.ops.map OpRecord.toJson),
    Json.writeArray (r.allocs.map AllocRecord.toJson)])

end GraphRecord

def Codec.json : Codec where
  encode r := some r.toJson
  decode text := (Json.read? text).bind GraphRecord.ofJson?

end Liveness
