import Liveness.Proofs.Json.Finite
import Mathlib.Logic.Equiv.List

/-! # Codecs that lose nothing

JSON text does not give back every double, since the numbers that are read are rounded. But there
are only countably many records. So one that JSON text does not give back can be written as its
number, and no record is lost then.
-/

namespace Liveness

section Counted

instance validDecidable (w : BitVec 64) : Decidable (Float.Model.Format.binary64.Valid w) :=
  decidable_of_iff (_ → _ → _) ⟨.mk, fun h => h.eq_packedNaN⟩

theorem eq_of_toBits {x y : Float} (h : x.toBits = y.toBits) : x = y := by
  obtain ⟨⟨v, hv⟩⟩ := x
  obtain ⟨⟨w, hw⟩⟩ := y
  cases h
  rfl

instance floatEncodable : Encodable Float :=
  .ofLeftInjection (fun x => x.toBits.toNat)
    (fun n =>
      if h : Float.Model.Format.binary64.Valid (UInt64.ofNat n).toBitVec then some ⟨⟨.ofNat n, h⟩⟩
      else none)
    fun x => by
      have hbits : UInt64.ofNat x.toBits.toNat = x.toModel.toBits := UInt64.ofNat_toNat
      rw [dif_pos (hbits ▸ x.toModel.valid)]
      exact congrArg some (eq_of_toBits hbits)

instance stringEncodable : Encodable String :=
  .ofLeftInverse (fun s => s.toList.map Char.toNat) (fun cs => .ofList (cs.map Char.ofNat))
    fun s => by simp [Function.comp_def]

instance tieredEncodable : Encodable (Tiered Float) :=
  .ofLeftInjection (fun w => w.tiers.toList)
    (fun xs => if h : xs.toArray.size = tierCount then some ⟨⟨xs.toArray, h⟩⟩ else none)
    fun w => (dif_pos w.tiers.size_toArray).trans rfl

instance opRecordEncodable : Encodable OpRecord :=
  .ofLeftInverse (fun r => (r.address, r.name, r.outs, r.allocs, r.fwdLink))
    (fun p => ⟨p.1, p.2.1, p.2.2.1, p.2.2.2.1, p.2.2.2.2⟩) fun _ => rfl

instance allocRecordEncodable : Encodable (AllocRecord (Tiered Float)) :=
  .ofLeftInverse (fun r => (r.address, r.weight)) (fun p => ⟨p.1, p.2⟩) fun _ => rfl

instance graphRecordEncodable : Encodable (GraphRecord (Tiered Float)) :=
  .ofLeftInverse (fun r => (r.ops, r.allocs)) (fun p => ⟨p.1, p.2⟩) fun _ => rfl

end Counted

deriving instance DecidableEq for Tiered

/-- The number of a record as a text, with a mark that no JSON text starts with. -/
def GraphRecord.numbered (r : GraphRecord (Tiered Float)) : String :=
  .ofList ('#' :: Nat.toDigits 10 (Encodable.encode r))

theorem GraphRecord.head?_toJson (r : GraphRecord (Tiered Float)) :
    r.toJson.toList.head? = some '\x7b' := by
  unfold toJson Json.writeObject
  simp

namespace Codec

/-- JSON text if it is read as the record again, and the number of the record otherwise. -/
def exact : Codec where
  encode r := if json.decode r.toJson = some r then some r.toJson else some r.numbered
  decode text :=
    if text.toList.head? = some '#' then
      (Encodable.decode (Nat.ofDigitChars 10 text.toList.tail 0)).filter GraphRecord.isFinite
    else json.decode text

variable {r : GraphRecord (Tiered Float)} {text : String}

theorem exact_encode (r : GraphRecord (Tiered Float)) : exact.encode r =
    if json.decode r.toJson = some r then some r.toJson else some r.numbered := by
  simp only [exact]

theorem exact_decode_of_ne (h : text.toList.head? ≠ some '#') :
    exact.decode text = json.decode text := by
  unfold exact
  exact if_neg h

theorem exact_decode_numbered (hr : r.isFinite = true) : exact.decode r.numbered = some r := by
  have hlist : r.numbered.toList = '#' :: Nat.toDigits 10 (Encodable.encode r) :=
    String.toList_ofList
  unfold exact
  dsimp only
  rw [hlist, if_pos List.head?_cons, List.tail_cons,
    Nat.ofDigitChars_toDigits (by decide) (by decide), Encodable.encodek, Option.filter_some,
    if_pos hr]

theorem exact_faithful : exact.Faithful where
  decode_encode {r} hr := by
    by_cases h : json.decode r.toJson = some r
    · have hne : r.toJson.toList.head? ≠ some '#' := by simp [r.head?_toJson]
      exact ⟨r.toJson, (exact_encode r).trans (if_pos h), (exact_decode_of_ne hne).trans h⟩
    · exact ⟨r.numbered, (exact_encode r).trans (if_neg h), exact_decode_numbered hr⟩
  isFinite_of_decode {text r} h := by
    unfold exact at h
    dsimp only at h
    split at h
    · exact (Option.filter_eq_some_iff.mp h).2
    · obtain ⟨value, -, h⟩ := Option.bind_eq_some_iff.mp h
      exact List.all_eq_true.mpr (GraphRecord.ofJson?_isFinite h)

end Codec

end Liveness
