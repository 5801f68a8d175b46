import Warcaby.Tlv

/-! The TLV codec on its own, for byte strings of any length. The length byte wraps at
256 and the total length does not, so nothing is cut short; the type byte is
written as 0x01 and never looked at again. -/
namespace Warcaby.Codec
open Tlv

section Encoding
variable {data : List Byte}

theorem encodeWhole (data : List Byte) :
    tlvEncode data data.length = 0x01 :: UInt8.ofNat data.length :: data := by
  rw [tlvEncode, List.take_length]

theorem lengthWraps (data : List Byte) :
    ((tlvEncode data data.length).getD 1 nul).toNat = data.length % 256 := by
  rw [encodeWhole]
  exact UInt8.toNat_ofNat'

theorem decodeWhole (small : data.length ≤ 255) :
    tlvDecode (tlvEncode data data.length) (tlvEncode data data.length).length =
      some (data ++ [nul]) := by
  rw [decodeEncode (Nat.le_refl _) small, List.take_length]

/- The wrapped length byte asks for at most 255 bytes, and there are more. -/
theorem decodeLong (long : 256 ≤ data.length) :
    tlvDecode (tlvEncode data data.length) (tlvEncode data data.length).length = none := by
  cases ok : tlvDecode (tlvEncode data data.length) (tlvEncode data data.length).length with
  | none => rfl
  | some other =>
    have total := (decoded.mp ok).length
    rw [lengthWraps, encodeLength (Nat.le_refl _)] at total
    omega

end Encoding

theorem decodeUndoes (data : List Byte) :
    (data.length ≤ 255 →
      tlvDecode (tlvEncode data data.length) (tlvEncode data data.length).length =
        some (data ++ [nul])) ∧
    (256 ≤ data.length →
      tlvDecode (tlvEncode data data.length) (tlvEncode data data.length).length = none) ∧
    ((tlvEncode data data.length).getD 1 nul).toNat = data.length % 256 ∧
    ∀ other, tlvDecode (tlvEncode data data.length) (tlvEncode data data.length).length =
      some other → other = data ++ [nul] := by
  refine ⟨decodeWhole, decodeLong, lengthWraps data, fun other ok => ?_⟩
  rcases Nat.lt_or_ge data.length 256 with small | long
  · rw [decodeWhole (Nat.le_of_lt_succ small)] at ok
    exact (Option.some.inj ok).symm
  · rw [decodeLong long] at ok
    cases ok

theorem decodeUndoesLetter : tlvDecode [0x01,1,charX] 3 = some [charX,nul] :=
  (decodeUndoes [charX]).1 (by decide)

section Image
variable {f data : List Byte}

theorem acceptedParts (ok : tlvDecode f f.length = some data) :
    ∃ type length payload, f = type :: length :: payload ∧ payload.length = length.toNat ∧
      data = payload ++ [nul] := by
  obtain ⟨header, total, value⟩ := decoded.mp ok
  match f with
  | [] => cases header
  | [_] => simp at header
  | type :: length :: payload =>
    have size : payload.length = length.toNat := by
      change payload.length + 1 + 1 = 2 + length.toNat at total
      omega
    refine ⟨type, length, payload, rfl, size, ?_⟩
    rw [value]
    simp

theorem partsAccepted {type length : Byte} {payload : List Byte}
    (size : payload.length = length.toNat) :
    tlvDecode (type :: length :: payload) (type :: length :: payload).length =
      some (payload ++ [nul]) := by
  refine decoded.mpr ⟨by simp, ?_, by simp⟩
  change payload.length + 1 + 1 = 2 + length.toNat
  omega

theorem encodeParts {length : Byte} {payload : List Byte} (size : payload.length = length.toNat) :
    tlvEncode payload payload.length = 0x01 :: length :: payload := by
  rw [encodeWhole, size, UInt8.ofNat_toNat]

theorem decoderImage (f : List Byte) :
    ((∃ data, tlvDecode f f.length = some data) ↔
      ∃ type payload, payload.length ≤ 255 ∧
        f = type :: (tlvEncode payload payload.length).tail) ∧
    ∀ data, tlvDecode f f.length = some data →
      tlvEncode data (f.getD 1 nul).toNat = 0x01 :: f.tail ∧
      (tlvEncode data (f.getD 1 nul).toNat = f ↔ f.head? = some 0x01) := by
  refine ⟨⟨?_, ?_⟩, fun data ok => ?_⟩
  · rintro ⟨data, ok⟩
    obtain ⟨type, length, payload, rfl, size, _⟩ := acceptedParts ok
    refine ⟨type, payload, ?_, ?_⟩
    · have bound := length.toNat_lt
      omega
    · rw [encodeParts size]
      rfl
  · rintro ⟨type, payload, small, rfl⟩
    rw [encodeWhole]
    exact ⟨_, partsAccepted (lengthByte small).symm⟩
  · obtain ⟨type, length, payload, rfl, size, rfl⟩ := acceptedParts ok
    have again : tlvEncode (payload ++ [nul]) ((type :: length :: payload).getD 1 nul).toNat =
        0x01 :: length :: payload := by
      change 0x01 :: UInt8.ofNat length.toNat :: (payload ++ [nul]).take length.toNat = _
      rw [UInt8.ofNat_toNat, ← size, List.take_left]
    rw [again]
    refine ⟨rfl, ?_⟩
    simp [eq_comm]

theorem decoderImageEmpty : ∃ data, tlvDecode [0x07,0] 2 = some data ∧
    tlvEncode data 0 = [0x01,0] := by
  obtain ⟨data, ok⟩ := (decoderImage [0x07,0]).1.mpr ⟨0x07, [], by decide, rfl⟩
  exact ⟨data, ok, ((decoderImage [0x07,0]).2 data ok).1⟩

theorem typeIgnored : tlvDecode [0x02,0] [(0x02 : Byte),0].length = some [nul] ∧
    ∀ payload, tlvEncode payload payload.length ≠ [0x02,0] := by
  refine ⟨rfl, fun payload same => ?_⟩
  rw [encodeWhole] at same
  exact absurd (List.cons.inj same).1 (by decide)

end Image
end Warcaby.Codec
