/-
The header encoder, the transmitter's serializer and the receiver's parser
are inverse to each other: an encoded header is read back as it is, and what
the parser accepts is the serialization of the header encoded from what it
read, so no header has a second accepted form. The codec's own decoder, which
serializes what it read instead of clearing the CRC in the raw bytes, agrees
with the receiver's (`decoders_agree`).
-/
import UsbMux.RxFacts
import UsbMux.TxSched

namespace UsbMux.VP

open Endian UsbRx

/-! ## Reading and writing -/

theorem bytes_deserializeHeader {buf : List UInt8} (hl : buf.length = headerLen) :
    (deserializeHeader buf).bytes (deserializeHeader buf).headerCrc16 = buf := by
  match buf, hl with
  | [_, _, _, _, _, _, _, _, _, _, _, _, _, _, _, _, _, _, _, _, _, _, _, _], _ =>
    simp [deserializeHeader, VpHdr.bytes, readLe16]

theorem bytes_zero_deserializeHeader {buf : List UInt8} (hl : buf.length = headerLen) :
    (deserializeHeader buf).bytes 0 = (buf.set crc16Offset 0).set (crc16Offset + 1) 0 := by
  conv_rhs => rw [← bytes_deserializeHeader hl]
  rfl

theorem take_serializeHeader {n : Nat} (dst : Block UInt8 (headerLen + n)) (hdr : VpHdr) :
    (UsbTx.serializeHeader dst hdr).toList.take headerLen = hdr.bytes hdr.headerCrc16 := by
  have hlen : headerLen ≤ dst.toList.length := by rw [dst.toList_length]; omega
  rw [UsbTx.toList_serializeHeader, serializeHeader_eq hlen]
  exact List.take_left' (VpHdr.length_bytes _ _)

/-! ## Parsing after encoding, encoding after parsing -/

theorem parseHeader_serializeHeader {n : Nat} (dst : Block UInt8 (headerLen + n)) (hdr : VpHdr)
    (hp : hdr.payloadLen.toNat ≤ 488) :
    parseHeader (UsbTx.serializeHeader dst (encodeHeader hdr)).toList = (encodeHeader hdr, true) := by
  have hacc := accept_encoded hdr hp []
  rw [List.append_nil, ← take_serializeHeader dst] at hacc
  obtain ⟨h1, h2⟩ := accept_iff.mp ((accept_take _).symm.trans hacc)
  exact Prod.ext h2 h1

theorem encodeHeader_of_accept {buf : List UInt8} {hdr : VpHdr} (hl : buf.length = headerLen)
    (ha : format.accept buf = some hdr) : encodeHeader hdr = hdr := by
  obtain ⟨hok, rfl⟩ := accept_iff.mp ha
  obtain ⟨h1, h2, h3, h4, -, h6⟩ := (parseHeader_accepts buf).mp hok
  rw [List.take_of_length_le hl.le, ← bytes_zero_deserializeHeader hl, ← parseHeader_fst] at h6
  generalize (parseHeader buf).1 = hdr at h1 h2 h3 h4 h6
  have hbytes : (encodeHeader hdr).bytes 0 = hdr.bytes 0 := by
    simp only [encodeHeader, fillHeader, VpHdr.bytes, h1, h2, h3, h4]
    rfl
  have hcrc : (encodeHeader hdr).headerCrc16 = hdr.headerCrc16 := by rw [encodeHeader_crc, hbytes, h6]
  cases hdr
  simp only at h1 h2 h3 h4 hcrc
  subst h1 h2 h3 h4
  rw [VpHdr.mk.injEq]
  exact ⟨rfl, rfl, rfl, rfl, rfl, rfl, rfl, rfl, rfl, rfl, rfl, rfl, rfl, hcrc, rfl⟩

/-- An accepted buffer is what the serializer makes of the header read from it. -/
theorem serializeHeader_parseHeader {n : Nat} (dst : Block UInt8 (headerLen + n)) {buf : Block UInt8 headerLen}
    (hok : (parseHeader buf.toList).2 = true) :
    (UsbTx.serializeHeader dst (encodeHeader (parseHeader buf.toList).1)).toList.take headerLen = buf.toList := by
  have hl : buf.toList.length = headerLen := buf.toList_length
  rw [encodeHeader_of_accept hl (accept_iff.mpr ⟨hok, rfl⟩), take_serializeHeader, parseHeader_fst,
    bytes_deserializeHeader hl]

/-- **Encoding and decoding are inverse on the whole format**: every encoded
header whose payload fits a frame is accepted and read back field by field,
and every accepted buffer is the serialization of what was read from it. -/
theorem headerCodec_inverse {n : Nat} (dst : Block UInt8 (headerLen + n)) :
    (∀ hdr : VpHdr, hdr.payloadLen.toNat ≤ 488 →
      parseHeader ((UsbTx.serializeHeader dst (encodeHeader hdr)).toList.take headerLen) = (encodeHeader hdr, true)) ∧
    (∀ buf : Block UInt8 headerLen, (parseHeader buf.toList).2 = true →
      (UsbTx.serializeHeader dst (encodeHeader (parseHeader buf.toList).1)).toList.take headerLen = buf.toList) := by
  constructor
  · intro hdr hp
    rw [parseHeader_take]
    exact parseHeader_serializeHeader dst hdr hp
  · intro buf hok
    exact serializeHeader_parseHeader dst hok

/-! ## The codec's decoder -/

theorem checkFrameBounds_iff (hdr : VpHdr) (maxLen : UInt16) :
    checkFrameBounds hdr maxLen = true ↔ hdr.magic = magic ∧ hdr.version = version ∧ hdr.headerLen = 24 ∧
      hdr.totalLen = 24 + hdr.payloadLen ∧ hdr.totalLen ≤ maxLen := by
  simp only [checkFrameBounds, checkHeaderShape, Bool.and_eq_true, beq_iff_eq, Bool.not_eq_true',
    decide_eq_false_iff_not, gt_iff_lt, UInt16.not_lt]
  constructor
  · rintro ⟨⟨⟨⟨h1, h2⟩, h3⟩, h4⟩, h5⟩
    exact ⟨h1, h2, h3, by rw [h4, h3]; rfl, h5⟩
  · rintro ⟨h1, h2, h3, h4, h5⟩
    exact ⟨⟨⟨⟨h1, h2⟩, h3⟩, by rw [h4, h3]; rfl⟩, h5⟩

/-- The decoder serializes into a fresh array the bytes it read with the CRC
field cleared. -/
theorem serializeHeader_deserializeHeader {buf : List UInt8} (hl : buf.length = headerLen) :
    serializeHeader (List.replicate headerLen 0) (deserializeHeader buf) 0 =
      (buf.set crc16Offset 0).set (crc16Offset + 1) 0 := by
  have hfits : headerLen ≤ (List.replicate headerLen (0 : UInt8)).length := by rw [List.length_replicate]
  rw [serializeHeader_eq hfits, ← bytes_zero_deserializeHeader hl]
  simp

/-- The three checks together: a header is stored only when all pass, and then
it is the one read. -/
theorem decodeHeader_eq {buf : List UInt8} (hl : buf.length = headerLen) (len : UInt16) (hdr : VpHdr) :
    decodeHeader buf len hdr =
      if 24 ≤ len ∧ checkFrameBounds (deserializeHeader buf) len = true ∧
        crc16 ((buf.set crc16Offset 0).set (crc16Offset + 1) 0) = (deserializeHeader buf).headerCrc16
      then (deserializeHeader buf, true) else (hdr, false) := by
  rw [← serializeHeader_deserializeHeader hl]
  simp only [decodeHeader]
  generalize deserializeHeader buf = localHdr
  generalize crc16 (serializeHeader (List.replicate headerLen 0) localHdr 0) = crc
  by_cases hlen : len < UInt16.ofNat headerLen
  · rw [if_pos hlen, if_neg fun h => UInt16.not_le.mpr hlen h.1]
  · have hlen' : 24 ≤ len := UInt16.not_lt.mp hlen
    rw [if_neg hlen]
    cases hb : checkFrameBounds localHdr len with
    | false => simp
    | true =>
      by_cases hcrc : crc = localHdr.headerCrc16
      · simp [hlen', hcrc]
      · simp [hcrc]

theorem decodeHeader_accepts {buf : List UInt8} (hl : buf.length = headerLen) (len : UInt16) (hdr : VpHdr) :
    (decodeHeader buf len hdr).2 = true ↔ 24 ≤ len ∧ ((deserializeHeader buf).magic = magic ∧
      (deserializeHeader buf).version = version ∧ (deserializeHeader buf).headerLen = 24 ∧
      (deserializeHeader buf).totalLen = 24 + (deserializeHeader buf).payloadLen ∧
      (deserializeHeader buf).totalLen ≤ len) ∧
      crc16 ((buf.set crc16Offset 0).set (crc16Offset + 1) 0) = (deserializeHeader buf).headerCrc16 := by
  rw [decodeHeader_eq hl, ← checkFrameBounds_iff]
  split
  · next h => exact iff_of_true rfl h
  · next h => exact iff_of_false Bool.false_ne_true h

theorem decodeHeader_fst {buf : List UInt8} (hl : buf.length = headerLen) (len : UInt16) (hdr : VpHdr) :
    (decodeHeader buf len hdr).1 = if (decodeHeader buf len hdr).2 then deserializeHeader buf else hdr := by
  rw [decodeHeader_eq hl]
  split <;> rfl

/-- **The two decoders agree** on every 24 bytes, whatever `*hdr` held: at 512
they accept the same buffers and read the same header; at any length the
decoder accepts exactly the buffers with a sound header that fits; and where
it refuses it leaves `*hdr` alone. -/
theorem decoders_agree (buf : Block UInt8 headerLen) (len : UInt16) (hdr : VpHdr) :
    let b := buf.toList
    ((parseHeader b).2 = true ↔ (decodeHeader b 512 hdr).2 = true) ∧
    ((parseHeader b).2 = true → (parseHeader b).1 = (decodeHeader b 512 hdr).1) ∧
    ((decodeHeader b len hdr).2 = true ↔
      24 ≤ len.toNat ∧ readLe16 b magicOffset = magic ∧ b.getD versionOffset 0 = version ∧
        b.getD headerLenOffset 0 = 24 ∧
        (readLe16 b totalLenOffset).toNat = (24 + (readLe16 b payloadLenOffset).toNat) % 2 ^ 16 ∧
        (readLe16 b totalLenOffset).toNat ≤ len.toNat ∧
        crc16 ((b.set crc16Offset 0).set (crc16Offset + 1) 0) = readLe16 b crc16Offset) ∧
    ((decodeHeader b len hdr).2 = false → (decodeHeader b len hdr).1 = hdr) := by
  intro b
  have hl : b.length = headerLen := buf.toList_length
  have hiff : (parseHeader b).2 = true ↔ (decodeHeader b 512 hdr).2 = true := by
    rw [parseHeader_accepts, decodeHeader_accepts hl, parseHeader_fst, List.take_of_length_le hl.le]
    constructor
    · rintro ⟨h1, h2, h3, h4, h5, h6⟩
      exact ⟨by decide, ⟨h1, h2, h3, h4, h5⟩, h6⟩
    · rintro ⟨-, ⟨h1, h2, h3, h4, h5⟩, h6⟩
      exact ⟨h1, h2, h3, h4, h5, h6⟩
  refine ⟨hiff, ?_, ?_, ?_⟩
  · intro h
    rw [parseHeader_fst, decodeHeader_fst hl, if_pos (hiff.mp h)]
  · rw [decodeHeader_accepts hl, UInt16.le_iff_toNat_le, UInt16.le_iff_toNat_le,
      ← UInt16.toNat_inj (a := VpHdr.totalLen _), UInt16.toNat_add, and_assoc, and_assoc, and_assoc, and_assoc]
    rfl
  · intro h
    rw [decodeHeader_fst hl, h]
    rfl

end UsbMux.VP
