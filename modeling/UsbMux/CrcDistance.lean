/-
The minimum distance of the header check. The CRC is linear in the bits it
covers (`crcBit_xor`), and each of the 192 bits of a header moves it, or the
field it is compared with, by a power of the generator step applied to 1
(`syndrome_flip`). These powers have odd weight and differ from each other,
so an accepted header stays four bits away from every other one.
-/
import Mathlib.Data.Nat.Bitwise
import UsbMux.HeaderCodec
import UsbMux.Lib.Distance

namespace UsbMux.VP

open Endian UsbRx

/-! ## One step of the CRC -/

theorem and_top (x : UInt16) : x &&& 0x8000 ≠ 0 ↔ x.toNat.testBit 15 = true := by
  rw [Ne, ← UInt16.toNat_inj, UInt16.toNat_and]
  rw [Nat.and_comm, show (0x8000 : UInt16).toNat = 2 ^ 15 from rfl, Nat.two_pow_and]
  cases x.toNat.testBit 15 <;> simp

/-- The bit shifted out decides whether the polynomial is added. -/
theorem crcBit_eq (x : UInt16) : crcBit x = (x <<< 1) ^^^ if x.toNat.testBit 15 then 0x1021 else 0 := by
  rw [crcBit]
  by_cases h : x &&& 0x8000 ≠ 0
  · rw [if_pos h, if_pos ((and_top x).mp h)]
  · rw [if_neg h, if_neg fun ht => h ((and_top x).mpr ht), UInt16.xor_zero]

theorem xor_xor_xor_comm (a b c d : UInt16) : (a ^^^ b) ^^^ (c ^^^ d) = (a ^^^ c) ^^^ (b ^^^ d) := by
  rw [UInt16.xor_assoc, ← UInt16.xor_assoc b c d, UInt16.xor_comm b c, UInt16.xor_assoc c b d, ← UInt16.xor_assoc]

/-- **One step is linear.** -/
theorem crcBit_xor (x y : UInt16) : crcBit (x ^^^ y) = crcBit x ^^^ crcBit y := by
  rw [crcBit_eq, crcBit_eq, crcBit_eq, UInt16.shiftLeft_xor, xor_xor_xor_comm, UInt16.toNat_xor, Nat.testBit_xor]
  congr 1
  cases x.toNat.testBit 15 <;> cases y.toNat.testBit 15 <;> decide

theorem crcBit_iterate_xor (n : Nat) (x y : UInt16) : crcBit^[n] (x ^^^ y) = crcBit^[n] x ^^^ crcBit^[n] y := by
  induction n generalizing x y with
  | zero => rfl
  | succ n ih => rw [Function.iterate_succ_apply, crcBit_xor, ih, Function.iterate_succ_apply,
      Function.iterate_succ_apply]

/-- A step loses nothing: the bit shifted out comes back in the lowest one. -/
theorem crcBit_eq_zero {x : UInt16} (h : crcBit x = 0) : x = 0 := by
  rw [crcBit_eq, UInt16.xor_eq_zero_iff, ← UInt16.toNat_inj, UInt16.toNat_shiftLeft] at h
  have hlt := x.toNat_lt
  rw [Nat.testBit_eq_decide_div_mod_eq] at h
  rw [← UInt16.toNat_inj]
  simp only [decide_eq_true_eq] at h
  split at h <;> simp [Nat.shiftLeft_eq] at h ⊢ <;> omega

theorem crcBit_injective : Function.Injective crcBit := by
  intro x y h
  rw [← UInt16.xor_eq_zero_iff] at h ⊢
  rw [← crcBit_xor] at h
  exact crcBit_eq_zero h

/-! ### Parity -/

/-- Whether the number of bits set below bit `n` is odd. -/
def parity (x : UInt16) : Nat → Bool
  | 0 => false
  | n + 1 => x.toNat.testBit n ^^ parity x n

theorem parity_xor (x y : UInt16) (n : Nat) : parity (x ^^^ y) n = (parity x n ^^ parity y n) := by
  induction n with
  | zero => rfl
  | succ n ih =>
    rw [parity, parity, parity, ih, UInt16.toNat_xor, Nat.testBit_xor, Bool.xor_assoc, Bool.xor_assoc]
    congr 1
    rw [Bool.xor_left_comm]

theorem testBit_shiftLeft_one (x : UInt16) {i : Nat} (hi : i + 1 < 16) :
    (x <<< 1).toNat.testBit (i + 1) = x.toNat.testBit i := by
  rw [UInt16.toNat_shiftLeft, Nat.testBit_mod_two_pow]
  simp [hi]

theorem parity_shiftLeft (x : UInt16) {n : Nat} (hn : n < 16) : parity (x <<< 1) (n + 1) = parity x n := by
  induction n with
  | zero =>
    rw [parity, parity, UInt16.toNat_shiftLeft, Nat.testBit_mod_two_pow]
    simp [parity]
  | succ n ih => rw [parity, testBit_shiftLeft_one x hn, ih (by omega), parity]

/-- The polynomial has an odd number of terms below the one shifted out, so a
step keeps the parity. -/
theorem parity_crcBit (x : UInt16) : parity (crcBit x) 16 = parity x 16 := by
  have hpoly (b : Bool) : parity (if b then 0x1021 else 0) 16 = b := by cases b <;> decide
  rw [crcBit_eq, parity_xor, parity_shiftLeft x (by decide : 15 < 16), hpoly, Bool.xor_comm]
  rfl

/-! ### The powers of the step -/

theorem parity_power (n : Nat) : parity (crcBit^[n] 1) 16 = true := by
  induction n with
  | zero => decide
  | succ n ih => rw [Function.iterate_succ_apply', parity_crcBit, ih]

/-- The powers up to the length of a header do not return to 1. -/
theorem power_ne_one : ∀ n < 207, crcBit^[n + 1] 1 ≠ 1 := by decide +kernel

theorem power_injective {m n : Nat} (hm : m < 208) (hn : n < 208) (h : crcBit^[m] 1 = crcBit^[n] 1) : m = n := by
  wlog hle : m ≤ n generalizing m n
  · exact (this hn hm h.symm (by omega)).symm
  obtain ⟨k, rfl⟩ := Nat.exists_eq_add_of_le hle
  rw [Function.iterate_add_apply] at h
  have h1 := crcBit_injective.iterate m h
  cases k with
  | zero => rfl
  | succ k => exact absurd h1.symm (power_ne_one k (by omega))

/-! ## Bytes -/

theorem crcByte_xor (c d : UInt16) (b : UInt8) : crcByte (c ^^^ d) b = crcByte c b ^^^ crcBit^[8] d := by
  rw [crcByte, crcByte, UInt16.xor_assoc, UInt16.xor_comm d, ← UInt16.xor_assoc, crcBit_iterate_xor]

theorem foldl_crcByte_xor (l : List UInt8) (c d : UInt16) :
    l.foldl crcByte (c ^^^ d) = l.foldl crcByte c ^^^ crcBit^[8 * l.length] d := by
  induction l generalizing c d with
  | nil => rfl
  | cons b l ih =>
    rw [List.foldl_cons, crcByte_xor, ih, List.foldl_cons, ← Function.iterate_add_apply, List.length_cons,
      Nat.mul_succ]

/-- Adding to a byte moves the CRC by what the later bytes make of the addition. -/
theorem foldl_crcByte_set (l : List UInt8) {k : Nat} (hk : k < l.length) (m : UInt8) (c : UInt16) :
    (l.set k (l[k] ^^^ m)).foldl crcByte c = l.foldl crcByte c ^^^ crcBit^[8 * (l.length - k)] (m.toUInt16 <<< 8) := by
  induction l generalizing k c with
  | nil => simp at hk
  | cons b l ih => cases k with
    | zero =>
      rw [List.set_cons_zero, List.foldl_cons, List.foldl_cons, List.getElem_cons_zero, crcByte, UInt8.toUInt16_xor,
        UInt16.shiftLeft_xor, ← UInt16.xor_assoc, crcBit_iterate_xor, foldl_crcByte_xor, ← Function.iterate_add_apply]
      rfl
    | succ k =>
      rw [List.set_cons_succ, List.foldl_cons, List.foldl_cons, List.getElem_cons_succ, ih, List.length_cons,
        Nat.add_sub_add_right]

theorem crc16_set (l : List UInt8) {k : Nat} (hk : k < l.length) (m : UInt8) :
    crc16 (l.set k (l[k] ^^^ m)) = crc16 l ^^^ crcBit^[8 * (l.length - k)] (m.toUInt16 <<< 8) :=
  foldl_crcByte_set l hk m 0xFFFF

/-! ## The check of a header -/

/-- What the CRC computed and the CRC found differ in. -/
def syndrome (buf : List UInt8) : UInt16 :=
  crc16 ((buf.set crc16Offset 0).set (crc16Offset + 1) 0) ^^^ readLe16 buf crc16Offset

theorem syndrome_of_accepted {buf : Block UInt8 headerLen} (h : (parseHeader buf.toList).2 = true) :
    syndrome buf.toList = 0 := by
  obtain ⟨-, -, -, -, -, h6⟩ := (parseHeader_accepts buf.toList).mp h
  rw [List.take_of_length_le buf.toList_length.le, parseHeader_fst] at h6
  rw [syndrome, UInt16.xor_eq_zero_iff, h6]
  rfl

/-- The power that bit `j` of byte `k` stands for: in the CRC field it stands for
itself, elsewhere for what the bytes behind it make of it. -/
def power (k j : Nat) : Nat :=
  if k = crc16Offset then j
  else if k = crc16Offset + 1 then 8 + j
  else 8 * (headerLen - k) + (8 + j)

theorem power_lt {k j : Nat} (hj : j < 8) : power k j < 208 := by
  simp only [power, headerLen_eq]
  split_ifs <;> omega

theorem power_inj {k j k' j' : Nat} (hk : k < headerLen) (hj : j < 8) (hk' : k' < headerLen) (hj' : j' < 8)
    (h : power k j = power k' j') : k = k' ∧ j = j' := by
  simp only [power, headerLen_eq] at *
  split_ifs at h <;> omega

/-- A bit of a byte, in the field and in the register of the CRC. -/
theorem bit_power (j : Fin 8) : (UInt8.ofNat (2 ^ j.val)).toUInt16 = crcBit^[j] 1 ∧
    (UInt8.ofNat (2 ^ j.val)).toUInt16 <<< 8 = crcBit^[8 + j] 1 := by
  revert j
  decide

theorem ofBytes_xor_lo (l h m : UInt8) : ofBytes (l ^^^ m) h = ofBytes l h ^^^ m.toUInt16 := by
  rw [← UInt16.toBitVec_inj]
  ext i hi
  by_cases h8 : i < 8
  · simp [ofBytes, h8]
  · have hz (b : UInt8) : b.toBitVec.getLsbD i = false := BitVec.getLsbD_of_ge _ _ (Nat.not_lt.mp h8)
    simp [ofBytes, h8, hz]

theorem ofBytes_xor_hi (l h m : UInt8) : ofBytes l (h ^^^ m) = ofBytes l h ^^^ (m.toUInt16 <<< 8) := by
  rw [← UInt16.toBitVec_inj]
  ext i hi
  by_cases h8 : i < 8
  · simp [ofBytes, h8]
  · have hz (b : UInt8) : b.toBitVec.getLsbD i = false := BitVec.getLsbD_of_ge _ _ (Nat.not_lt.mp h8)
    simp [ofBytes, h8, hz]

/-- Outside the CRC field a flipped bit moves what is computed, -/
theorem syndrome_data {l : List UInt8} {k : Nat} (hk : k < l.length) (h20 : k ≠ crc16Offset)
    (h21 : k ≠ crc16Offset + 1) (m : UInt8) :
    syndrome (l.set k (l[k] ^^^ m)) = syndrome l ^^^ crcBit^[8 * (l.length - k)] (m.toUInt16 <<< 8) := by
  have hread : readLe16 (l.set k (l[k] ^^^ m)) crc16Offset = readLe16 l crc16Offset := by
    rw [readLe16, readLe16, List.getD_eq_getElem?_getD, List.getD_eq_getElem?_getD, List.getElem?_set_ne h20,
      List.getElem?_set_ne h21]
    rfl
  have hk' : k < ((l.set crc16Offset 0).set (crc16Offset + 1) 0).length := by simpa using hk
  have hcell : l[k] = ((l.set crc16Offset 0).set (crc16Offset + 1) 0)[k] := by
    rw [List.getElem_set_ne h21.symm, List.getElem_set_ne h20.symm]
  rw [syndrome, hread, List.set_comm _ _ h20, List.set_comm _ _ h21, hcell, crc16_set, syndrome, List.length_set,
    List.length_set, UInt16.xor_assoc, UInt16.xor_assoc, UInt16.xor_comm (readLe16 _ _)]

theorem syndrome_lo {l : List UInt8} (hl : crc16Offset + 1 < l.length) (m : UInt8) :
    syndrome (l.set crc16Offset (l[crc16Offset] ^^^ m)) = syndrome l ^^^ m.toUInt16 := by
  have hread : readLe16 (l.set crc16Offset (l[crc16Offset] ^^^ m)) crc16Offset =
      readLe16 l crc16Offset ^^^ m.toUInt16 := by
    rw [readLe16, readLe16, ← ofBytes_xor_lo]
    simp [hl, Nat.lt_of_succ_lt hl]
  rw [syndrome, List.set_set, hread, ← UInt16.xor_assoc]
  rfl

theorem syndrome_hi {l : List UInt8} (hl : crc16Offset + 1 < l.length) (m : UInt8) :
    syndrome (l.set (crc16Offset + 1) (l[crc16Offset + 1] ^^^ m)) = syndrome l ^^^ (m.toUInt16 <<< 8) := by
  have hread : readLe16 (l.set (crc16Offset + 1) (l[crc16Offset + 1] ^^^ m)) crc16Offset =
      readLe16 l crc16Offset ^^^ (m.toUInt16 <<< 8) := by
    rw [readLe16, readLe16, ← ofBytes_xor_hi]
    simp [hl]
  rw [syndrome, List.set_comm _ _ (by decide), List.set_set, hread, ← UInt16.xor_assoc,
    List.set_comm _ _ (by decide)]
  rfl

/-- **A flipped bit** moves the syndrome by its power. -/
theorem syndrome_flip (buf : Block UInt8 headerLen) (p : Fin headerLen × Fin 8) :
    syndrome (buf.flip p).toList = syndrome buf.toList ^^^ crcBit^[power p.1 p.2] 1 := by
  obtain ⟨⟨k, hk⟩, j⟩ := p
  obtain ⟨hlo, hhi⟩ := bit_power j
  have hl : buf.toList.length = headerLen := buf.toList_length
  have hkl : k < buf.toList.length := hl.symm ▸ hk
  have hget : buf.get ⟨k, hk⟩ = buf.toList[k] := by
    rw [List.Vector.get_eq_get_toList]
    rfl
  simp only [Block.flip, Block.toList_put, hget, power]
  split_ifs with h20 h21
  · subst h20
    rw [← hlo, syndrome_lo (by rw [hl]; decide)]
  · subst h21
    rw [← hhi, syndrome_hi hkl]
  · rw [syndrome_data hkl h20 h21, hhi, ← Function.iterate_add_apply, hl]

/-- **The header check keeps accepted headers apart.** Any buffer that differs
from an accepted one in one, two or three bits is rejected. -/
theorem header_distance {buf buf' : Block UInt8 headerLen} (h : (parseHeader buf.toList).2 = true)
    (h1 : 1 ≤ hammingDist buf.bits buf'.bits) (h3 : hammingDist buf.bits buf'.bits ≤ 3) :
    (parseHeader buf'.toList).2 = false := by
  have hne : syndrome buf.toList ≠ syndrome buf'.toList := by
    refine (Block.words headerLen).detects (fun b => syndrome b.toList)
      (fun g p => g ^^^ crcBit^[power p.1 p.2] 1) (fun g => parity g 16) syndrome_flip ?_ ?_ h1 h3
    · intro g p
      rw [parity_xor, parity_power, Bool.xor_true]
    · intro g p q hpq he
      rw [UInt16.xor_assoc] at he
      have hz : crcBit^[power p.1 p.2] 1 ^^^ crcBit^[power q.1 q.2] 1 = 0 :=
        (UInt16.xor_right_inj g).mp (he.trans UInt16.xor_zero.symm)
      have hpow := power_injective (power_lt p.2.isLt) (power_lt q.2.isLt) (UInt16.xor_eq_zero_iff.mp hz)
      obtain ⟨hk, hj⟩ := power_inj p.1.isLt p.2.isLt q.1.isLt q.2.isLt hpow
      exact hpq (Prod.ext (Fin.ext hk) (Fin.ext hj))
  rw [← Bool.not_eq_true]
  intro h'
  exact hne ((syndrome_of_accepted h).trans (syndrome_of_accepted h').symm)

/-- The header of an empty frame, and the same with three bits of its
`payload_len` set. -/
theorem header_distance_empty :
    let buf : Block UInt8 headerLen := ⟨(encodeHeader VpHdr.zero).bytes (encodeHeader VpHdr.zero).headerCrc16, rfl⟩
    let buf' := buf.put payloadLenOffset 7
    (parseHeader buf.toList).2 = true ∧ 1 ≤ hammingDist buf.bits buf'.bits ∧
      hammingDist buf.bits buf'.bits ≤ 3 ∧ (parseHeader buf'.toList).2 = false := by
  intro buf buf'
  have h : (parseHeader buf.toList).2 = true := by decide +kernel
  have h1 : 1 ≤ hammingDist buf.bits buf'.bits := by decide +kernel
  have h3 : hammingDist buf.bits buf'.bits ≤ 3 := by decide +kernel
  exact ⟨h, h1, h3, header_distance h h1 h3⟩

end UsbMux.VP
