/-
The divider `USART_Init` computes for an accepted baud rate. The manager asks
of a baud rate only that it is not 0; the computation mixes 32 and 64 bits, so
the divisor can be 0 all the same, and the divider can be too large for BRR or
have no integer part (`divider_valid_iff`).
-/
import UsbMux.UartPort

namespace UsbMux.UartHw

open UartMgr

/-! ## The computation -/

/-- `integerdivider`: a hundred times the divider. -/
def integerDivider (baudRate : UInt32) (apbclock : UInt64) : UInt32 :=
  ((25 * apbclock) / (4 * baudRate).toUInt64).toUInt32

/-- `fractionaldivider` at its end: the sixteenths of the divider, rounded. -/
def fractionalDivider (integerdivider : UInt32) : UInt32 :=
  let tmpreg : UInt64 := ((integerdivider / 100) <<< 4).toUInt64
  let fractionaldivider : UInt32 := (integerdivider.toUInt64 - (100 : UInt64) * (tmpreg >>> 4)).toUInt32
  (fractionaldivider * 16 + 50) / 100

/-- `tmpreg` as it is written to BRR, before the conversion to 16 bits. -/
def divider (integerdivider : UInt32) : UInt64 :=
  let tmpreg : UInt64 := ((integerdivider / 100) <<< 4).toUInt64
  let fractionaldivider := fractionalDivider integerdivider
  if fractionaldivider > 0xF then tmpreg + 16 else tmpreg ||| (fractionaldivider &&& 0x0F).toUInt64

theorem brrValue_eq (baudRate : UInt32) (apbclock : UInt64) :
    brrValue baudRate apbclock = (divider (integerDivider baudRate apbclock)).toUInt16 := rfl

theorem integerDivider_toNat (baudRate : UInt32) {apbclock : UInt64} (hc : 25 * apbclock.toNat < 2 ^ 32) :
    (integerDivider baudRate apbclock).toNat = 25 * apbclock.toNat / (4 * baudRate).toNat := by
  have hq : 25 * apbclock.toNat / (4 * baudRate).toNat < 2 ^ 32 := lt_of_le_of_lt (Nat.div_le_self _ _) hc
  simp only [integerDivider, UInt64.toNat_toUInt32, UInt64.toNat_div, UInt64.toNat_mul, UInt32.toNat_toUInt64]
  rw [show (25 : UInt64).toNat = 25 from rfl, Nat.mod_eq_of_lt (show 25 * apbclock.toNat < 2 ^ 64 by omega),
    Nat.mod_eq_of_lt hq]

theorem tmpreg_toNat (q : UInt32) : (((q / 100) <<< 4).toUInt64).toNat = q.toNat / 100 * 16 := by
  have := q.toNat_lt
  rw [UInt32.toNat_toUInt64, UInt32.toNat_shiftLeft, UInt32.toNat_div]
  simp only [UInt32.reduceToNat, Nat.shiftLeft_eq, Nat.reduceMod, Nat.reducePow]
  omega

theorem fractionalDivider_toNat (q : UInt32) : (fractionalDivider q).toNat = (q.toNat % 100 * 16 + 50) / 100 := by
  have hq := q.toNat_lt
  have hshift : (((q / 100) <<< 4).toUInt64 >>> 4).toNat = q.toNat / 100 := by
    rw [UInt64.toNat_shiftRight, tmpreg_toNat]
    simp only [UInt64.reduceToNat, Nat.shiftRight_eq_div_pow, Nat.reduceMod, Nat.reducePow]
    omega
  have hrest : (q.toUInt64 - (100 : UInt64) * (((q / 100) <<< 4).toUInt64 >>> 4)).toNat = q.toNat % 100 := by
    rw [UInt64.toNat_sub, UInt64.toNat_mul, hshift, UInt32.toNat_toUInt64]
    simp only [UInt64.reduceToNat]
    omega
  simp only [fractionalDivider, UInt32.toNat_div, UInt32.toNat_add, UInt32.toNat_mul, UInt64.toNat_toUInt32, hrest]
  simp only [UInt32.reduceToNat]
  omega

theorem divider_toNat (q : UInt32) : (divider q).toNat = (16 * q.toNat + 50) / 100 := by
  have hq := q.toNat_lt
  have hsplit : (16 * q.toNat + 50) / 100 = q.toNat / 100 * 16 + (fractionalDivider q).toNat := by
    rw [fractionalDivider_toNat]
    omega
  rw [hsplit]
  simp only [divider]
  split
  · next hgt =>
    have hcarry : (fractionalDivider q).toNat = 16 := by
      have hgt : 15 < (fractionalDivider q).toNat := UInt32.lt_iff_toNat_lt.mp hgt
      rw [fractionalDivider_toNat] at hgt ⊢
      omega
    rw [UInt64.toNat_add, tmpreg_toNat, hcarry]
    exact Nat.mod_eq_of_lt (by simp only [UInt64.reduceToNat]; omega)
  · next hle =>
    have hle : (fractionalDivider q).toNat < 2 ^ 4 :=
      Nat.lt_succ_of_le (UInt32.le_iff_toNat_le.mp (UInt32.not_lt.mp hle))
    rw [UInt64.toNat_or, tmpreg_toNat, UInt32.toNat_toUInt64, UInt32.toNat_and]
    rw [show (0x0F : UInt32).toNat = 2 ^ 4 - 1 from rfl, Nat.and_two_pow_sub_one_of_lt_two_pow hle]
    have hor := Nat.shiftLeft_add_eq_or_of_lt hle (q.toNat / 100)
    rw [Nat.shiftLeft_eq] at hor
    exact hor.symm

/-! ## Line codings -/

/-- `USART_Init`, called for a line coding, divides by something, and the
divider has an integer part and fits into BRR. -/
structure ValidDivider (c : LineCoding) (apbclock : UInt64) : Prop where
  divisor : 4 * (usartCfg c).baudRate ≠ 0
  integer : 16 ≤ (divider (integerDivider (usartCfg c).baudRate apbclock)).toNat
  fits : (divider (integerDivider (usartCfg c).baudRate apbclock)).toNat ≤ 65535

theorem ValidDivider.brr {c : LineCoding} {apbclock : UInt64} (h : ValidDivider c apbclock) (u : Usart) :
    (configure u c apbclock).brr.toNat = (divider (integerDivider (usartCfg c).baudRate apbclock)).toNat := by
  have hbrr : (configure u c apbclock).brr = brrValue (usartCfg c).baudRate apbclock := rfl
  rw [hbrr, brrValue_eq, UInt64.toNat_toUInt16]
  exact Nat.mod_eq_of_lt (Nat.lt_succ_of_le h.fits)

theorem parseLineCoding_baudrate {payload : Ptr UInt8} {payloadLen : UInt16} {c : LineCoding}
    (h : parseLineCoding payload payloadLen = .ok c) : c.baudrate = readLe32 payload := by
  unfold parseLineCoding at h
  by_cases hlen : payload.isNone ∨ payloadLen < 4
  · rw [if_pos hlen] at h
    cases h
  rw [if_neg hlen] at h
  extract_lets c' at h
  have hb : c'.baudrate = readLe32 payload := rfl
  clear_value c'
  split_ifs at h
  cases h
  exact hb

/-- The bounds on the divider as bounds on the quotient it is rounded from. -/
theorem rounded_iff (q : Nat) : (16 ≤ (16 * q + 50) / 100 ∧ (16 * q + 50) / 100 ≤ 65535) ↔ 97 ≤ q ∧ q < 409597 := by
  omega

/-- **The divider of an accepted baud rate** is valid exactly if 25 times the
clock is at least 97 and less than 409597 times the divisor, four times the
baud rate in 32 bits. -/
theorem divider_valid_iff {payload : Ptr UInt8} {payloadLen : UInt16} {c : LineCoding}
    (hc : parseLineCoding payload payloadLen = .ok c) {apbclock : UInt64} (hlow : 8000000 ≤ apbclock.toNat)
    (hhigh : apbclock.toNat ≤ 144000000) :
    let divisor := (4 * readLe32 payload).toNat
    ValidDivider c apbclock ↔ 97 * divisor ≤ 25 * apbclock.toNat ∧ 25 * apbclock.toNat < 409597 * divisor := by
  intro divisor
  have hd : (4 * (usartCfg c).baudRate).toNat = divisor := by
    change (4 * c.baudrate).toNat = (4 * readLe32 payload).toNat
    rw [parseLineCoding_baudrate hc]
  have hq : (integerDivider (usartCfg c).baudRate apbclock).toNat = 25 * apbclock.toNat / divisor := by
    rw [integerDivider_toNat _ (by omega), hd]
  have hvalid : ValidDivider c apbclock ↔ divisor ≠ 0 ∧ 97 ≤ 25 * apbclock.toNat / divisor ∧
      25 * apbclock.toNat / divisor < 409597 := by
    rw [← rounded_iff, ← hq, ← divider_toNat, ← hd]
    refine ⟨fun h => ⟨?_, h.integer, h.fits⟩, fun h => ⟨?_, h.2.1, h.2.2⟩⟩
    · exact fun h0 => h.divisor (UInt32.toNat_inj.mp h0)
    · exact fun h0 => h.1 (by rw [h0]; rfl)
  rw [hvalid]
  by_cases h0 : divisor = 0
  · -- nothing is below the upper bound
    simp [h0]
  · have hpos : 0 < divisor := Nat.pos_of_ne_zero h0
    rw [Nat.le_div_iff_mul_le hpos, Nat.div_lt_iff_lt_mul hpos, Nat.mul_comm 97, Nat.mul_comm divisor]
    simp [h0]

/-- 115200 baud with a bus clock of 72 MHz. -/
theorem divider_valid_115200 : ValidDivider ⟨115200, 8, 0, 1⟩ 72000000 :=
  (divider_valid_iff (show parseLineCoding (some [0x00, 0xC2, 0x01, 0x00]) 4 = .ok ⟨115200, 8, 0, 1⟩ from rfl)
    (by decide) (by decide)).mpr (by decide)

/-- Baud rates that are accepted and configured: one makes the divisor 0, with
one the divider does not fit into BRR, with one it has no integer part. -/
theorem accepted_without_divider :
    (parseLineCoding (some [0x00, 0x00, 0x00, 0x40]) 4 = .ok ⟨1073741824, 8, 0, 1⟩ ∧
      4 * (usartCfg ⟨1073741824, 8, 0, 1⟩).baudRate = 0 ∧ ¬ ValidDivider ⟨1073741824, 8, 0, 1⟩ 144000000) ∧
    (parseLineCoding (some [0xB0, 0x04, 0x00, 0x00]) 4 = .ok ⟨1200, 8, 0, 1⟩ ∧
      ¬ ValidDivider ⟨1200, 8, 0, 1⟩ 144000000) ∧
    (parseLineCoding (some [0x80, 0x96, 0x98, 0x00]) 4 = .ok ⟨10000000, 8, 0, 1⟩ ∧
      ¬ ValidDivider ⟨10000000, 8, 0, 1⟩ 144000000) ∧
    ∀ (h : Hw) (c : LineCoding), (applyConfig h (some 0) (uartMapCfg 0) c).2 = .ok := by
  refine ⟨⟨rfl, rfl, fun h => h.divisor rfl⟩, ⟨rfl, fun h => ?_⟩, ⟨rfl, fun h => ?_⟩, fun h c => rfl⟩
  · exact absurd h.fits (by decide)
  · exact absurd h.integer (by decide)

end UsbMux.UartHw
