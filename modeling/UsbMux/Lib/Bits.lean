/-
Masks over 16-bit words: what setting bits and clearing bits does to the
bits of a mask.
-/
import Mathlib.Data.Nat.Bitwise
import Mathlib.Data.UInt

namespace UsbMux.Bits

theorem or_and (a b m : UInt16) : (a ||| b) &&& m = (a &&& m) ||| (b &&& m) := by
  rw [← UInt16.toBitVec_inj]
  simp only [UInt16.toBitVec_and, UInt16.toBitVec_or, BitVec.and_or_distrib_right]

theorem and_or_self (a b : UInt16) : (a &&& b) ||| b = b := by
  rw [← UInt16.toBitVec_inj]
  refine BitVec.eq_of_getElem_eq ?_
  intro i hi
  simp only [UInt16.toBitVec_or, UInt16.toBitVec_and, BitVec.getElem_or, BitVec.getElem_and]
  cases a.toBitVec[i] <;> cases b.toBitVec[i] <;> rfl

theorem set_other {b m : UInt16} (h : b &&& m = 0) (a : UInt16) : (a ||| b) &&& m = a &&& m := by
  rw [or_and, h, UInt16.or_zero]

theorem set_self {b m : UInt16} (h : b &&& m = m) (a : UInt16) : (a ||| b) &&& m = m := by
  rw [or_and, h, and_or_self]

theorem keep_none {b m : UInt16} (h : b &&& m = 0) (a : UInt16) : (a &&& b) &&& m = 0 := by
  rw [UInt16.and_assoc, h, UInt16.and_zero]

/-! ## Words of events -/

/-- A bit of the mask is set. -/
def Has (w m : UInt16) : Prop := w &&& m ≠ 0

instance (w m : UInt16) : Decidable (Has w m) := inferInstanceAs (Decidable (_ ≠ _))

theorem not_has_zero (m : UInt16) : ¬ Has 0 m := not_not_intro UInt16.zero_and

theorem has_or {a b m : UInt16} : Has (a ||| b) m ↔ Has a m ∨ Has b m := by
  rw [Has, or_and, ne_eq, UInt16.or_eq_zero_iff, not_and_or]
  rfl

/-- A bit is among those that are cleared or among those that stay. -/
theorem has_clear_or {a m : UInt16} (h : Has a m) (b : UInt16) : Has (a &&& ~~~b) m ∨ Has (a &&& b) m := by
  have hsplit : (a &&& ~~~b) ||| (a &&& b) = a := by
    rw [← UInt16.toBitVec_inj]
    refine BitVec.eq_of_getElem_eq ?_
    intro i hi
    simp only [UInt16.toBitVec_or, UInt16.toBitVec_and, UInt16.toBitVec_not, BitVec.getElem_or, BitVec.getElem_and,
      BitVec.getElem_not]
    cases a.toBitVec[i] <;> cases b.toBitVec[i] <;> rfl
  rwa [← has_or, hsplit]

theorem xor_and (a b m : UInt16) : (a ^^^ b) &&& m = (a &&& m) ^^^ (b &&& m) := by
  rw [← UInt16.toNat_inj]
  simp only [UInt16.toNat_and, UInt16.toNat_xor, Nat.and_xor_distrib_right]

theorem has_xor_of_disjoint {b m : UInt16} (h : b &&& m = 0) (a : UInt16) : Has (a ^^^ b) m ↔ Has a m := by
  rw [Has, xor_and, h, UInt16.xor_zero]
  rfl

theorem and_single {a m : UInt16} {k : Nat} (hm : m.toNat = 2 ^ k) (h : Has a m) : a &&& m = m := by
  rw [← UInt16.toNat_inj, UInt16.toNat_and, hm, Nat.and_two_pow]
  cases hb : a.toNat.testBit k with
  | true => simp
  | false =>
    refine absurd ?_ h
    rw [← UInt16.toNat_inj, UInt16.toNat_and, hm, Nat.and_two_pow, hb]
    simp

theorem not_has_xor_self {a m : UInt16} {k : Nat} (hm : m.toNat = 2 ^ k) (h : Has a m) : ¬ Has (a ^^^ m) m := by
  rw [Has, xor_and, and_single hm h, UInt16.and_self, UInt16.xor_self, ne_eq, not_not]

end UsbMux.Bits
