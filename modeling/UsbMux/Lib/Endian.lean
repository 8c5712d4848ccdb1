/-
Values as bytes, low byte first. For sixteen bits writing and reading are
inverse in both directions.
-/
import Mathlib.Data.UInt

namespace UsbMux.Endian

/-- The low byte. -/
def lo (v : UInt16) : UInt8 := (v &&& 0xFF).toUInt8

/-- The high byte. -/
def hi (v : UInt16) : UInt8 := (v >>> 8).toUInt8

/-- The value with low byte `l` and high byte `h`. -/
def ofBytes (l h : UInt8) : UInt16 := l.toUInt16 ||| (h.toUInt16 <<< 8)

/-- `dst[0] = lo; dst[1] = hi`, with `dst` at index `off` of an array. -/
def writeLe16 (dst : List UInt8) (off : Nat) (v : UInt16) : List UInt8 :=
  (dst.set off (lo v)).set (off + 1) (hi v)

/-- `src[0] | src[1] << 8`, with `src` at index `off` of an array. -/
def readLe16 (src : List UInt8) (off : Nat) : UInt16 := ofBytes (src.getD off 0) (src.getD (off + 1) 0)

/-- The two bytes of a value, low byte first. -/
def le16 (v : UInt16) : List UInt8 := [lo v, hi v]

@[simp] theorem length_le16 (v : UInt16) : (le16 v).length = 2 := rfl

/-- The four bytes of a 32-bit value, low byte first. -/
def le32 (v : UInt32) : List UInt8 :=
  [(v &&& 0xFF).toUInt8, ((v >>> 8) &&& 0xFF).toUInt8, ((v >>> 16) &&& 0xFF).toUInt8,
    ((v >>> 24) &&& 0xFF).toUInt8]

/-- The 32-bit value of four bytes, low byte first. -/
def ofBytes32 (b0 b1 b2 b3 : UInt8) : UInt32 :=
  b0.toUInt32 ||| (b1.toUInt32 <<< 8) ||| (b2.toUInt32 <<< 16) ||| (b3.toUInt32 <<< 24)

@[simp] theorem length_writeLe16 (dst : List UInt8) (off : Nat) (v : UInt16) :
    (writeLe16 dst off v).length = dst.length := by simp [writeLe16]

/-! Field after field: an array whose first `n` cells are written and whose
other cells are those of `l`. -/

theorem set_next {pre l : List UInt8} {n : Nat} (hn : pre.length = n) (hl : n < l.length) (b : UInt8) :
    (pre ++ l.drop n).set n b = (pre ++ [b]) ++ l.drop (n + 1) := by
  rw [List.set_append_right _ _ (by omega), hn, Nat.sub_self, List.drop_eq_getElem_cons hl, List.set_cons_zero,
    List.append_assoc, List.singleton_append]

theorem writeLe16_next {pre l : List UInt8} {n : Nat} (hn : pre.length = n) (hl : n + 1 < l.length) (v : UInt16) :
    writeLe16 (pre ++ l.drop n) n v = (pre ++ le16 v) ++ l.drop (n + 2) := by
  rw [writeLe16, set_next hn (by omega), set_next (by simp [hn]) hl]
  simp [le16]

theorem ofBytes_toNat (l h : UInt8) : (ofBytes l h).toNat = l.toNat + 256 * h.toNat := by
  have hl := l.toNat_lt
  have hh := h.toNat_lt
  simp only [ofBytes, UInt16.toNat_or, UInt16.toNat_shiftLeft, UInt8.toNat_toUInt16]
  have hs : h.toNat <<< ((8 : UInt16).toNat % 16) % 2 ^ 16 = h.toNat <<< 8 := by
    simp [Nat.shiftLeft_eq]; omega
  rw [hs, Nat.or_comm, ← Nat.shiftLeft_add_eq_or_of_lt (by simpa using hl), Nat.shiftLeft_eq]
  omega

theorem lo_toNat (v : UInt16) : (lo v).toNat = v.toNat % 256 := by
  simp [lo, Nat.and_two_pow_sub_one_eq_mod _ 8]

theorem hi_toNat (v : UInt16) : (hi v).toNat = v.toNat / 256 := by
  have := v.toNat_lt
  simp [hi, Nat.shiftRight_eq_div_pow]; omega

@[simp] theorem ofBytes_lo_hi (v : UInt16) : ofBytes (lo v) (hi v) = v := by
  rw [← UInt16.toNat_inj, ofBytes_toNat, lo_toNat, hi_toNat]; omega

@[simp] theorem lo_ofBytes (l h : UInt8) : lo (ofBytes l h) = l := by
  have hl := l.toNat_lt
  rw [← UInt8.toNat_inj, lo_toNat, ofBytes_toNat]; omega

@[simp] theorem hi_ofBytes (l h : UInt8) : hi (ofBytes l h) = h := by
  have hl := l.toNat_lt
  rw [← UInt8.toNat_inj, hi_toNat, ofBytes_toNat]; omega

end UsbMux.Endian
