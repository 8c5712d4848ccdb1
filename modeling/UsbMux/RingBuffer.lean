/-
The byte ring of `common/ring_buffer.c`, and that it is a queue of at most
`size - 1` bytes (`RingBuffer.toList`, the `*_toList` lemmas).

The structure carries what `RingBuffer_Init` sets up and every operation
keeps: the array has `size` cells and both indices are inside it. Null
arguments are not modelled; every ring of the firmware is a static object.
`RingBuffer_X` of the source is `x` here.
-/
import Mathlib.Data.UInt
import UsbMux.Lib.Block
import UsbMux.Lib.Circular

namespace UsbMux

/-- `ring_buffer_t` with a buffer of at least two bytes attached. -/
structure RingBuffer where
  buf : List UInt8
  size : UInt16
  head : UInt16
  tail : UInt16
  two_le : 2 ≤ size
  buf_length : buf.length = size.toNat
  head_lt : head < size
  tail_lt : tail < size
deriving DecidableEq

namespace RingBuffer

def nextIndex (rb : RingBuffer) (index : UInt16) : UInt16 :=
  let index := index + 1
  if index ≥ rb.size then 0 else index

theorem zero_lt (rb : RingBuffer) : 0 < rb.size :=
  UInt16.lt_of_lt_of_le (by decide) rb.two_le

theorem nextIndex_lt (rb : RingBuffer) (i : UInt16) : rb.nextIndex i < rb.size := by
  simp only [nextIndex]
  split
  · exact rb.zero_lt
  · next h => exact UInt16.not_le.mp h

/-- `RingBuffer_Init`, on a buffer of at least two bytes. -/
def init (buf : List UInt8) (size : UInt16) (h : 2 ≤ size) (hb : buf.length = size.toNat) : RingBuffer where
  buf := buf
  size := size
  head := 0
  tail := 0
  two_le := h
  buf_length := hb
  head_lt := UInt16.lt_of_lt_of_le (by decide) h
  tail_lt := UInt16.lt_of_lt_of_le (by decide) h

def reset (rb : RingBuffer) : RingBuffer :=
  { rb with head := 0, tail := 0, head_lt := rb.zero_lt, tail_lt := rb.zero_lt }

def count (rb : RingBuffer) : UInt16 :=
  if rb.size < 2 then 0
  else if rb.head ≥ rb.tail then rb.head - rb.tail
  else rb.size - rb.tail + rb.head

def space (rb : RingBuffer) : UInt16 :=
  if rb.size < 2 then 0 else (rb.size - 1) - rb.count

def isEmpty (rb : RingBuffer) : Bool := rb.count == 0

def isFull (rb : RingBuffer) : Bool := rb.space == 0

/-- The array cell at the head written and the head moved on. -/
def store (rb : RingBuffer) (data : UInt8) : RingBuffer :=
  { rb with
    buf := rb.buf.set rb.head.toNat data
    head := rb.nextIndex rb.head
    buf_length := by rw [List.length_set]; exact rb.buf_length
    head_lt := rb.nextIndex_lt rb.head }

/-- The tail moved on. -/
def discard (rb : RingBuffer) : RingBuffer :=
  { rb with tail := rb.nextIndex rb.tail, tail_lt := rb.nextIndex_lt rb.tail }

/-- `RingBuffer_PushByte`; `none` is the answer -1, which changes nothing. -/
def pushByte (rb : RingBuffer) (data : UInt8) : Option RingBuffer :=
  if rb.size < 2 then none
  else if rb.nextIndex rb.head = rb.tail then none
  else some (rb.store data)

/-- `RingBuffer_PopByte`; `none` is the answer -1, which changes nothing. -/
def popByte (rb : RingBuffer) : Option (UInt8 × RingBuffer) :=
  if rb.head = rb.tail then none
  else some (rb.buf.getD rb.tail.toNat 0, rb.discard)

/-- The loop of `RingBuffer_Write` over the bytes still to be written. -/
def writeLoop (rb : RingBuffer) : List UInt8 → UInt16 → RingBuffer × UInt16
  | [], written => (rb, written)
  | b :: bs, written =>
    match rb.pushByte b with
    | none => (rb, written)
    | some rb' => writeLoop rb' bs (written + 1)

def write (rb : RingBuffer) (data : Ptr UInt8) (len : UInt16) : RingBuffer × UInt16 :=
  if data.isNone then (rb, 0) else rb.writeLoop (data.cells len.toNat) 0

/-- The loop of `RingBuffer_Read`, `n` bytes at most still to be read. -/
def readLoop (rb : RingBuffer) : Nat → RingBuffer × List UInt8
  | 0 => (rb, [])
  | n + 1 =>
    match rb.popByte with
    | none => (rb, [])
    | some (b, rb') => ((readLoop rb' n).1, b :: (readLoop rb' n).2)

/-- `RingBuffer_Read`: the ring afterwards and the bytes read. -/
def read (rb : RingBuffer) (len : UInt16) : RingBuffer × List UInt8 := rb.readLoop len.toNat

/-! ## The ring as a queue of bytes -/

/-- The bytes in the ring, oldest first. -/
def toList (rb : RingBuffer) : List UInt8 := Circular.view rb.buf rb.tail.toNat rb.count.toNat

theorem not_size_lt_two (rb : RingBuffer) : ¬ rb.size < 2 := UInt16.not_lt.mpr rb.two_le

theorem size_bounds (rb : RingBuffer) :
    2 ≤ rb.size.toNat ∧ rb.head.toNat < rb.size.toNat ∧ rb.tail.toNat < rb.size.toNat := by
  refine ⟨?_, UInt16.lt_iff_toNat_lt.mp rb.head_lt, UInt16.lt_iff_toNat_lt.mp rb.tail_lt⟩
  simpa using UInt16.le_iff_toNat_le.mp rb.two_le

theorem nextIndex_toNat (rb : RingBuffer) {i : UInt16} (hi : i.toNat < rb.size.toNat) :
    (rb.nextIndex i).toNat = (i.toNat + 1) % rb.size.toNat := by
  have hs := rb.size.toNat_lt
  have h1 : (i + 1).toNat = i.toNat + 1 := by simp; omega
  simp only [nextIndex, ge_iff_le, UInt16.le_iff_toNat_le, h1]
  split
  · next h => rw [show i.toNat + 1 = rb.size.toNat by omega]; simp
  · next h => rw [h1, Nat.mod_eq_of_lt (by omega)]

/-- `RingBuffer_Count` is the distance from tail to head around the ring. -/
theorem count_toNat (rb : RingBuffer) :
    rb.count.toNat < rb.size.toNat ∧
      (rb.tail.toNat + rb.count.toNat) % rb.size.toNat = rb.head.toNat := by
  obtain ⟨h2, hh, ht⟩ := rb.size_bounds
  have hs := rb.size.toNat_lt
  simp only [count, if_neg rb.not_size_lt_two, ge_iff_le, UInt16.le_iff_toNat_le]
  split
  · next h =>
    have hc : (rb.head - rb.tail).toNat = rb.head.toNat - rb.tail.toNat :=
      UInt16.toNat_sub_of_le _ _ (UInt16.le_iff_toNat_le.mpr h)
    rw [hc, Nat.add_sub_cancel' h, Nat.mod_eq_of_lt hh]
    exact ⟨by omega, rfl⟩
  · next h =>
    have hc : (rb.size - rb.tail + rb.head).toNat = rb.size.toNat - rb.tail.toNat + rb.head.toNat := by
      rw [UInt16.toNat_add, UInt16.toNat_sub_of_le _ _ (UInt16.le_iff_toNat_le.mpr (by omega))]
      exact Nat.mod_eq_of_lt (by omega)
    rw [hc, show rb.tail.toNat + (rb.size.toNat - rb.tail.toNat + rb.head.toNat) =
      rb.head.toNat + rb.size.toNat by omega]
    simp [Nat.mod_eq_of_lt hh]
    omega

/-- The count is the only number below `size` that leads from tail to head. -/
theorem count_unique (rb : RingBuffer) {k : Nat} (hk : k < rb.size.toNat)
    (hh : (rb.tail.toNat + k) % rb.size.toNat = rb.head.toNat) : rb.count.toNat = k := by
  obtain ⟨h1, h2⟩ := rb.count_toNat
  have := Nat.ModEq.add_left_cancel' rb.tail.toNat
    (show rb.tail.toNat + rb.count.toNat ≡ rb.tail.toNat + k [MOD rb.size.toNat] from h2.trans hh.symm)
  rwa [Nat.ModEq, Nat.mod_eq_of_lt h1, Nat.mod_eq_of_lt hk] at this

theorem length_toList (rb : RingBuffer) : rb.toList.length = rb.count.toNat := by
  have := rb.count_toNat.1
  exact Circular.length_view (by rw [rb.buf_length]; omega)

theorem length_toList_lt (rb : RingBuffer) : rb.toList.length < rb.size.toNat := by
  rw [length_toList]; exact rb.count_toNat.1

theorem space_toNat (rb : RingBuffer) : rb.space.toNat = rb.size.toNat - 1 - rb.toList.length := by
  obtain ⟨h2, -, -⟩ := rb.size_bounds
  have hc := rb.count_toNat.1
  have h1 : (rb.size - 1).toNat = rb.size.toNat - 1 :=
    UInt16.toNat_sub_of_le _ _ (UInt16.le_iff_toNat_le.mpr (by simp; omega))
  rw [space, if_neg rb.not_size_lt_two, length_toList,
    UInt16.toNat_sub_of_le _ _ (UInt16.le_iff_toNat_le.mpr (by omega)), h1]

@[simp] theorem toList_init (buf size h hb) : (init buf size h hb).toList = [] := by
  have hpos := (init buf size h hb).size_bounds
  have : (init buf size h hb).count.toNat = 0 := count_unique _ (by omega) (by simp [init])
  simp [toList, this]

@[simp] theorem toList_reset (rb : RingBuffer) : rb.reset.toList = [] := by
  have hpos := rb.reset.size_bounds
  have : rb.reset.count.toNat = 0 := count_unique _ (by omega) (by simp [reset])
  simp [toList, this]

theorem pushByte_eq_none (rb : RingBuffer) (b : UInt8) :
    rb.pushByte b = none ↔ rb.toList.length = rb.size.toNat - 1 := by
  obtain ⟨h2, hh, ht⟩ := rb.size_bounds
  obtain ⟨hc, hch⟩ := rb.count_toNat
  simp only [pushByte, if_neg rb.not_size_lt_two, length_toList]
  rw [ite_eq_left_iff]
  simp only [reduceCtorEq, imp_false, not_not]
  rw [← UInt16.toNat_inj, rb.nextIndex_toNat hh, ← hch, Nat.mod_add_mod]
  constructor
  · intro he
    by_contra hne
    -- one more than the count would lead from tail back to tail
    have := Nat.ModEq.add_left_cancel' rb.tail.toNat (show rb.tail.toNat + (rb.count.toNat + 1) ≡
      rb.tail.toNat + 0 [MOD rb.size.toNat] by rw [← add_assoc]; exact he.trans (by simp [Nat.mod_eq_of_lt ht]))
    rw [Nat.ModEq, Nat.mod_eq_of_lt (by omega)] at this
    simp at this
  · intro he
    rw [show rb.tail.toNat + rb.count.toNat + 1 = rb.tail.toNat + rb.size.toNat by omega]
    simp [Nat.mod_eq_of_lt ht]

theorem store_toList {rb : RingBuffer} (h : rb.toList.length ≠ rb.size.toNat - 1) (b : UInt8) :
    (rb.store b).toList = rb.toList ++ [b] := by
  obtain ⟨h2, hh, ht⟩ := rb.size_bounds
  obtain ⟨hc, hch⟩ := rb.count_toNat
  rw [length_toList] at h
  have hcount : (rb.store b).count.toNat = rb.count.toNat + 1 :=
    count_unique _ (by simp only [store]; omega) (by
      simp only [store]
      rw [rb.nextIndex_toNat hh, ← hch, Nat.mod_add_mod, add_assoc])
  rw [toList, hcount]
  simp only [store, toList]
  rw [← Circular.view_push (by rw [rb.buf_length]; omega), rb.buf_length, hch]

theorem pushByte_toList {rb rb' : RingBuffer} {b : UInt8} (h : rb.pushByte b = some rb') :
    rb'.toList = rb.toList ++ [b] ∧ rb'.size = rb.size := by
  have hne : rb.toList.length ≠ rb.size.toNat - 1 := by rw [Ne, ← rb.pushByte_eq_none b, h]; simp
  simp only [pushByte, if_neg rb.not_size_lt_two] at h
  split at h
  · cases h
  · cases h
    exact ⟨store_toList hne b, rfl⟩

theorem discard_toList {rb : RingBuffer} (h : rb.head ≠ rb.tail) :
    rb.toList = rb.buf.getD rb.tail.toNat 0 :: rb.discard.toList := by
  obtain ⟨h2, hh, ht⟩ := rb.size_bounds
  obtain ⟨hc, hch⟩ := rb.count_toNat
  have hpos : rb.count.toNat ≠ 0 := fun h0 => h <| by
    rw [← UInt16.toNat_inj, ← hch, h0, Nat.add_zero, Nat.mod_eq_of_lt ht]
  obtain ⟨k, hk⟩ := Nat.exists_eq_succ_of_ne_zero hpos
  have hcount : rb.discard.count.toNat = k :=
    count_unique _ (by simp only [discard]; omega) (by
      simp only [discard]
      rw [rb.nextIndex_toNat ht, Nat.mod_add_mod, ← hch, hk]
      congr 1
      omega)
  rw [toList, hk, toList, hcount]
  simp only [discard]
  rw [Circular.view_pop (by rw [rb.buf_length]; omega) 0, rb.nextIndex_toNat ht]
  simp only [rb.buf_length, Nat.mod_eq_of_lt ht]

theorem popByte_toList (rb : RingBuffer) :
    (rb.popByte = none ∧ rb.toList = []) ∨
      ∃ b rb', rb.popByte = some (b, rb') ∧ rb.toList = b :: rb'.toList ∧ rb'.size = rb.size := by
  by_cases he : rb.head = rb.tail
  · have ht := rb.size_bounds.2.2
    have : rb.count.toNat = 0 := count_unique _ (by omega) (by simp [he, Nat.mod_eq_of_lt ht])
    exact .inl ⟨by simp [popByte, he], by simp [toList, this]⟩
  · exact .inr ⟨_, _, by rw [popByte, if_neg he], discard_toList he, rfl⟩

/-- Writing appends the longest prefix that fits and counts it. -/
theorem writeLoop_toList (rb : RingBuffer) (bs : List UInt8) (w : UInt16) :
    (rb.writeLoop bs w).1.toList = rb.toList ++ bs.take (rb.size.toNat - 1 - rb.toList.length) ∧
      (rb.writeLoop bs w).1.size = rb.size ∧
      (rb.writeLoop bs w).2 = w + UInt16.ofNat (min bs.length (rb.size.toNat - 1 - rb.toList.length)) := by
  induction bs generalizing rb w with
  | nil => simp [writeLoop]
  | cons b bs ih =>
    have hlt := rb.length_toList_lt
    rw [writeLoop]
    cases hp : rb.pushByte b with
    | none =>
      have := (rb.pushByte_eq_none b).mp hp
      simp [this]
    | some rb' =>
      have hne : rb.toList.length ≠ rb.size.toNat - 1 := by rw [Ne, ← rb.pushByte_eq_none b, hp]; simp
      obtain ⟨hl, hs⟩ := pushByte_toList hp
      obtain ⟨i1, i2, i3⟩ := ih rb' (w + 1)
      obtain ⟨n, hn⟩ : ∃ n, rb.size.toNat - 1 - rb.toList.length = n + 1 :=
        Nat.exists_eq_succ_of_ne_zero (by omega)
      have hn' : rb'.size.toNat - 1 - rb'.toList.length = n := by rw [hs, hl]; simp; omega
      rw [hn'] at i1 i3
      refine ⟨?_, i2.trans hs, ?_⟩
      · simp only [i1, hl, hn, List.take_succ_cons]; simp
      · simp only [i3, hn, List.length_cons, Nat.add_min_add_right, UInt16.ofNat_add, add_assoc]
        simp [add_comm]

theorem write_toList (rb : RingBuffer) {l : List UInt8} {len : UInt16} (hl : len.toNat ≤ l.length) :
    (rb.write (some l) len).1.toList =
      rb.toList ++ (l.take len.toNat).take (rb.size.toNat - 1 - rb.toList.length) ∧
    (rb.write (some l) len).1.size = rb.size ∧
    (rb.write (some l) len).2.toNat = min len.toNat (rb.size.toNat - 1 - rb.toList.length) := by
  obtain ⟨h1, h2, h3⟩ := rb.writeLoop_toList (l.take len.toNat) 0
  have hs := rb.size.toNat_lt
  simp only [write, Option.isNone_some, Bool.false_eq_true, if_false, Ptr.cells_some hl]
  refine ⟨h1, h2, ?_⟩
  rw [h3]
  simp [hl]
  omega

/-- Reading removes the first bytes, as many as asked for or all. -/
theorem readLoop_toList (rb : RingBuffer) (n : Nat) :
    (rb.readLoop n).2 = rb.toList.take n ∧ (rb.readLoop n).1.toList = rb.toList.drop n ∧
      (rb.readLoop n).1.size = rb.size := by
  induction n generalizing rb with
  | zero => simp [readLoop]
  | succ n ih =>
    rw [readLoop]
    rcases rb.popByte_toList with ⟨hp, hl⟩ | ⟨b, rb', hp, hl, hs⟩
    · simp [hp, hl]
    · obtain ⟨i1, i2, i3⟩ := ih rb'
      simp [hp, hl, i1, i2, i3, hs]

end RingBuffer

end UsbMux
