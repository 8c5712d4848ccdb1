/-
Memory as programs use it: arrays of a fixed length with the copies that
`memcpy` and `memmove` make, and pointers that may be null. A block's length
is part of its type, so a copy that runs past the end is cut there and a
write past the end changes nothing.
-/
import Mathlib.Data.Vector.Basic

namespace UsbMux

variable {α : Type}

/-! ## Copies into a list -/

/-- `l` with `xs` copied over it from index `off` on. -/
def blit (l : List α) (off : Nat) (xs : List α) : List α :=
  l.take off ++ xs.take (l.length - off) ++ l.drop (off + xs.length)

@[simp] theorem length_blit (l : List α) (off : Nat) (xs : List α) :
    (blit l off xs).length = l.length := by
  simp [blit]; omega

theorem blit_eq {l xs : List α} {off : Nat} (h : off + xs.length ≤ l.length) :
    blit l off xs = l.take off ++ xs ++ l.drop (off + xs.length) := by
  simp only [blit]; rw [List.take_of_length_le (l := xs) (by omega)]

theorem take_blit {l xs : List α} {off : Nat} (h : off + xs.length ≤ l.length) :
    (blit l off xs).take (off + xs.length) = l.take off ++ xs := by
  rw [blit_eq h, List.take_append_of_le_length (by simp; omega), List.take_of_length_le (by simp)]

/-! ## Blocks -/

/-- An array of `n` cells. -/
abbrev Block (α : Type) (n : Nat) := List.Vector α n

namespace Block

variable {n : Nat}

/-- Every cell holds `a`. -/
def fill (n : Nat) (a : α) : Block α n := List.Vector.replicate n a

/-- One cell written; nothing happens past the end. -/
def put (b : Block α n) (i : Nat) (a : α) : Block α n :=
  ⟨b.toList.set i a, by rw [List.length_set]; exact b.toList_length⟩

/-- `xs` copied into the block from `off` on. -/
def write (b : Block α n) (off : Nat) (xs : List α) : Block α n :=
  ⟨blit b.toList off xs, by rw [length_blit]; exact b.toList_length⟩

/-- `len` cells from `off` on. -/
def slice (b : Block α n) (off len : Nat) : List α := (b.toList.drop off).take len

@[simp] theorem toList_put (b : Block α n) (i : Nat) (a : α) : (b.put i a).toList = b.toList.set i a := rfl
@[simp] theorem toList_write (b : Block α n) (off : Nat) (xs : List α) :
    (b.write off xs).toList = blit b.toList off xs := rfl

theorem length_slice (b : Block α n) {off len : Nat} (h : off + len ≤ n) : (b.slice off len).length = len := by
  simp [slice]; omega

/-- Writing the cell at `k` extends the first `k` cells by the written one. -/
theorem take_put (b : Block α n) {k : Nat} (a : α) (hk : k < n) :
    (b.put k a).toList.take (k + 1) = b.toList.take k ++ [a] := by
  have hk' : k < b.toList.length := by simpa using hk
  rw [toList_put, List.take_succ_eq_append_getElem (by simpa using hk'), List.take_set_of_le le_rfl]
  simp

/-- A list written to the start of a block can be read back from there. -/
theorem take_write (b : Block α n) {xs : List α} {k : Nat} (hk : xs.length = k) (h : k ≤ n) :
    (b.write 0 xs).toList.take k = xs := by
  have hfit : 0 + xs.length ≤ b.toList.length := by rw [b.toList_length]; omega
  simpa [hk] using take_blit hfit

end Block

/-! ## Pointers -/

/-- A pointer: null, or the cells readable from where it points. -/
abbrev Ptr (α : Type) := Option (List α)

namespace Ptr

variable [Inhabited α]

/-- `p[i]`. -/
def cell (p : Ptr α) (i : Nat) : α := (p.getD []).getD i default

/-- `p + k`. -/
def shift (p : Ptr α) (k : Nat) : Ptr α := p.map (List.drop k)

/-- The `n` cells a copy of length `n` reads. -/
def cells (p : Ptr α) (n : Nat) : List α := (List.range n).map p.cell

omit [Inhabited α] in
@[simp] theorem shift_zero (p : Ptr α) : p.shift 0 = p := by cases p <;> rfl

omit [Inhabited α] in
@[simp] theorem shift_shift (p : Ptr α) (a b : Nat) : (p.shift a).shift b = p.shift (a + b) := by
  cases p with
  | none => rfl
  | some l => simp [shift, List.drop_drop]

theorem cell_shift (p : Ptr α) (k i : Nat) : (p.shift k).cell i = p.cell (k + i) := by
  cases p with
  | none => rfl
  | some l => simp [shift, cell, List.getD_eq_getElem?_getD]

omit [Inhabited α] in
@[simp] theorem isNone_shift (p : Ptr α) (k : Nat) : (p.shift k).isNone = p.isNone := by cases p <;> rfl

@[simp] theorem length_cells (p : Ptr α) (n : Nat) : (p.cells n).length = n := by simp [cells]

theorem cells_some {l : List α} {n : Nat} (h : n ≤ l.length) : cells (some l) n = l.take n := by
  refine List.ext_getElem (by simp [h]) ?_
  intro i h₁ h₂
  simp only [length_cells] at h₁
  simp [cells, cell, List.getElem?_eq_getElem (show i < l.length by omega)]

end Ptr

end UsbMux
