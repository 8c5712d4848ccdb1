/-
Circular buffers: the cells from an index on, wrapping at the end of the
array, as a list. Appending writes the cell after the last one, removing
moves the start by one; neither says how head, tail and count are stored.
-/
import Mathlib.Data.List.Rotate
import Mathlib.Data.Nat.ModEq

namespace UsbMux.Circular

variable {α : Type} {buf : List α} {i j k : Nat}

/-- The `k` cells of `buf` from index `i` on, wrapping at the end. -/
def view (buf : List α) (i k : Nat) : List α := (buf.rotate i).take k

@[simp] theorem view_zero (buf : List α) (i : Nat) : view buf i 0 = [] := by simp [view]

theorem length_view (h : k ≤ buf.length) : (view buf i k).length = k := by simp [view, h]

theorem view_mod (buf : List α) (i k : Nat) : view buf (i % buf.length) k = view buf i k := by
  simp [view, List.rotate_mod]

theorem getElem_view (hj : j < (view buf i k).length) (hb : (i + j) % buf.length < buf.length) :
    (view buf i k)[j] = buf[(i + j) % buf.length] := by
  simp [view, List.getElem_rotate, Nat.add_comm j i]

/-- Writing a cell past the viewed ones leaves the view as it was. -/
theorem view_set_of_le (hk : k ≤ j) (hj : j < buf.length) (x : α) :
    view (buf.set ((i + j) % buf.length) x) i k = view buf i k := by
  have hn : 0 < buf.length := by omega
  refine List.ext_getElem ?_ fun m h₁ h₂ => ?_
  · rw [length_view (by simp; omega), length_view (by omega)]
  rw [length_view (by omega)] at h₂
  have hne : (i + j) % buf.length ≠ (i + m) % buf.length := by
    intro he
    -- two offsets below one turn that meet modulo the length are equal
    have := Nat.ModEq.add_left_cancel' i (show i + j ≡ i + m [MOD buf.length] from he)
    rw [Nat.ModEq, Nat.mod_eq_of_lt hj, Nat.mod_eq_of_lt (by omega)] at this
    omega
  rw [getElem_view h₁ (by simpa using Nat.mod_lt _ hn), getElem_view (by rwa [length_view (by omega)])
    (Nat.mod_lt _ hn)]
  simp only [List.length_set]
  rw [List.getElem_set_ne hne]

theorem view_succ (hk : k < buf.length) :
    view buf i (k + 1) = view buf i k ++ [buf.get ⟨(i + k) % buf.length, Nat.mod_lt _ (by omega)⟩] := by
  have h : k < (buf.rotate i).length := by simpa using hk
  rw [view, view, List.take_succ_eq_append_getElem h]
  simp [List.getElem_rotate, Nat.add_comm k i]

/-- **Append**: writing the cell after the last viewed one adds it at the end. -/
theorem view_push (hk : k < buf.length) (x : α) :
    view (buf.set ((i + k) % buf.length) x) i (k + 1) = view buf i k ++ [x] := by
  rw [view_succ (by simpa using hk), view_set_of_le le_rfl hk]
  simp

/-- **Remove**: the first viewed cell and the view that starts after it. -/
theorem view_pop (hk : k < buf.length) (d : α) :
    view buf i (k + 1) = buf.getD (i % buf.length) d :: view buf ((i + 1) % buf.length) k := by
  have hn : 0 < buf.length := by omega
  refine List.ext_getElem ?_ fun m h₁ h₂ => ?_
  · rw [length_view (by omega), List.length_cons, length_view (by omega)]
  rw [getElem_view h₁ (Nat.mod_lt _ hn)]
  cases m with
  | zero => simp [List.getElem?_eq_getElem (Nat.mod_lt i hn)]
  | succ m =>
    simp only [List.getElem_cons_succ, view_mod]
    rw [getElem_view _ (Nat.mod_lt _ hn)]
    congr 2
    omega

theorem view_take (buf : List α) (i k m : Nat) (h : m ≤ k) : (view buf i k).take m = view buf i m := by
  rw [view, List.take_take, Nat.min_eq_left h, view]

theorem view_drop {m : Nat} (hk : k ≤ buf.length) (hm : m ≤ k) : (view buf i k).drop m = view buf (i + m) (k - m) := by
  have hlen : m ≤ (buf.rotate i).length := by rw [List.length_rotate]; omega
  rw [view, view, ← List.rotate_rotate, List.rotate_eq_drop_append_take hlen, List.drop_take,
    List.take_append_of_le_length (by rw [List.length_drop, List.length_rotate]; omega)]

theorem view_of_le (h : i + k ≤ buf.length) : view buf i k = (buf.drop i).take k := by
  rw [view, List.rotate_eq_drop_append_take (by omega), List.take_append_of_le_length (by rw [List.length_drop]; omega)]

end UsbMux.Circular
