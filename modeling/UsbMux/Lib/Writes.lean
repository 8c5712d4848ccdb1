/-
The writes a computation makes to an array: indices and values, in order. An
index is kept whether it is inside the array or not, so a bound on the indices
says more than the array's own length does. Replaying the writes on the array
as it was gives the array as it is.
-/
import UsbMux.Lib.Block

namespace UsbMux

/-- The index of a cell and the value written to it. -/
abbrev Write (α : Type) := Nat × α

variable {α : Type} {n : Nat}

/-- The writes of a copy of `len` values to the cells from `off` on. -/
def copyWrites (off : Nat) (value : Nat → α) (len : Nat) : List (Write α) :=
  (List.range len).map fun i => (off + i, value i)

theorem lt_of_mem_copyWrites {off len : Nat} {value : Nat → α} {w : Write α} (h : w ∈ copyWrites off value len) :
    w.1 < off + len := by
  obtain ⟨i, hi, rfl⟩ := List.mem_map.mp h
  exact Nat.add_lt_add_left (List.mem_range.mp hi) off

namespace Block

/-- The writes made one after the other. -/
def replay (b : Block α n) (ws : List (Write α)) : Block α n := ws.foldl (fun b w => b.put w.1 w.2) b

@[simp] theorem replay_nil (b : Block α n) : b.replay [] = b := rfl
@[simp] theorem replay_cons (b : Block α n) (w : Write α) (ws : List (Write α)) :
    b.replay (w :: ws) = (b.put w.1 w.2).replay ws := rfl

theorem replay_append (b : Block α n) (ws vs : List (Write α)) :
    b.replay (ws ++ vs) = (b.replay ws).replay vs := List.foldl_append

theorem put_write (b : Block α n) {off k : Nat} {xs : List α} (x : α) (hk : xs.length = k) (h : off + k < n) :
    (b.write off xs).put (off + k) x = b.write off (xs ++ [x]) := by
  subst hk
  have hlt : off + xs.length < b.toList.length := by rw [b.toList_length]; exact h
  have htake : (b.toList.take off).length = off := List.length_take_of_le (by omega)
  apply List.Vector.toList_injective
  rw [toList_put, toList_write, toList_write, blit_eq hlt.le, blit_eq (by simp; omega),
    List.drop_eq_getElem_cons hlt, List.set_append_right _ _ (by simp)]
  simp [htake, Nat.add_assoc]

theorem slice_eq_map (b : Block α n) {off len : Nat} (a : α) (h : off + len ≤ n) :
    b.slice off len = (List.range len).map fun i => b.toList.getD (off + i) a := by
  refine List.ext_getElem ?_ fun i h₁ h₂ => ?_
  · rw [b.length_slice h, List.length_map, List.length_range]
  · rw [b.length_slice h] at h₁
    have hi : off + i < b.toList.length := by rw [b.toList_length]; omega
    simp [slice, List.getElem?_eq_getElem hi]

theorem replay_copyWrites (b : Block α n) {off len : Nat} (value : Nat → α) (h : off + len ≤ n) :
    b.replay (copyWrites off value len) = b.write off ((List.range len).map value) := by
  induction len with
  | zero =>
    apply List.Vector.toList_injective
    simp [copyWrites, blit]
  | succ len ih =>
    have hlen : ((List.range len).map value).length = len := by simp
    rw [copyWrites, List.range_succ, List.map_append, replay_append, ← copyWrites, ih (by omega), List.map_append]
    exact b.put_write (value len) hlen h

end Block

end UsbMux
