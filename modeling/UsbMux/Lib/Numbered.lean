/-
A line of elements of several kinds, numbered in the order in which they
joined it: the numbers of the elements of one kind, when an element joins at
the end, and when the first of its kind leaves. Queues that take their numbers
from one counter are such a line, one kind for each queue.
-/
import Mathlib.Data.List.Basic

namespace UsbMux.Numbered

variable {κ : Type} [DecidableEq κ]

/-- The numbers of the elements of kind `q` in a line that is numbered from `k` on. -/
def numbers (k : Nat) (q : κ) : List κ → List Nat
  | [] => []
  | q' :: w => if q' = q then k :: numbers (k + 1) q w else numbers (k + 1) q w

variable {k i : Nat} {q q' : κ} {w : List κ}

theorem numbers_cons_self : numbers k q (q :: w) = k :: numbers (k + 1) q w := if_pos rfl

theorem numbers_cons_of_ne (h : q' ≠ q) : numbers k q (q' :: w) = numbers (k + 1) q w := if_neg h

theorem numbers_append (k : Nat) (q q' : κ) (w : List κ) :
    numbers k q (w ++ [q']) = numbers k q w ++ if q' = q then [k + w.length] else [] := by
  induction w generalizing k with
  | nil => rfl
  | cons a w ih =>
    rw [List.cons_append, numbers, numbers, ih, List.length_cons, Nat.add_assoc, Nat.add_comm 1]
    split
    · rfl
    · rfl

theorem length_numbers (k : Nat) (q : κ) (w : List κ) : (numbers k q w).length = w.count q := by
  induction w generalizing k with
  | nil => rfl
  | cons a w ih =>
    rw [numbers, List.count_cons]
    split
    · next h => simp [h, ih]
    · next h => simp [h, ih]

theorem bounds_of_mem (h : i ∈ numbers k q w) : k ≤ i ∧ i < k + w.length := by
  induction w generalizing k with
  | nil => cases h
  | cons a w ih =>
    rw [numbers] at h
    rw [List.length_cons]
    have hrest (h : i ∈ numbers (k + 1) q w) : k ≤ i ∧ i < k + (w.length + 1) := by
      have := ih h
      omega
    split at h
    · rcases List.mem_cons.mp h with rfl | h
      · omega
      · exact hrest h
    · exact hrest h

/-- An element that is not the first of the line has a higher number. -/
theorem lt_of_mem (hw : w.head? ≠ some q) (h : i ∈ numbers k q w) : k < i ∧ i < k + w.length := by
  cases w with
  | nil => cases h
  | cons a w =>
    have ha : a ≠ q := fun he => hw (by rw [he]; rfl)
    rw [numbers_cons_of_ne ha] at h
    have := bounds_of_mem h
    rw [List.length_cons]
    omega

end UsbMux.Numbered
