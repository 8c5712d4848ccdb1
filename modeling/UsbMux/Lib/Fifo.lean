/-
Bounded queues: a list that holds at most `cap` elements, the calls a user of
such a queue makes and what each one answers. This says what a queue is for;
how one is kept in memory is for an implementation to say, which then has to
answer every sequence of calls as `Fifo.step` does.
-/
import UsbMux.Lib.Mealy

namespace UsbMux.Fifo

variable {α : Type}

/-- A call. -/
inductive Op (α : Type)
  | push (a : α)
  | pop
  | write (as : List α)
  | read (n : Nat)
  | reset
  | count
  | space
  | isEmpty
  | isFull

/-- What a call answers: nothing, success or failure, an element, elements, a
number or a truth value. -/
inductive Answer (α : Type)
  | none
  | done
  | failed
  | elem (a : α)
  | elems (as : List α)
  | number (n : Nat)
  | truth (b : Bool)
deriving DecidableEq

/-- The queue: what it holds, oldest first. -/
def step (cap : Nat) : Mealy.Step (List α) (Op α) (Answer α)
  | l, .push a => if l.length = cap then (l, [.failed]) else (l ++ [a], [.done])
  | [], .pop => ([], [.failed])
  | a :: l, .pop => (l, [.elem a])
  | l, .write as => (l ++ as.take (cap - l.length), [.number (min as.length (cap - l.length))])
  | l, .read n => (l.drop n, [.elems (l.take n)])
  | _, .reset => ([], [.none])
  | l, .count => (l, [.number l.length])
  | l, .space => (l, [.number (cap - l.length)])
  | l, .isEmpty => (l, [.truth (decide (l.length = 0))])
  | l, .isFull => (l, [.truth (decide (l.length = cap))])

theorem length_step_le {cap : Nat} {l : List α} (op : Op α) (h : l.length ≤ cap) : (step cap l op).1.length ≤ cap := by
  cases op with
  | push a =>
    simp only [step]
    split
    · exact h
    · simp only [List.length_append, List.length_singleton]
      omega
  | pop =>
    cases l with
    | nil => exact h
    | cons a l => exact Nat.le_of_succ_le h
  | write as =>
    simp only [step, List.length_append, List.length_take]
    omega
  | read n =>
    simp only [step, List.length_drop]
    omega
  | reset => exact Nat.zero_le _
  | count | space | isEmpty | isFull => exact h

/-- **The bound** is kept by every sequence of calls. -/
theorem length_run_le (cap : Nat) (ops : List (Op α)) : (Mealy.run (step cap) [] ops).length ≤ cap :=
  Mealy.inv_run (I := fun l : List α => l.length ≤ cap) (fun _ op h => length_step_le op h) (Nat.zero_le _) ops

end UsbMux.Fifo
