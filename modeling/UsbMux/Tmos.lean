/-
The kernel that runs the tasks, as `wchble.h` describes it. It is not part of
the repository's sources, so it is a parameter of the tasks; `Tmos.words` is
one that keeps no more than the events.
-/
import Mathlib.Data.UInt

namespace UsbMux

abbrev sysEventMsg : UInt16 := 0x8000
abbrev invalidTaskId : UInt8 := 0xFF

/-- `MS1_TO_SYSTEM_TIME`, in units of 625 us. -/
def ms1ToSystemTime (x : UInt32) : UInt32 := x * 1000 / 625

/-- The part of the kernel in `wchble.h` that a task uses, over a kernel state `κ`:
the events of the task that are set and those a timer runs for. An event
that is set stays so until the handler is called, and the handler's answer
is set again. A timer may be refused, which `tmos_start_task` answers. -/
structure Tmos (κ : Type) where
  taskId : UInt8
  pending : κ → UInt16
  timers : κ → UInt16
  /-- `tmos_set_event`. -/
  setEvent : κ → UInt16 → κ
  /-- `tmos_start_task`, with what it answers. -/
  startTask : κ → UInt16 → UInt32 → κ × Bool
  /-- Timers run out. -/
  expire : κ → UInt16 → κ
  /-- The handler is called with the events that are set. -/
  call : κ → κ
  /-- The handler has returned. -/
  answer : κ → UInt16 → κ
  registered : taskId ≠ invalidTaskId
  setEvent_pending : ∀ k e, pending (setEvent k e) = pending k ||| e
  setEvent_timers : ∀ k e, timers (setEvent k e) = timers k
  startTask_pending : ∀ k e t, pending (startTask k e t).1 = pending k
  startTask_timers : ∀ k e t, timers (startTask k e t).1 = if (startTask k e t).2 then timers k ||| e else timers k
  expire_pending : ∀ k e, pending (expire k e) = pending k ||| (timers k &&& e)
  expire_timers : ∀ k e, timers (expire k e) = timers k &&& ~~~e
  call_pending : ∀ k, pending (call k) = 0
  call_timers : ∀ k, timers (call k) = timers k
  answer_pending : ∀ k r, pending (answer k r) = pending k ||| r
  answer_timers : ∀ k r, timers (answer k r) = timers k

attribute [simp] Tmos.setEvent_pending Tmos.setEvent_timers Tmos.startTask_pending Tmos.startTask_timers
  Tmos.expire_pending Tmos.expire_timers Tmos.call_pending Tmos.call_timers Tmos.answer_pending Tmos.answer_timers

/-- The kernel refuses no timer. -/
def Tmos.Grants {κ : Type} (T : Tmos κ) : Prop := ∀ k e t, (T.startTask k e t).2 = true

/-- A kernel that keeps the two words. -/
def Tmos.words : Tmos (UInt16 × UInt16) where
  taskId := 0
  pending := Prod.fst
  timers := Prod.snd
  setEvent k e := (k.1 ||| e, k.2)
  startTask k e _ := ((k.1, k.2 ||| e), true)
  expire k e := (k.1 ||| (k.2 &&& e), k.2 &&& ~~~e)
  call k := (0, k.2)
  answer k r := (k.1 ||| r, k.2)
  registered := by decide
  setEvent_pending _ _ := rfl
  setEvent_timers _ _ := rfl
  startTask_pending _ _ _ := rfl
  startTask_timers _ _ _ := rfl
  expire_pending _ _ := rfl
  expire_timers _ _ := rfl
  call_pending _ := rfl
  call_timers _ := rfl
  answer_pending _ _ := rfl
  answer_timers _ _ := rfl

theorem Tmos.grants_words : Tmos.words.Grants := fun _ _ _ => rfl

end UsbMux
