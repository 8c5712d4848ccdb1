/-
The task that writes the log out, `AppLog_ProcessEvent`, under the kernel: the
calls of its handler piece by piece, with lines printed between any two.

The log buffer goes through a run of the machine of `AppLog` (`component`), so
what is delivered is what that says (`log_delivers`). Here it is shown that
something is delivered at all. `AppLog_X` of the source is `x` here.
-/
import UsbMux.AppLog
import UsbMux.Lib.Bits
import UsbMux.Lib.Stutter
import UsbMux.Tmos

namespace UsbMux.LogTask

open AppLog Bits

/-! ## The handler -/

abbrev appLogEvtFlush : UInt16 := 0x0001
abbrev appLogFlushPeriodMs : UInt32 := 1

/-- Where a call of the handler is: before the loop over the messages, in
`AppLog_Process`, before the question for more data, before `tmos_start_task`,
or before it returns. -/
inductive Stage
  | messages | process | hasData | startTask | done
deriving DecidableEq

/-- `AppLog_ProcessEvent` up to its first piece, with what it returns. -/
def processEvent (events : UInt16) : Stage × UInt16 :=
  if events &&& sysEventMsg ≠ 0 then (.messages, events ^^^ sysEventMsg)
  else if events &&& appLogEvtFlush ≠ 0 then (.process, events ^^^ appLogEvtFlush)
  else (.done, 0)

/-! ## The machine -/

/-- The log with the place in `AppLog_Process`, the kernel, and where the call
under way is, with what it will return. -/
structure State (κ : Type) where
  sys : Sys
  tmos : κ
  call : Option (Stage × UInt16)

/-- A line is printed, from wherever; a message for the task; timers that run
out; or a piece of the kernel's loop. -/
inductive Input
  | printf (text : Option (List UInt8))
  | message
  | expired (events : UInt16)
  | run

/-- The line that `AppLog_TaskInit` prints. -/
def taskLine (taskId : UInt8) : List UInt8 :=
  ("[INFO][LOG] tmos task=".toList ++ Nat.toDigits 10 taskId.toNat ++ "\r\n".toList).map fun c => UInt8.ofNat c.toNat

section

variable {κ : Type} (T : Tmos κ)

def kickTask (k : κ) : κ := if T.taskId ≠ invalidTaskId then T.setEvent k appLogEvtFlush else k

/-- `AppLog_Printf` comes to the call of `AppLog_KickTask`. -/
def prints (text : Option (List UInt8)) : Bool := text.any fun text => text.length ≠ 0

/-- The inputs of the log before the task runs: lines printed without a task,
and the one of `AppLog_TaskInit`. -/
def before (lines : List (Option (List UInt8))) : List AppLog.Input :=
  (lines ++ [some (taskLine T.taskId)]).map .printf

/-- After `AppLog_TaskInit`. -/
def start (g : Log) (lines : List (Option (List UInt8))) (k : κ) : State κ :=
  ⟨Mealy.run AppLog.step (AppLog.start g) (before T lines), kickTask T k, none⟩

/-- The next piece of a call. -/
def perform (s : State κ) (returned : UInt16) : Stage → State κ × List Event
  | .messages => ({ s with call := some (.done, returned) }, [])
  | .process =>
    let r := AppLog.step s.sys .process
    ({ s with sys := r.1, call := some (if r.1.pc = .idle then .hasData else .process, returned) }, r.2)
  | .hasData => ({ s with call := some (if AppLog.hasData s.sys.log then .startTask else .done, returned) }, [])
  | .startTask =>
    ({ s with
      tmos := (T.startTask s.tmos appLogEvtFlush (ms1ToSystemTime appLogFlushPeriodMs)).1
      call := some (.done, returned) }, [])
  | .done => ({ s with tmos := T.answer s.tmos returned, call := none }, [])

/-- The next piece: the handler is called or goes on. -/
def turn (s : State κ) : State κ × List Event :=
  match s.call with
  | none =>
    if T.pending s.tmos = 0 then (s, [])
    else ({ s with tmos := T.call s.tmos, call := some (processEvent (T.pending s.tmos)) }, [])
  | some (stage, returned) => perform T s returned stage

def step : Mealy.Step (State κ) Input Event
  | s, .printf text =>
    let r := AppLog.step s.sys (.printf text)
    ({ s with sys := r.1, tmos := if prints text then kickTask T s.tmos else s.tmos }, r.2)
  | s, .message => ({ s with tmos := T.setEvent s.tmos sysEventMsg }, [])
  | s, .expired events => ({ s with tmos := T.expire s.tmos events }, [])
  | s, .run => turn T s

/-! ## The log in the machine -/

/-- The input of the log that an input of the machine is. -/
def performed (s : State κ) : Input → Option AppLog.Input
  | .printf text => some (.printf text)
  | .run =>
    match s.call with
    | some (.process, _) => some .process
    | _ => none
  | .message | .expired _ => none

/-- A step of the machine is one of the log, or leaves the log alone. -/
theorem component : Mealy.Component (step T) AppLog.step State.sys performed where
  takes s i j h := by
    cases i with
    | message | expired events => cases h
    | printf text =>
      obtain rfl := Option.some.inj h
      exact ⟨rfl, rfl⟩
    | run =>
      simp only [performed] at h
      split at h
      · next returned hc =>
        obtain rfl := Option.some.inj h
        simp only [step, turn, hc]
        exact ⟨rfl, rfl⟩
      · cases h
  skips s i h := by
    cases i with
    | message | expired events => exact ⟨rfl, rfl⟩
    | printf text => cases h
    | run =>
      simp only [performed] at h
      simp only [step, turn]
      cases hc : s.call with
      | none =>
        dsimp only
        split <;> exact ⟨rfl, rfl⟩
      | some c =>
        obtain ⟨stage, returned⟩ := c
        rw [hc] at h
        cases stage with
        | process => cases h
        | messages | hasData | startTask | done => exact ⟨rfl, rfl⟩

/-- All that happened to the log, from `AppLog_Init` on. -/
def history (g : Log) (lines : List (Option (List UInt8))) (k : κ) (is : List Input) : List Event :=
  Mealy.outs AppLog.step (AppLog.start g) (before T lines) ++ Mealy.outs (step T) (start T g lines k) is

/-- The inputs of the log in a run. -/
def performedAll (g : Log) (lines : List (Option (List UInt8))) (k : κ) (is : List Input) : List AppLog.Input :=
  before T lines ++ Mealy.readings (step T) (fun s i => (performed s i).toList) (start T g lines k) is

theorem log_run (g : Log) (lines : List (Option (List UInt8))) (k : κ) (is : List Input) :
    (Mealy.run (step T) (start T g lines k) is).sys =
        Mealy.run AppLog.step (AppLog.start g) (performedAll T g lines k is) ∧
      history T g lines k is = Mealy.outs AppLog.step (AppLog.start g) (performedAll T g lines k is) := by
  obtain ⟨hrun, houts⟩ := (component T).run (start T g lines k) is
  rw [performedAll, Mealy.run_append, Mealy.outs_append]
  exact ⟨hrun, congrArg (Mealy.outs AppLog.step (AppLog.start g) (before T lines) ++ ·) houts⟩

theorem inv_log (g : Log) (lines : List (Option (List UInt8))) (k : κ) (is : List Input) :
    AppLog.Inv (Mealy.run (step T) (start T g lines k) is).sys := by
  rw [(log_run T g lines k is).1]
  exact AppLog.inv_run g _

theorem history_eq (g : Log) (lines : List (Option (List UInt8))) (k : κ) (is : List Input) :
    accepted (history T g lines k is) =
      written (history T g lines k is) ++ contents (Mealy.run (step T) (start T g lines k) is).sys := by
  rw [(log_run T g lines k is).1, (log_run T g lines k is).2]
  exact accepted_eq g _

end

/-! ## What a turn does -/

section

variable {κ : Type} (T : Tmos κ)

def State.stage (s : State κ) : Option Stage := s.call.map Prod.fst

def State.returned (s : State κ) : UInt16 := (s.call.map Prod.snd).getD 0

/-- The events that are set, or will be when the call is over. -/
def coming (s : State κ) : UInt16 := T.pending s.tmos ||| s.returned

theorem has_kickTask (k : κ) : Has (T.pending (kickTask T k)) appLogEvtFlush := by
  rw [kickTask, if_pos T.registered, T.setEvent_pending, has_or]
  exact .inr (by decide)

theorem processEvent_cases (w : UInt16) :
    (Has w sysEventMsg ∧ processEvent w = (.messages, w ^^^ sysEventMsg)) ∨
      (¬ Has w sysEventMsg ∧ Has w appLogEvtFlush ∧ processEvent w = (.process, w ^^^ appLogEvtFlush)) ∨
        ¬ Has w sysEventMsg ∧ ¬ Has w appLogEvtFlush ∧ processEvent w = (.done, 0) := by
  unfold processEvent
  split
  · next h => exact .inl ⟨h, rfl⟩
  next hm =>
  split
  · next h => exact .inr (.inl ⟨hm, h, rfl⟩)
  · next h => exact .inr (.inr ⟨hm, h, rfl⟩)

/-! ## Data that waits -/

/-- A call at this stage has the question for more data, or what follows from a yes, before it. -/
def Stage.looks : Stage → Bool
  | .process | .hasData | .startTask => true
  | .messages | .done => false

/-- Data in the buffer is going to be written: the event is set or will be,
a timer runs for it, or the call is going to look for data. -/
def Awake (s : State κ) : Prop :=
  AppLog.hasData s.sys.log = false ∨ Has (coming T s) appLogEvtFlush ∨ Has (T.timers s.tmos) appLogEvtFlush ∨
    s.stage.any Stage.looks

/-- A line that does not come to the call of `AppLog_KickTask` leaves the log alone. -/
theorem printf_silent (g : Log) {text : Option (List UInt8)} (h : prints text = false) :
    (AppLog.printf g text).1 = g := by
  cases text with
  | none => rfl
  | some text =>
    have h0 : text.length = 0 := by simpa [prints] using h
    rw [AppLog.printf, if_pos h0]

/-- The timer for the next flush is refused. -/
def Refused (s : State κ) (i : Input) : Prop :=
  i = .run ∧ s.stage = some .startTask ∧
    (T.startTask s.tmos appLogEvtFlush (ms1ToSystemTime appLogFlushPeriodMs)).2 = false

/-- It is refused while there is data, and the event is not expected otherwise. -/
def Loses (s : State κ) (i : Input) : Prop :=
  Refused T s i ∧ AppLog.hasData s.sys.log = true ∧ ¬ Has (coming T s) appLogEvtFlush ∧
    ¬ Has (T.timers s.tmos) appLogEvtFlush

theorem not_loses {T : Tmos κ} (hT : T.Grants) (s : State κ) (i : Input) : ¬ Loses T s i := by
  rintro ⟨⟨-, -, hr⟩, -⟩
  rw [hT] at hr
  cases hr

theorem awake_refused {s : State κ} {i : Input} (h : Refused T s i) : Awake T (step T s i).1 ↔ ¬ Loses T s i := by
  obtain ⟨hrun, hstage, hr⟩ := h
  obtain ⟨stage, hc, hst⟩ := Option.map_eq_some_iff.mp hstage
  obtain ⟨stage, returned⟩ := stage
  obtain rfl : stage = .startTask := hst
  subst hrun
  have hstep : (step T s .run).1 = { s with
      tmos := (T.startTask s.tmos appLogEvtFlush (ms1ToSystemTime appLogFlushPeriodMs)).1
      call := some (.done, returned) } := by
    simp only [step, turn, hc, perform]
  have hcoming : coming T (step T s .run).1 = coming T s := by
    rw [hstep, coming, coming, T.startTask_pending, State.returned, State.returned, hc]
    rfl
  have htimers : T.timers (step T s .run).1.tmos = T.timers s.tmos := by
    rw [hstep, T.startTask_timers, hr]
    rfl
  rw [Awake, hcoming, htimers, hstep]
  simp only [State.stage, Option.map_some, Option.any_some, Stage.looks, Bool.false_eq_true, or_false, Loses, Refused,
    hc, hr, true_and, not_and_or, not_not, Bool.not_eq_true]

theorem awake_step {s : State κ} (h : Awake T s) {i : Input} (hl : ¬ Loses T s i) : Awake T (step T s i).1 := by
  by_cases hrefused : Refused T s i
  · exact (awake_refused T hrefused).mpr hl
  cases i with
  | printf text =>
    simp only [step]
    cases hp : prints text with
    | true =>
      refine .inr (.inl ?_)
      rw [coming, has_or]
      exact .inl (has_kickTask T s.tmos)
    | false =>
      have hlog : (AppLog.step s.sys (.printf text)).1.log = s.sys.log := printf_silent s.sys.log hp
      rw [Awake, hlog]
      exact h
  | message =>
    rcases h with h | h | h | h
    · exact .inl h
    · refine .inr (.inl ?_)
      rw [coming, has_or] at h ⊢
      exact h.imp_left fun h => by rw [step, T.setEvent_pending, has_or]; exact .inl h
    · exact .inr (.inr (.inl (by rw [step, T.setEvent_timers]; exact h)))
    · exact .inr (.inr (.inr h))
  | expired events =>
    rcases h with h | h | h | h
    · exact .inl h
    · refine .inr (.inl ?_)
      rw [coming, has_or] at h ⊢
      exact h.imp_left fun h => by rw [step, T.expire_pending, has_or]; exact .inl h
    · rcases has_clear_or h events with h | h
      · exact .inr (.inr (.inl (by rw [step, T.expire_timers]; exact h)))
      · refine .inr (.inl ?_)
        rw [coming, has_or, step, T.expire_pending, has_or]
        exact .inl (.inr h)
    · exact .inr (.inr (.inr h))
  | run =>
    simp only [step, turn]
    cases hc : s.call with
    | none =>
      dsimp only
      split
      · exact h
      · rw [Awake, coming, State.returned, State.stage, hc] at h
        rw [Awake, coming, State.returned, State.stage]
        simp only [T.call_pending, T.call_timers, Option.map_none, Option.getD_none, UInt16.or_zero, Option.any_none,
          Bool.false_eq_true, or_false, Option.map_some, Option.getD_some, UInt16.zero_or, Option.any_some] at h ⊢
        rcases processEvent_cases (T.pending s.tmos) with ⟨-, he⟩ | ⟨-, -, he⟩ | ⟨-, hf, he⟩
        · have hkeep := has_xor_of_disjoint (show sysEventMsg &&& appLogEvtFlush = 0 by decide) (T.pending s.tmos)
          rw [he, hkeep]
          exact h.imp_right (Or.imp_right .inl)
        · rw [he]
          exact .inr (.inr (.inr rfl))
        · rcases h with h | h | h
          · exact .inl h
          · exact absurd h hf
          · exact .inr (.inr (.inl h))
    | some c =>
      obtain ⟨stage, returned⟩ := c
      rw [Awake, coming, State.returned, State.stage, hc] at h
      simp only [Option.map_some, Option.getD_some, Option.any_some] at h
      cases stage with
      | messages => exact h
      | process =>
        refine .inr (.inr (.inr ?_))
        dsimp only [perform, State.stage, Option.map_some, Option.any_some]
        split <;> rfl
      | hasData =>
        simp only [perform]
        cases hd : AppLog.hasData s.sys.log with
        | true => exact .inr (.inr (.inr rfl))
        | false => exact .inl hd
      | startTask =>
        have hgranted : (T.startTask s.tmos appLogEvtFlush (ms1ToSystemTime appLogFlushPeriodMs)).2 = true := by
          by_contra hg
          exact hrefused ⟨rfl, by rw [State.stage, hc]; rfl, Bool.not_eq_true _ ▸ hg⟩
        refine .inr (.inr (.inl ?_))
        simp only [perform, T.startTask_timers, hgranted, if_true, has_or]
        exact .inr (by decide)
      | done =>
        simp only [perform, Awake, coming, T.answer_pending, T.answer_timers]
        rcases h with h | h | h | h
        · exact .inl h
        · exact .inr (.inl (has_or.mpr (.inl h)))
        · exact .inr (.inr (.inl h))
        · cases h

theorem awake_start (g : Log) (lines : List (Option (List UInt8))) (k : κ) : Awake T (start T g lines k) := by
  refine .inr (.inl ?_)
  rw [coming, has_or]
  exact .inl (has_kickTask T k)

/-- **No line is left in the buffer as long as no timer is refused.** Over every
run of the task, with lines printed at any time: what was accepted is what was
written with what is in the buffer, which is empty where there is no data. And in
every state there is none, or the event of the task is set, or handed back by the
call under way, or a timer runs for it, or that call is still to look for data,
exactly if `tmos_start_task` does not refuse the timer while there is data and
the event is not expected otherwise: the handler does not look at the answer. -/
theorem log_not_stranded (g : Log) (lines : List (Option (List UInt8))) (k : κ) (is : List Input) :
    let s₀ := start T g lines k
    (let s := Mealy.run (step T) s₀ is
      let events := history T g lines k is
      accepted events = written events ++ contents s.sys ∧
        (AppLog.hasData s.sys.log = false → contents s.sys = [])) ∧
      ((∀ js, js <+: is → Awake T (Mealy.run (step T) s₀ js)) ↔
        Mealy.Along (step T) (fun s i => ¬ Loses T s i) s₀ is) := by
  intro s₀
  refine ⟨⟨history_eq T g lines k is, contents_of_empty (inv_log T g lines k is)⟩, ?_⟩
  refine Mealy.forall_prefix_iff (I := fun _ => True) (fun _ _ _ => trivial) (fun s i _ h => ?_) trivial
    (awake_start T g lines k) is
  constructor
  · intro h' hl
    exact (awake_refused T hl.1).mp h' hl
  · exact awake_step T h

end

end UsbMux.LogTask
