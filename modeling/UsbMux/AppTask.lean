/-
The task that runs the loops, `app_task.c`: the calls of its handler piece by
piece, on the whole firmware, with interrupts between any two pieces and the
other tasks between any two calls. The kernel is a parameter (`Tmos`).

An interrupt inside a turn of a loop is the subject of `RingRuns`, `FlushRace`
and `DropRace`. `AppTask_X` of the source is `x` here.
-/
import UsbMux.Firmware
import UsbMux.Heartbeat
import UsbMux.Lib.Bits
import UsbMux.Lib.Stutter
import UsbMux.Tmos

namespace UsbMux.AppTask

open Bits UsbDev UsbTx

/-! ## The handler -/

abbrev evtHeartbeat : UInt16 := 0x0001
abbrev evtUsbRx : UInt16 := 0x0002
abbrev evtUsbTx : UInt16 := 0x0004
abbrev evtUart : UInt16 := 0x0008
abbrev evtPoll : UInt16 := 0x0010

abbrev pollPeriodMs : UInt32 := 1

/-- What the handler does: the loop over the messages of the task,
`Heartbeat_Process`, a call of `tmos_start_task`, the loop of `USBRX_Process`,
the turn of `UartMgr_Process` for a port, or `USBTX_Process`. -/
inductive Work
  | receiveMessages
  | heartbeat
  | startTask (event : UInt16) (time : UInt32)
  | usbRx
  | uart (p : Fin UartMgr.uartPortCount)
  | usbTx
deriving DecidableEq

def runIo : List Work := [.usbRx] ++ (List.finRange UartMgr.uartPortCount).map .uart ++ [.usbTx]

/-- `AppTask_ProcessEvent`: what it does, in order, and what it returns. -/
def processEvent (events : UInt16) : List Work × UInt16 :=
  if events &&& sysEventMsg ≠ 0 then ([.receiveMessages], events ^^^ sysEventMsg)
  else if events &&& evtHeartbeat ≠ 0 then
    ([.heartbeat, .startTask evtHeartbeat (ms1ToSystemTime Heartbeat.appHeartbeatPeriodMs.toUInt32)],
      events ^^^ evtHeartbeat)
  else if events &&& evtUsbRx ≠ 0 then (runIo, events ^^^ evtUsbRx)
  else if events &&& evtUsbTx ≠ 0 then (runIo, events ^^^ evtUsbTx)
  else if events &&& evtUart ≠ 0 then (runIo, events ^^^ evtUart)
  else if events &&& evtPoll ≠ 0 then
    (runIo ++ [.startTask evtPoll (ms1ToSystemTime pollPeriodMs)], events ^^^ evtPoll)
  else ([], 0)

/-! ## Kicks -/

inductive Kick
  | usbRx | usbTx | uart | poll
deriving DecidableEq

def Kick.event : Kick → UInt16
  | .usbRx => evtUsbRx
  | .usbTx => evtUsbTx
  | .uart => evtUart
  | .poll => evtPoll

section

variable {κ β : Type} (T : Tmos κ) (map : UartMgr.Map)

def setEvent (k : κ) (event : UInt16) : κ := if T.taskId ≠ invalidTaskId then T.setEvent k event else k

def kickUsbRx (k : κ) : κ := setEvent T k evtUsbRx
def kickUsbTx (k : κ) : κ := setEvent T k evtUsbTx
def kickUart (k : κ) : κ := setEvent T k evtUart
def kickPoll (k : κ) : κ := setEvent T k evtPoll

def kick (k : κ) : Kick → κ
  | .usbRx => kickUsbRx T k
  | .usbTx => kickUsbTx T k
  | .uart => kickUart T k
  | .poll => kickPoll T k

theorem kick_eq (k : κ) (c : Kick) : kick T k c = setEvent T k c.event := by
  cases c <;> rfl

/-- `UartMgr_IrqRxByte` puts the byte of an interrupt into a ring. -/
def takesByte (s : UartMgr.State UartHw.Hw) (u : Fin 4) (statr datar : UInt16) : Bool :=
  match UartHw.findLogicPortByPhy map (UInt8.ofNat (u + 1)) with
  | none => false
  | some p =>
    match UartHw.getHwDesc map (UInt8.ofNat p) with
    | none => false
    | some v =>
      UartHw.usartGetITStatus (s.hw.usart v) statr UartHw.usartItRxne && (s.ports p).state == .opened &&
        ((s.ports p).rxRb.pushByte (UartHw.usartReceiveData datar).toUInt8).isSome

/-- `UartMgr_WriteFromHost` comes to its end for a message. -/
def writes (s : UartMgr.State UartHw.Hw) (hdr : VpHdr) : Bool :=
  decide (Router.IsUartData hdr) && (UartMgr.getPort hdr.chId).any fun p => (s.ports p).state == .opened

/-- The kicks of what is done in an input: a frame that is queued, a write. -/
def outputKicks (s : UartMgr.State UartHw.Hw) : Firmware.Output → List Kick
  | .message e => if writes s e.2.hdr then [.uart] else []
  | .called _ events => events.filterMap fun
    | .queued .. => some .usbTx
    | _ => none
  | _ => []

/-- The kicks made in an input of the firmware, with its outputs. -/
def kicks (s : Firmware.State β) (i : Firmware.Input) (outs : List Firmware.Output) : List Kick :=
  (match i with
    | .usb (.ep3Out data _) => if data.1 = [] then [.usbRx] else [.usbRx, .usbRx]
    | .usb .ep2In =>
      if armed s.dev.regs.uep2TxCtrl && !decide (s.dev.ep2TxOffset < s.dev.ep2TxLen) then [.usbTx] else []
    | .uart u statr datar => if takesByte map s.fw.uart u statr datar then [.uart] else []
    | _ => []) ++ outs.flatMap (outputKicks s.fw.uart)

end

/-! ## The machine -/

/-- The firmware under the kernel; `call` is what a call of the handler has
still to do, with what it will return. -/
structure State (κ β : Type) where
  fw : Firmware.State β
  tmos : κ
  call : Option (List Work × UInt16)

/-- An interrupt or a callback of the BLE library, a message for the task,
timers that run out, or a piece of the kernel's loop. -/
inductive Input
  | firmware (i : Firmware.Input)
  | message
  | expired (events : UInt16)
  | run

/-- Interrupts come at any time, callbacks between the calls of the handler;
what the task does itself does not come from outside. -/
def admits (busy : Bool) : Firmware.Input → Bool
  | .usb _ | .uart .. => true
  | .gap _ | .gattMsg _ | .rssi .. => !busy
  | .rxTurn | .uartTurn _ | .txProcess => false

section

variable {κ β : Type} (T : Tmos κ) (lib : AttLib β) (map : UartMgr.Map)

/-- After `AppTask_Init`. -/
def start (hw : UartHw.Hw) (taskId : UInt8) (b : β) (k : κ) : State κ β :=
  ⟨Firmware.start lib map hw taskId b,
    T.setEvent k (evtHeartbeat ||| evtUsbRx ||| evtUsbTx ||| evtUart ||| evtPoll), none⟩

/-- An input of the firmware, with the kicks it makes. -/
def drive (s : State κ β) (i : Firmware.Input) : State κ β × List Firmware.Output :=
  let r := Firmware.step lib map s.fw i
  ({ s with fw := r.1, tmos := (kicks map s.fw i r.2).foldl (kick T) s.tmos }, r.2)

/-- A piece of work with what is left of the call after it. -/
def perform (s : State κ β) (rest : List Work × UInt16) : Work → State κ β × List Firmware.Output
  | .receiveMessages | .heartbeat => ({ s with call := some rest }, [])
  | .startTask event time => ({ s with tmos := (T.startTask s.tmos event time).1, call := some rest }, [])
  | .usbRx =>
    if (UsbRx.readByte s.fw.rx.ctx).isNone then ({ s with call := some rest }, [])
    else drive T lib map s .rxTurn
  | .uart p => drive T lib map { s with call := some rest } (.uartTurn p)
  | .usbTx => drive T lib map { s with call := some rest } .txProcess

/-- The next piece: the handler is called, does a piece of its work or returns. -/
def turn (s : State κ β) : State κ β × List Firmware.Output :=
  match s.call with
  | none =>
    if T.pending s.tmos = 0 then (s, [])
    else ({ s with tmos := T.call s.tmos, call := some (processEvent (T.pending s.tmos)) }, [])
  | some ([], returned) => ({ s with tmos := T.answer s.tmos returned, call := none }, [])
  | some (w :: ws, returned) => perform T lib map s (ws, returned) w

def step : Mealy.Step (State κ β) Input Firmware.Output
  | s, .firmware i => if admits s.call.isSome i then drive T lib map s i else (s, [])
  | s, .message => ({ s with tmos := T.setEvent s.tmos sysEventMsg }, [])
  | s, .expired events => ({ s with tmos := T.expire s.tmos events }, [])
  | s, .run => turn T lib map s

end

/-! ## What a call of the handler does -/

/-- The events of the task, in the order the handler looks for them. -/
inductive Event
  | message | heartbeat | usbRx | usbTx | uart | poll
deriving DecidableEq

namespace Event

def mask : Event → UInt16
  | .message => sysEventMsg
  | .heartbeat => evtHeartbeat
  | .usbRx => evtUsbRx
  | .usbTx => evtUsbTx
  | .uart => evtUart
  | .poll => evtPoll

def work : Event → List Work
  | .message => [.receiveMessages]
  | .heartbeat => [.heartbeat, .startTask evtHeartbeat (ms1ToSystemTime Heartbeat.appHeartbeatPeriodMs.toUInt32)]
  | .usbRx | .usbTx | .uart => runIo
  | .poll => runIo ++ [.startTask evtPoll (ms1ToSystemTime pollPeriodMs)]

theorem mask_single (e : Event) : ∃ k, e.mask.toNat = 2 ^ k := by
  cases e with
  | message => exact ⟨15, rfl⟩
  | heartbeat => exact ⟨0, rfl⟩
  | usbRx => exact ⟨1, rfl⟩
  | usbTx => exact ⟨2, rfl⟩
  | uart => exact ⟨3, rfl⟩
  | poll => exact ⟨4, rfl⟩

theorem mask_disjoint {e e' : Event} (h : e ≠ e') : e.mask &&& e'.mask = 0 := by
  revert h
  cases e <;> cases e' <;> decide

def all : List Event := [.message, .heartbeat, .usbRx, .usbTx, .uart, .poll]

theorem mem_all (e : Event) : e ∈ all := by
  cases e <;> decide

/-- The first of the events that are set. -/
def first (w : UInt16) : Option Event := all.find? fun e => Has w e.mask

def among (w : UInt16) : List Event := all.filter fun e => Has w e.mask

theorem mem_among {w : UInt16} {e : Event} : e ∈ among w ↔ Has w e.mask := by
  rw [among, List.mem_filter, decide_eq_true_eq]
  exact and_iff_right e.mem_all

theorem has_of_first {w : UInt16} {e : Event} (h : first w = some e) : Has w e.mask := by
  simpa using List.find?_some h

theorem not_has_of_first {w : UInt16} (h : first w = none) (e : Event) : ¬ Has w e.mask := by
  simpa using List.find?_eq_none.mp h e e.mem_all

end Event

/-- **The handler** takes the first event that is set, does its work and hands the others back. -/
theorem processEvent_first (w : UInt16) :
    processEvent w = (Event.first w).elim ([], 0) fun e => (e.work, w ^^^ e.mask) := by
  have cons (e : Event) (es : List Event) (r : List Work × UInt16) :
      (((e :: es).find? fun e => Has w e.mask).elim r fun e => (e.work, w ^^^ e.mask)) =
        if Has w e.mask then (e.work, w ^^^ e.mask)
        else (es.find? fun e => Has w e.mask).elim r fun e => (e.work, w ^^^ e.mask) := by
    rw [List.find?_cons]
    by_cases h : Has w e.mask <;> simp [h]
  rw [Event.first, Event.all, cons, cons, cons, cons, cons, cons]
  rfl

/-- A call takes an event that is set, or does nothing where none is. -/
theorem processEvent_cases (w : UInt16) :
    (∃ e : Event, Has w e.mask ∧ processEvent w = (e.work, w ^^^ e.mask)) ∨
      (∀ e : Event, ¬ Has w e.mask) ∧ processEvent w = ([], 0) := by
  rw [processEvent_first]
  cases h : Event.first w with
  | some e => exact .inl ⟨e, Event.has_of_first h, rfl⟩
  | none => exact .inr ⟨Event.not_has_of_first h, rfl⟩

/-! ## The firmware in the machine -/

section

variable {κ β : Type} (T : Tmos κ) (lib : AttLib β) (map : UartMgr.Map)

/-- The input of the firmware that an input of the machine is. -/
def performed (s : State κ β) : Input → Option Firmware.Input
  | .firmware i => if admits s.call.isSome i then some i else none
  | .run =>
    match s.call with
    | some (.usbRx :: _, _) => if (UsbRx.readByte s.fw.rx.ctx).isNone then none else some .rxTurn
    | some (.uart p :: _, _) => some (.uartTurn p)
    | some (.usbTx :: _, _) => some .txProcess
    | _ => none
  | .message | .expired _ => none

/-- A step of the machine is one of the firmware, or leaves the firmware alone. -/
theorem component : Mealy.Component (step T lib map) (Firmware.step lib map) State.fw performed where
  takes s i j h := by
    cases i with
    | message | expired events => cases h
    | firmware i =>
      simp only [performed] at h
      simp only [step]
      split at h
      · next ha =>
        obtain rfl := Option.some.inj h
        rw [if_pos ha]
        exact ⟨rfl, rfl⟩
      · cases h
    | run =>
      simp only [performed] at h
      simp only [step, turn]
      split at h
      · next ws returned hc =>
        split at h
        · cases h
        · next hr =>
          obtain rfl := Option.some.inj h
          simp only [hc, perform, if_neg hr]
          exact ⟨rfl, rfl⟩
      · next p ws returned hc =>
        obtain rfl := Option.some.inj h
        simp only [hc]
        exact ⟨rfl, rfl⟩
      · next ws returned hc =>
        obtain rfl := Option.some.inj h
        simp only [hc]
        exact ⟨rfl, rfl⟩
      · cases h
  skips s i h := by
    cases i with
    | message | expired events => exact ⟨rfl, rfl⟩
    | firmware i =>
      simp only [performed] at h
      simp only [step]
      split at h
      · cases h
      · next ha =>
        rw [if_neg ha]
        exact ⟨rfl, rfl⟩
    | run =>
      simp only [performed] at h
      simp only [step, turn]
      cases hc : s.call with
      | none =>
        dsimp only
        split <;> exact ⟨rfl, rfl⟩
      | some c =>
        obtain ⟨ws, returned⟩ := c
        rw [hc] at h
        cases ws with
        | nil => exact ⟨rfl, rfl⟩
        | cons w ws =>
          cases w with
          | receiveMessages | heartbeat | startTask event time => exact ⟨rfl, rfl⟩
          | uart p | usbTx => cases h
          | usbRx =>
            simp only [ite_eq_left_iff, reduceCtorEq, imp_false, not_not] at h
            dsimp only [perform]
            rw [if_pos h]
            exact ⟨rfl, rfl⟩

/-- The inputs of the firmware in a run. -/
def performedAll (s : State κ β) (is : List Input) : List Firmware.Input :=
  Mealy.readings (step T lib map) (fun s i => (performed s i).toList) s is

/-- An interrupt of the USB controller or of a USART. -/
def isInterrupt : Firmware.Input → Bool
  | .usb _ | .uart .. => true
  | _ => false

/-- The interrupts among the inputs. -/
def interrupts (is : List Input) : List Firmware.Input :=
  is.flatMap fun
    | .firmware i => if isInterrupt i then [i] else []
    | _ => []

theorem performed_interrupts (s : State κ β) (i : Input) :
    (performed s i).toList.filter isInterrupt = interrupts [i] := by
  cases i with
  | message | expired events => rfl
  | firmware i =>
    cases i with
    | usb i => rfl
    | uart u statr datar => rfl
    | rxTurn | uartTurn p | txProcess => rfl
    | gap evt | gattMsg msg | rssi connHandle rssi =>
      simp only [performed, admits]
      cases s.call.isSome with
      | true => rfl
      | false => rfl
  | run =>
    simp only [performed]
    split
    · split
      · rfl
      · rfl
    · rfl
    · rfl
    · rfl

/-- The firmware does what it does in a run of its own machine, in which it gets
all the interrupts, in order. -/
theorem firmware_run (s : State κ β) (is : List Input) :
    let js := performedAll T lib map s is
    (Mealy.run (step T lib map) s is).fw = Mealy.run (Firmware.step lib map) s.fw js ∧
      Mealy.outs (step T lib map) s is = Mealy.outs (Firmware.step lib map) s.fw js ∧
      js.filter isInterrupt = interrupts is := by
  obtain ⟨hrun, houts⟩ := (component T lib map).run s is
  refine ⟨hrun, houts, ?_⟩
  clear hrun houts
  induction is generalizing s with
  | nil => rfl
  | cons i is ih =>
    calc (performedAll T lib map s (i :: is)).filter isInterrupt
        = (performed s i).toList.filter isInterrupt ++
            (performedAll T lib map (step T lib map s i).1 is).filter isInterrupt := List.filter_append ..
      _ = interrupts [i] ++ interrupts is := by rw [performed_interrupts, ih]
      _ = interrupts (i :: is) := (@List.flatMap_append _ _ [i] is _).symm

end

/-! ## Events -/

section

variable {κ β : Type} (T : Tmos κ) (lib : AttLib β) (map : UartMgr.Map)

/-- What is left of the call, and what it will return. -/
def State.work (s : State κ β) : List Work := (s.call.map Prod.fst).getD []

def State.returned (s : State κ β) : UInt16 := (s.call.map Prod.snd).getD 0

/-- The events that are set, or will be when the call is over. -/
def coming (s : State κ β) : UInt16 := T.pending s.tmos ||| s.returned

theorem pending_kick (k : κ) (c : Kick) : T.pending (kick T k c) = T.pending k ||| c.event := by
  rw [kick_eq, setEvent, if_pos T.registered, T.setEvent_pending]

theorem timers_kick (k : κ) (c : Kick) : T.timers (kick T k c) = T.timers k := by
  rw [kick_eq, setEvent, if_pos T.registered, T.setEvent_timers]

theorem has_kicks (cs : List Kick) (k : κ) (m : UInt16) :
    Has (T.pending (cs.foldl (kick T) k)) m ↔ Has (T.pending k) m ∨ ∃ c ∈ cs, Has c.event m := by
  induction cs generalizing k with
  | nil => simp
  | cons c cs ih =>
    rw [List.foldl_cons, ih, pending_kick, has_or]
    simp only [List.mem_cons, exists_eq_or_imp]
    exact or_assoc

theorem timers_kicks (cs : List Kick) (k : κ) : T.timers (cs.foldl (kick T) k) = T.timers k := by
  induction cs generalizing k with
  | nil => rfl
  | cons c cs ih => rw [List.foldl_cons, ih, timers_kick]

theorem not_has_kick {e : Event} (he : e = .message ∨ e = .heartbeat) (c : Kick) : ¬ Has c.event e.mask := by
  rcases he with rfl | rfl
  · cases c <;> decide
  · cases c <;> decide

/-- An input of the firmware leaves the call and the timers alone; it only sets events. -/
theorem drive_spec (s : State κ β) (i : Firmware.Input) :
    let s' := (drive T lib map s i).1
    s'.call = s.call ∧ T.timers s'.tmos = T.timers s.tmos ∧
      (∀ m, Has (coming T s) m → Has (coming T s') m) ∧
      ∀ e : Event, e = .message ∨ e = .heartbeat → Has (coming T s') e.mask → Has (coming T s) e.mask := by
  refine ⟨rfl, timers_kicks T _ _, ?_, ?_⟩
  · intro m h
    rw [coming, has_or] at h ⊢
    exact h.imp_left fun h => (has_kicks T _ _ m).mpr (.inl h)
  · intro e he h
    rw [coming, has_or] at h ⊢
    refine h.imp_left fun h => ?_
    rcases (has_kicks T _ _ e.mask).mp h with h | ⟨c, -, hc⟩
    · exact h
    · exact absurd hc (not_has_kick he c)

/-- The kernel's turn: nothing is set; the handler is called and takes an event;
it is called for events it does not know; it returns; or it goes on. -/
theorem turn_cases (s : State κ β) :
    (s.call = none ∧ T.pending s.tmos = 0 ∧ turn T lib map s = (s, [])) ∨
    (∃ e : Event, s.call = none ∧ Has (T.pending s.tmos) e.mask ∧ turn T lib map s =
      ({ s with tmos := T.call s.tmos, call := some (e.work, T.pending s.tmos ^^^ e.mask) }, [])) ∨
    (s.call = none ∧ (∀ e : Event, ¬ Has (T.pending s.tmos) e.mask) ∧ turn T lib map s =
      ({ s with tmos := T.call s.tmos, call := some ([], 0) }, [])) ∨
    (∃ returned, s.call = some ([], returned) ∧ turn T lib map s =
      ({ s with tmos := T.answer s.tmos returned, call := none }, [])) ∨
    ∃ w ws returned, s.call = some (w :: ws, returned) ∧ turn T lib map s = perform T lib map s (ws, returned) w := by
  unfold turn
  cases hc : s.call with
  | none =>
    dsimp only
    split
    · next h => exact .inl ⟨rfl, h, rfl⟩
    · rcases processEvent_cases (T.pending s.tmos) with ⟨e, he, hp⟩ | ⟨hnone, hp⟩
      · exact .inr (.inl ⟨e, rfl, he, by rw [hp]⟩)
      · exact .inr (.inr (.inl ⟨rfl, hnone, by rw [hp]⟩))
  | some c =>
    obtain ⟨ws, returned⟩ := c
    cases ws with
    | nil => exact .inr (.inr (.inr (.inl ⟨returned, rfl, rfl⟩)))
    | cons w ws => exact .inr (.inr (.inr (.inr ⟨w, ws, returned, rfl, rfl⟩)))

end

/-! ## The raw ring -/

section

variable {κ β : Type} (T : Tmos κ) (lib : AttLib β) (map : UartMgr.Map)

/-- The bytes received and not yet taken. -/
def waiting (fw : Firmware.State β) : List UInt8 := fw.rx.ctx.rawRb.toList

theorem readByte_isNone_iff (fw : Firmware.State β) : (UsbRx.readByte fw.rx.ctx).isNone ↔ waiting fw = [] := by
  unfold UsbRx.readByte
  rcases fw.rx.ctx.rawRb.popByte_toList with ⟨hp, hl⟩ | ⟨byte, rb, hp, hl, -⟩
  · simp [hp, hl, waiting]
  · simp [hp, hl, waiting]

theorem waiting_rxTurn (fw : Firmware.State β) :
    waiting (Firmware.step lib map fw .rxTurn).1 = (waiting fw).tail := by
  simp only [Firmware.step, waiting]
  rcases Firmware.rxTurn_cases lib map fw with ⟨hring, he⟩ | ⟨byte, rb, hring, ⟨-, he⟩ | ⟨d, -, he⟩⟩
  · rw [he, hring]
    rfl
  · rw [he, hring]
    rfl
  · rw [he, hring]
    rfl

theorem waiting_step (fw : Firmware.State β) {i : Firmware.Input} (hi : i ≠ .rxTurn) :
    ∃ l, waiting (Firmware.step lib map fw i).1 = waiting fw ++ l ∧ l.length ≤ i.delivered.length := by
  have quiet {fw' : Firmware.State β} (h : fw'.rx = fw.rx) :
      ∃ l, waiting fw' = waiting fw ++ l ∧ l.length ≤ ([] : List UInt8).length :=
    ⟨[], by rw [waiting, h, List.append_nil]; rfl, Nat.le_refl _⟩
  cases i with
  | rxTurn => exact absurd rfl hi
  | usb i =>
    have hpush : ∃ l, (interrupt fw.dev fw.rx.ctx i).2.rawRb.toList = waiting fw ++ l ∧ l.length ≤ i.bytes.length := by
      obtain ⟨l, hl, hpre, -⟩ := UsbRx.push_prefix fw.rx.ctx i.bytes
      exact ⟨l, by rw [interrupt_rx, hl]; rfl, hpre.length_le⟩
    cases i with
    | ep2In =>
      simp only [Firmware.step, Firmware.usbIrq]
      split
      · exact hpush
      · exact quiet rfl
    | busReset | setup | ep0In | ep0Out | ep1In | ep3Out => exact hpush
  | uartTurn p =>
    rcases Firmware.uartTurn_cases lib map fw p with he | ⟨chunk, rest, f, -, -, -, -, he⟩
    · rw [he]
      exact quiet rfl
    · rw [he]
      exact quiet rfl
  | uart | txProcess | gap | gattMsg | rssi => exact quiet rfl

theorem kicks_delivered (fw : Firmware.State β) {i : Firmware.Input} (hd : i.delivered ≠ [])
    (outs : List Firmware.Output) : Kick.usbRx ∈ kicks map fw i outs := by
  refine List.mem_append_left _ ?_
  cases i with
  | usb i =>
    cases i with
    | ep3Out data pid =>
      dsimp only
      split <;> exact List.mem_cons_self
    | busReset | setup | ep0In | ep0Out | ep1In | ep2In => exact absurd rfl hd
  | rxTurn | uart | uartTurn | txProcess | gap | gattMsg | rssi => exact absurd rfl hd

/-- The event a piece of work starts a timer for. -/
def Work.starts : Work → UInt16
  | .startTask event _ => event
  | _ => 0

/-- The kernel takes the start of a timer that a piece of work is. -/
def granted (k : κ) : Work → Bool
  | .startTask event time => (T.startTask k event time).2
  | _ => true

theorem granted_of_grants {T : Tmos κ} (hT : T.Grants) (k : κ) (w : Work) : granted T k w = true := by
  cases w with
  | startTask event time => exact hT k event time
  | receiveMessages | heartbeat | usbRx | uart | usbTx => rfl

/-- A piece of work is a turn of the receive loop while there are bytes; any
other is done at once and leaves the ring alone. -/
theorem perform_spec (s : State κ β) {w : Work} {ws : List Work} {returned : UInt16}
    (hc : s.call = some (w :: ws, returned)) :
    let s' := (perform T lib map s (ws, returned) w).1
    (w = .usbRx ∧ waiting s.fw ≠ [] ∧ s' = (drive T lib map s .rxTurn).1) ∨
      ((w = .usbRx → waiting s.fw = []) ∧ s'.call = some (ws, returned) ∧ waiting s'.fw = waiting s.fw ∧
        (∀ m, Has (coming T s) m → Has (coming T s') m) ∧
        (∀ e : Event, e = .message ∨ e = .heartbeat → Has (coming T s') e.mask → Has (coming T s) e.mask) ∧
        T.timers s'.tmos = if granted T s.tmos w then T.timers s.tmos ||| w.starts else T.timers s.tmos) := by
  have hcoming (k : κ) (hk : T.pending k = T.pending s.tmos) :
      coming T { s with tmos := k, call := some (ws, returned) } = coming T s := by
    simp only [coming, State.returned, hc, hk]
    rfl
  -- work that is an input of the firmware
  have driven {i : Firmware.Input} (hd : i.delivered = []) (hi : i ≠ .rxTurn) :
      let s' := (drive T lib map { s with call := some (ws, returned) } i).1
      waiting s'.fw = waiting s.fw ∧ (∀ m, Has (coming T s) m → Has (coming T s') m) ∧
        (∀ e : Event, e = .message ∨ e = .heartbeat → Has (coming T s') e.mask → Has (coming T s) e.mask) ∧
        T.timers s'.tmos = T.timers s.tmos := by
    obtain ⟨-, h2, h3, h4⟩ := drive_spec T lib map { s with call := some (ws, returned) } i
    obtain ⟨l, hl, hlen⟩ := waiting_step lib map s.fw hi
    rw [hd, List.length_nil, Nat.le_zero, List.length_eq_zero_iff] at hlen
    rw [hlen, List.append_nil] at hl
    rw [hcoming s.tmos rfl] at h3 h4
    exact ⟨hl, h3, h4, h2⟩
  cases w with
  | receiveMessages | heartbeat =>
    have hk := hcoming s.tmos rfl
    exact .inr ⟨nofun, rfl, rfl, fun m h => hk.symm ▸ h, fun e _ h => hk ▸ h, UInt16.or_zero.symm⟩
  | startTask event time =>
    have hk := hcoming _ (T.startTask_pending s.tmos event time)
    exact .inr ⟨nofun, rfl, rfl, fun m h => hk.symm ▸ h, fun e _ h => hk ▸ h, T.startTask_timers ..⟩
  | uart p =>
    obtain ⟨h1, h2, h3, h4⟩ := driven (i := .uartTurn p) rfl nofun
    exact .inr ⟨nofun, rfl, h1, h2, h3, h4.trans UInt16.or_zero.symm⟩
  | usbTx =>
    obtain ⟨h1, h2, h3, h4⟩ := driven (i := .txProcess) rfl nofun
    exact .inr ⟨nofun, rfl, h1, h2, h3, h4.trans UInt16.or_zero.symm⟩
  | usbRx =>
    by_cases hr : waiting s.fw = []
    · dsimp only [perform]
      rw [if_pos ((readByte_isNone_iff s.fw).mpr hr)]
      have hk := hcoming s.tmos rfl
      exact .inr ⟨fun _ => hr, rfl, rfl, fun m h => hk.symm ▸ h, fun e _ h => hk ▸ h, UInt16.or_zero.symm⟩
    · dsimp only [perform]
      rw [if_neg (fun h => hr ((readByte_isNone_iff s.fw).mp h))]
      exact .inl ⟨rfl, hr, rfl⟩

end

end UsbMux.AppTask
