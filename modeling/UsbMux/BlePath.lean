/-
The BLE manager in the whole firmware. It goes through a run of its own machine
(`BleHost.step`), on the commands for it among the messages and on the reports
of the library, so what holds of every run of that machine holds of it here. What
the host reads of it are some of the events of that run, in order, and so the
values of characteristics that the peers send come to the host in order.
-/
import UsbMux.HostReads
import UsbMux.Lib.Stutter

namespace UsbMux.Firmware

open Endian List UsbDev UsbTx

/-! ## What the manager gets -/

/-- A command on the channel of the manager. -/
def IsBleCommand (hdr : VpHdr) : Prop :=
  hdr.chType = VpChannelType.bleMgmt.code ∧ hdr.msgType = VpMsgType.cmd.code

instance (hdr : VpHdr) : Decidable (IsBleCommand hdr) := inferInstanceAs (Decidable (_ ∧ _))

/-- The input of the manager that a message is. -/
def bleCommand (d : UsbRx.Dispatch) : Option BleHost.Input :=
  if IsBleCommand d.hdr then some (.mgmt d.hdr d.payload d.payloadLen) else none

/-- The input of the manager that an input of the firmware is. -/
def bleInput {β : Type} (s : State β) : Input → Option BleHost.Input
  | .rxTurn =>
    match UsbRx.readByte s.rx.ctx with
    | none => none
    | some (byte, ctx) => (UsbRx.processByte ctx.fsm byte).2.bind bleCommand
  | .gap evt => some (.gap evt)
  | .gattMsg msg => some (.gattMsg msg)
  | .rssi connHandle rssi => some (.rssi connHandle rssi)
  | .usb _ | .uart .. | .uartTurn _ | .txProcess => none

/-- A command, and a report. -/
def commandOf : BleHost.Input → List BleHost.Input
  | .mgmt hdr payload payloadLen => [.mgmt hdr payload payloadLen]
  | _ => []

def reportOf : BleHost.Input → List BleHost.Input
  | .mgmt .. => []
  | i => [i]

/-- The report of the library that an input of the firmware is. -/
def Input.report : Input → List BleHost.Input
  | .gap evt => [.gap evt]
  | .gattMsg msg => [.gattMsg msg]
  | .rssi connHandle reading => [.rssi connHandle reading]
  | _ => []

/-- The calls that queue events. -/
def eventCalls (cs : List Enqueue) : List Enqueue := cs.filter (·.queue = .evt)

theorem eventCalls_append (cs cs' : List Enqueue) : eventCalls (cs ++ cs') = eventCalls cs ++ eventCalls cs' :=
  filter_append ..

section

variable {β : Type} (lib : AttLib β) (map : UartMgr.Map)

/-- A message that is no command for the manager leaves it alone and queues no
event; a command is handled by it. -/
theorem dispatch_ble (fw : Router.Fw UartHw.Hw β) (d : UsbRx.Dispatch) :
    let r := Router.dispatch (platform lib map) fw d.hdr d.payload d.payloadLen
    match bleCommand d with
    | none => r.1.ble = fw.ble ∧ eventCalls r.2 = []
    | some i => r.1.ble = (BleHost.step lib fw.ble i).1 ∧ r.2 = (BleHost.step lib fw.ble i).2 := by
  have hne {t : VpChannelType} (ht : t ≠ .bleMgmt) : VpChannelType.bleMgmt.code ≠ t.code := by
    revert ht; cases t <;> decide
  by_cases hb : IsBleCommand d.hdr
  · rw [bleCommand, if_pos hb]
    have h1 := hne (show VpChannelType.uartCtrl ≠ .bleMgmt by decide)
    have h2 := hne (show VpChannelType.uartData ≠ .bleMgmt by decide)
    simp only [Router.dispatch, hb.1, hb.2, h1, h2, ne_eq, not_true_eq_false, if_true, if_false]
    exact ⟨rfl, rfl⟩
  · rw [bleCommand, if_neg hb]
    simp only [Router.dispatch]
    split
    · split
      · exact ⟨rfl, rfl⟩
      · obtain ⟨status, rsp, rspLen, hcalls, -⟩ := UartMgr.handleCtrl_handled (platform lib map).drv
          (platform lib map).map fw.uart d.hdr d.payload d.payloadLen
        exact ⟨rfl, by rw [hcalls]; rfl⟩
    split
    · split
      · exact ⟨rfl, rfl⟩
      · exact ⟨rfl, rfl⟩
    split
    · next hch =>
      split
      · exact ⟨rfl, rfl⟩
      · next hmsg => exact absurd ⟨hch, not_not.mp hmsg⟩ hb
    split
    · exact ⟨rfl, rfl⟩
    split
    · exact ⟨rfl, rfl⟩
    · refine ⟨rfl, ?_⟩
      simp only [Router.handleSys]
      split
      · split <;> rfl
      · split <;> rfl
      · rfl
      · rfl

/-! ## The manager's own run -/

/-- Each machine with the event calls only. -/
def eventsOf : Output → List Enqueue := fun o => eventCalls o.calls

def eventOf (call : Enqueue) : List Enqueue := eventCalls [call]

theorem flatMap_eventOf (cs : List Enqueue) : cs.flatMap eventOf = eventCalls cs := by
  induction cs with
  | nil => rfl
  | cons call cs ih => rw [flatMap_cons, ih, eventOf, ← eventCalls_append]; rfl

theorem flatMap_eventsOf (tr : List Output) : tr.flatMap eventsOf = eventCalls (calls tr) := by
  induction tr with
  | nil => rfl
  | cons o tr ih => rw [flatMap_cons, ih, eventsOf, ← eventCalls_append]; rfl

theorem events_of_call (s : State β) (cs : List Enqueue) : (s.call cs).2.flatMap eventsOf = cs.flatMap eventOf := by
  rw [flatMap_eventsOf, calls_call, flatMap_eventOf]

/-- Every input leaves the manager alone or is one of its inputs. -/
theorem ble_component : Mealy.Component (Mealy.showing eventsOf (step lib map))
    (Mealy.showing eventOf (BleHost.step lib)) (fun s => s.fw.ble) bleInput where
  takes s i j h := by
    cases i with
    | usb i | uart u statr datar | uartTurn p | txProcess => cases h
    | gap evt =>
      obtain rfl := Option.some.inj h
      exact ⟨rfl, events_of_call _ _⟩
    | gattMsg msg =>
      obtain rfl := Option.some.inj h
      exact ⟨rfl, events_of_call _ _⟩
    | rssi connHandle rssi =>
      obtain rfl := Option.some.inj h
      exact ⟨rfl, events_of_call _ _⟩
    | rxTurn =>
      simp only [bleInput] at h
      simp only [Mealy.showing, step, rxTurn]
      cases hr : UsbRx.readByte s.rx.ctx with
      | none =>
        rw [hr] at h
        cases h
      | some r =>
        obtain ⟨byte, ctx⟩ := r
        rw [hr] at h
        dsimp only at h ⊢
        cases hd : (UsbRx.processByte ctx.fsm byte).2 with
        | none =>
          rw [hd] at h
          cases h
        | some d =>
          rw [hd, Option.bind_some] at h
          have hble := dispatch_ble lib map s.fw d
          rw [h] at hble
          refine ⟨hble.1, ?_⟩
          dsimp only
          rw [flatMap_cons, events_of_call, hble.2]
          rfl
  skips s i h := by
    cases i with
    | gap evt | gattMsg msg | rssi connHandle rssi => cases h
    | usb i => exact ⟨congrArg Router.Fw.ble (usbIrq_same s i).2.1, rfl⟩
    | uart u statr datar =>
      dsimp only [Mealy.showing, step]
      cases irqSends map s.fw.uart u statr datar with
      | none => exact ⟨rfl, rfl⟩
      | some r => exact ⟨rfl, rfl⟩
    | uartTurn p =>
      simp only [Mealy.showing]
      rcases uartTurn_cases lib map s p with he | ⟨chunk, rest, f, -, -, -, -, he⟩
      · rw [he]
        exact ⟨rfl, rfl⟩
      · rw [he]
        exact ⟨rfl, rfl⟩
    | txProcess => exact ⟨rfl, rfl⟩
    | rxTurn =>
      simp only [bleInput] at h
      simp only [Mealy.showing, step, rxTurn]
      cases hr : UsbRx.readByte s.rx.ctx with
      | none => exact ⟨rfl, rfl⟩
      | some r =>
        obtain ⟨byte, ctx⟩ := r
        rw [hr] at h
        dsimp only at h ⊢
        cases hd : (UsbRx.processByte ctx.fsm byte).2 with
        | none => exact ⟨rfl, rfl⟩
        | some d =>
          rw [hd, Option.bind_some] at h
          have hble := dispatch_ble lib map s.fw d
          rw [h] at hble
          refine ⟨hble.1, ?_⟩
          dsimp only
          rw [flatMap_cons, events_of_call, flatMap_eventOf, hble.2]
          rfl

/-- The manager's inputs in a run. -/
def bleInputs (s : State β) (is : List Input) : List BleHost.Input :=
  Mealy.readings (step lib map) (fun s i => (bleInput s i).toList) s is

/-- The command for the manager that an output shows. -/
def commandIn : Output → List BleHost.Input
  | .message e => (bleCommand e.2).toList
  | _ => []

theorem flatMap_commandIn (tr : List Output) :
    tr.flatMap commandIn = (messages tr).flatMap fun e => (bleCommand e.2).toList := by
  induction tr with
  | nil => rfl
  | cons o tr ih =>
    rw [flatMap_cons, ih]
    cases o with
    | called | scheduled | transmitted => rfl
    | message e => rfl

/-- The input is the command that a message is: it has the message's header and
payload length, and the bytes of its body, but where the payload length is
beyond a frame. -/
def IsCommand (i : BleHost.Input) (m : Message) : Prop :=
  ∃ payload, i = .mgmt m.1 payload m.1.payloadLen ∧
    (m.1.payloadLen.toNat ≤ 488 → payload.cells m.1.payloadLen.toNat = m.2)

theorem forall₂_bleCommand {es : List UsbRx.Delivery}
    (hes : ∀ e ∈ es, e.2.hdr.payloadLen.toNat ≤ 488 → e.2.payload.cells e.2.payloadLen.toNat = e.2.body) :
    Forall₂ IsCommand (es.flatMap fun e => (bleCommand e.2).toList)
      ((es.map fun e => (e.2.hdr, e.2.body)).filter fun m => IsBleCommand m.1) := by
  induction es with
  | nil => exact .nil
  | cons e es ih =>
    obtain ⟨he, hes⟩ := forall_mem_cons.mp hes
    rw [flatMap_cons, map_cons, bleCommand]
    by_cases hb : IsBleCommand e.2.hdr
    · rw [if_pos hb, filter_cons_of_pos (by simpa using hb)]
      exact .cons ⟨e.2.payload, rfl, he⟩ (ih hes)
    · rw [if_neg hb, filter_cons_of_neg (by simpa using hb)]
      exact ih hes

/-- The commands the manager gets are those among the messages. -/
theorem step_commands (s : State β) (i : Input) :
    (bleInput s i).toList.flatMap commandOf = (step lib map s i).2.flatMap commandIn := by
  cases i with
  | gap evt | gattMsg msg | rssi connHandle rssi | usb i | txProcess => rfl
  | uart u statr datar =>
    simp only [bleInput, step]
    cases irqSends map s.fw.uart u statr datar with
    | none => rfl
    | some r => rfl
  | uartTurn p =>
    rcases uartTurn_cases lib map s p with he | ⟨chunk, rest, f, -, -, -, -, he⟩
    · rw [he]
      rfl
    · rw [he]
      rfl
  | rxTurn =>
    simp only [bleInput, step, rxTurn]
    cases UsbRx.readByte s.rx.ctx with
    | none => rfl
    | some r =>
      obtain ⟨byte, ctx⟩ := r
      dsimp only
      cases (UsbRx.processByte ctx.fsm byte).2 with
      | none => rfl
      | some d =>
        change (bleCommand d).toList.flatMap commandOf = (bleCommand d).toList ++ []
        rw [bleCommand]
        split <;> rfl

theorem step_reports (s : State β) (i : Input) : (bleInput s i).toList.flatMap reportOf = i.report := by
  cases i with
  | gap evt | gattMsg msg | rssi connHandle rssi | usb i | uart u statr datar | uartTurn p | txProcess => rfl
  | rxTurn =>
    simp only [bleInput]
    cases UsbRx.readByte s.rx.ctx with
    | none => rfl
    | some r =>
      obtain ⟨byte, ctx⟩ := r
      dsimp only
      cases (UsbRx.processByte ctx.fsm byte).2 with
      | none => rfl
      | some d =>
        rw [Option.bind_some, bleCommand]
        split <;> rfl

variable (hw : UartHw.Hw) (taskId : UInt8) (b : β)

/-- **The BLE manager, end to end.** Over every run of the firmware, the
manager goes through a run of its own machine. That gets the commands for it
among the messages in the bytes taken, each with its payload, and all reports of
the library, both in order; and the events the host reads in all sessions are
some of those it makes, in order. -/
theorem ble_refines (is : List Input) :
    let s := Mealy.run (step lib map) (start lib map hw taskId b) is
    let js := bleInputs lib map (start lib map hw taskId b) is
    s.fw.ble = Mealy.run (BleHost.step lib) (BleHost.init taskId b) js ∧
      Forall₂ IsCommand (js.flatMap commandOf) ((UsbRx.reference s.rx.taken).filter fun m => IsBleCommand m.1) ∧
      js.flatMap reportOf = is.flatMap Input.report ∧
      SublistForall₂ Conveys ((allReads s).filter (OfClass .evt))
        (eventCalls (Mealy.outs (BleHost.step lib) (BleHost.init taskId b) js)) := by
  intro s js
  obtain ⟨hrun, houts⟩ := (ble_component lib map).run (start lib map hw taskId b) is
  rw [Mealy.readings_showing, Mealy.run_showing, Mealy.run_showing] at hrun
  rw [Mealy.readings_showing, Mealy.outs_showing, Mealy.outs_showing, flatMap_eventsOf, flatMap_eventOf] at houts
  have hcommands : (fun (s : State β) i => (bleInput s i).toList.flatMap commandOf) =
      fun s i => (step lib map s i).2.flatMap commandIn := funext₂ (step_commands lib map)
  have hreports : (fun (s : State β) i => (bleInput s i).toList.flatMap reportOf) = fun _ i => i.report :=
    funext₂ step_reports
  refine ⟨hrun, ?_, ?_, ?_⟩
  · have hparsed := parsed_run lib map hw taskId b is
    rw [← hparsed.reference]
    simp only [js, bleInputs, Mealy.readings_flatMap]
    rw [hcommands, Mealy.readings_outs, flatMap_commandIn]
    exact forall₂_bleCommand fun e he hl => hparsed.payload_eq_body he hl
  · simp only [js, bleInputs, Mealy.readings_flatMap]
    rw [hreports, Mealy.readings_inputs]
  · have hevents : eventCalls (Mealy.outs (BleHost.step lib) (BleHost.init taskId b) js) =
        eventCalls (calls (Mealy.outs (step lib map) (start lib map hw taskId b) is)) := houts.symm
    rw [hevents]
    exact (onItsWay_run lib map hw taskId b is).conveyed .evt

end

end UsbMux.Firmware
