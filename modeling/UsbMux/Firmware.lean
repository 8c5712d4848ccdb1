/-
The whole firmware: the driver and the receive path, the router with both
managers and the port driver under them, and the transmit scheduler, with
what has passed the bus beside them.

An interrupt comes between two turns of a foreground loop, and the turns of
the loops come in any order, which is more than the one task that runs them
allows. An interrupt inside a turn is the subject of `RingRuns`, `FlushRace`
and `DropRace`.
-/
import UsbMux.BleUnused
import UsbMux.InPath
import UsbMux.Router
import UsbMux.UartRuns

namespace UsbMux.Firmware

open UsbDev UsbTx

/-! ## The machine -/

/-- What has passed the bus: the EP2 packets of each session that a reset of the
bus has ended, and since the last reset the frames the driver accepted, the EP2
packets armed and how many of these the host has acknowledged. -/
structure Wire where
  past : List (List (List UInt8))
  frames : List Frame
  packets : List (List UInt8)
  completed : Nat

structure State (β : Type) where
  rx : UsbRx.Run
  fw : Router.Fw UartHw.Hw β
  tx : UsbTx.Ctx
  dev : UsbDev.Ctx
  wire : Wire

/-- An interrupt of the USB controller, or of a USART with what is read from
its status and data register; a turn of the loop of `USBRX_Process` or of
`UartMgr_Process`, or `USBTX_Process`; or a callback of the BLE library. -/
inductive Input
  | usb (i : Irq)
  | uart (u : Fin 4) (statr datar : UInt16)
  | rxTurn
  | uartTurn (p : Fin UartMgr.uartPortCount)
  | txProcess
  | gap (evt : GapEvent)
  | gattMsg (msg : GattMsgEvent)
  | rssi (connHandle : UInt16) (rssi : UInt8)

/-- A message handed to the router, enqueue calls with what the queues made of
them, what `USBTX_Process` did, or a byte written to the data register of a USART. -/
inductive Output
  | message (e : UsbRx.Delivery)
  | called (calls : List Enqueue) (events : List Event)
  | scheduled (events : List Event)
  | transmitted (u : Fin 4) (b : UInt8)
deriving DecidableEq

variable {β : Type} (lib : AttLib β) (map : UartMgr.Map)

def platform : Router.Platform UartHw.Hw β := ⟨UartHw.uartPort map, lib.toBleLib, map⟩

/-- After the initialisation of all modules. -/
def start (hw : UartHw.Hw) (taskId : UInt8) (b : β) : State β :=
  ⟨UsbRx.start, Router.init (platform lib map) hw taskId b, UsbTx.init, UsbDev.init, ⟨[], [], [], 0⟩⟩

/-- The USART that an interrupt handler sends a byte on, with the byte. -/
def irqSends (s : UartMgr.State UartHw.Hw) (u : Fin 4) (statr datar : UInt16) : Option (Fin 4 × UInt8) :=
  match UartHw.findLogicPortByPhy map (UInt8.ofNat (u + 1)) with
  | none => none
  | some p =>
    match UartHw.getHwDesc map (UInt8.ofNat p) with
    | none => none
    | some v =>
      let s := UartHw.rxIrq s p v statr datar
      if UartHw.usartGetITStatus (s.hw.usart v) statr UartHw.usartItTxe then
        (UartMgr.irqTxNextByte s (UInt8.ofNat p)).2.map (v, ·)
      else none

/-- The calls a handler makes. -/
def State.call (s : State β) (calls : List Enqueue) : State β × List Output :=
  let e := enqueueAll s.tx calls
  ({ s with tx := e.1 }, [.called calls e.2])

/-- `USBTX_QueueData` as `UartMgr_Process` calls it, with the calls kept. -/
def offerTo : UartMgr.Usb (UsbTx.Ctx × List Output) := fun t call =>
  let r := enqueue t.1 call
  ((r.1, t.2 ++ [.called [call] [enqueued call.queue r.2]]), r.2.isSome)

/-- A turn of the loop of `USBRX_Process`. -/
def rxTurn (s : State β) : State β × List Output :=
  match UsbRx.readByte s.rx.ctx with
  | none => (s, [])
  | some (byte, ctx) =>
    let r := UsbRx.processByte ctx.fsm byte
    let s := { s with rx := ⟨{ ctx with fsm := r.1 }, s.rx.taken ++ [byte]⟩ }
    match r.2 with
    | none => (s, [])
    | some d =>
      let a := Router.dispatch (platform lib map) s.fw d.hdr d.payload d.payloadLen
      let c := { s with fw := a.1 }.call a.2
      (c.1, .message (s.rx.taken, d) :: c.2)

/-- An interrupt of the USB controller. An EP2 packet is acknowledged only
where the endpoint is armed; a reset of the bus ends a session. -/
def usbIrq (s : State β) (i : Irq) : State β :=
  let r := interrupt s.dev s.rx.ctx i
  let rx := { s.rx with ctx := r.2 }
  match i with
  | .busReset => { s with dev := r.1, rx := rx, wire := ⟨s.wire.past ++ [s.wire.packets], [], [], 0⟩ }
  | .ep2In =>
    if armed s.dev.regs.uep2TxCtrl then
      { s with
        dev := r.1
        rx := rx
        wire := { s.wire with
          packets := s.wire.packets ++ if armed r.1.regs.uep2TxCtrl then [ep2Packet r.1] else []
          completed := s.wire.completed + 1 } }
    else s
  | _ => { s with dev := r.1, rx := rx }

/-- One input. -/
def step : Mealy.Step (State β) Input Output
  | s, .usb i => (usbIrq s i, [])
  | s, .uart u statr datar =>
    ({ s with fw := { s.fw with uart := UartHw.irqHandler map s.fw.uart u statr datar } },
      (irqSends map s.fw.uart u statr datar).toList.map fun r => .transmitted r.1 r.2)
  | s, .rxTurn => rxTurn lib map s
  | s, .uartTurn p =>
    let r := UartMgr.processPort offerTo s.fw.uart (s.tx, []) p
    ({ s with fw := { s.fw with uart := r.1 }, tx := r.2.1.1 }, r.2.1.2)
  | s, .txProcess =>
    let r := UsbTx.process device s.tx s.dev
    let frames := InPath.handed r.2.2
    ({ s with
      tx := r.1
      dev := r.2.1
      wire := { s.wire with
        frames := s.wire.frames ++ frames
        packets := s.wire.packets ++ frames.map fun _ => ep2Packet r.2.1 } }, [.scheduled r.2.2])
  | s, .gap evt =>
    let r := BleHost.eventCb lib s.fw.ble evt
    { s with fw := { s.fw with ble := r.1 } }.call r.2
  | s, .gattMsg msg =>
    let r := BleHost.processGattMsg lib s.fw.ble msg
    { s with fw := { s.fw with ble := r.1 } }.call r.2
  | s, .rssi connHandle rssi => s.call (BleHost.rssiCb s.fw.ble connHandle rssi)

/-! ## Reading a trace -/

def Output.calls : Output → List Enqueue
  | .called calls _ => calls
  | _ => []

def Output.events : Output → List Event
  | .called _ events | .scheduled events => events
  | _ => []

/-- All enqueue calls. -/
def calls (tr : List Output) : List Enqueue := tr.flatMap Output.calls

/-- All that happened to the queues. -/
def events (tr : List Output) : List Event := tr.flatMap Output.events

/-- All messages handed to the router. -/
def messages (tr : List Output) : List UsbRx.Delivery :=
  tr.flatMap fun
    | .message e => [e]
    | _ => []

/-- The bytes sent on a USART. -/
def transmitted (u : Fin 4) (tr : List Output) : List UInt8 :=
  tr.flatMap fun
    | .transmitted v b => if v = u then [b] else []
    | _ => []

/-- The bytes an input brings to the raw ring. -/
def Input.delivered : Input → List UInt8
  | .usb i => i.bytes
  | _ => []

/-- The byte an input brings to the line of port `p`: RXNE is set. -/
def Input.arrived (p : Fin UartMgr.uartPortCount) : Input → List UInt8
  | .uart u statr datar =>
    if UartHw.findLogicPortByPhy map (UInt8.ofNat (u + 1)) = some p ∧ statr &&& 0x0020 ≠ 0 then
      [(UartHw.usartReceiveData datar).toUInt8]
    else []
  | _ => []

@[simp] theorem calls_append (tr us : List Output) : calls (tr ++ us) = calls tr ++ calls us := List.flatMap_append
@[simp] theorem events_append (tr us : List Output) : events (tr ++ us) = events tr ++ events us :=
  List.flatMap_append
@[simp] theorem messages_append (tr us : List Output) : messages (tr ++ us) = messages tr ++ messages us :=
  List.flatMap_append

@[simp] theorem calls_call (s : State β) (cs : List Enqueue) : calls (s.call cs).2 = cs := List.append_nil _
@[simp] theorem events_call (s : State β) (cs : List Enqueue) : events (s.call cs).2 = (enqueueAll s.tx cs).2 :=
  List.append_nil _
@[simp] theorem messages_call (s : State β) (cs : List Enqueue) : messages (s.call cs).2 = [] := rfl

/-! ## What a byte sent is -/

theorem rxIrq_hw (s : UartMgr.State UartHw.Hw) (p : Fin UartMgr.uartPortCount) (u : Fin 4) (statr datar : UInt16) :
    (UartHw.rxIrq s p u statr datar).hw = s.hw := by
  unfold UartHw.rxIrq
  split
  · rcases UartMgr.irqRxByte_cases s (UInt8.ofNat p) (UartHw.usartReceiveData datar).toUInt8 with
      ⟨he, -⟩ | ⟨q, -, -, he | ⟨rb, -, he⟩⟩
    · rw [he]
    · rw [he]
      rfl
    · rw [he]
      rfl
  · rfl

/-- A USART found by its number is the one whose number it is. -/
theorem usart_of_phy {p : Fin UartMgr.uartPortCount} {u v : Fin 4}
    (hf : UartHw.findLogicPortByPhy map (UInt8.ofNat (u + 1)) = some p)
    (hd : UartHw.getHwDesc map (UInt8.ofNat p) = some v) : v = u := by
  have hp : (map p).phyUartId = UInt8.ofNat (u + 1) := by
    have := List.find?_some hf
    simp only [ne_eq, decide_eq_true_eq] at this
    exact this.2
  have hn := congrArg UInt8.toNat ((UartHw.getHwDesc_phy hd).symm.trans hp)
  simp only [UInt8.toNat_ofNat'] at hn
  omega

theorem datar_of_byte (b : UInt8) : b.toUInt16 &&& 0x01FF = b.toUInt16 := by
  obtain ⟨v⟩ := b
  revert v
  decide +kernel

/-- The byte an interrupt handler sends is the one it writes to the data
register of its USART; where it sends none it writes no data register. -/
theorem irqSends_spec (s : UartMgr.State UartHw.Hw) (u : Fin 4) (statr datar : UInt16) :
    let s' := UartHw.irqHandler map s u statr datar
    match irqSends map s u statr datar with
    | some (v, b) => v = u ∧ (s'.hw.usart v).datar = b.toUInt16
    | none => ∀ v, (s'.hw.usart v).datar = (s.hw.usart v).datar := by
  unfold irqSends UartHw.irqHandler UartHw.commonIrq
  cases hf : UartHw.findLogicPortByPhy map (UInt8.ofNat (u + 1)) with
  | none => exact fun _ => rfl
  | some p =>
    dsimp only
    cases hd : UartHw.getHwDesc map (UInt8.ofNat p) with
    | none => exact fun _ => rfl
    | some v =>
      have hhw := rxIrq_hw s p v statr datar
      simp only [UartHw.txIrq]
      generalize UartHw.rxIrq s p v statr datar = s₁ at hhw
      by_cases ht : UartHw.usartGetITStatus (s₁.hw.usart v) statr UartHw.usartItTxe = true
      · simp only [ht, if_true]
        rcases UartMgr.irqTxNextByte_cases s₁ (UInt8.ofNat p) with ⟨he, -⟩ | ⟨q, b, rb, -, -, -, he⟩
        · -- nothing to send: only the interrupt is disabled
          simp only [he, Option.map_none]
          intro w
          rw [← hhw]
          by_cases hw : w = v
          · rw [hw, UartHw.modify_usart]
            rfl
          · rw [UartHw.modify_usart_of_ne _ _ hw]
        · simp only [he, Option.map_some]
          refine ⟨usart_of_phy map hf hd, ?_⟩
          change ((s₁.hw.modify v (UartHw.usartSendData · b.toUInt16)).usart v).datar = b.toUInt16
          rw [UartHw.modify_usart]
          exact datar_of_byte b
      · rw [Bool.not_eq_true] at ht
        simp only [ht, Bool.false_eq_true, if_false]
        exact fun w => by rw [hhw]

/-! ## The parts of a step -/

/-- A turn of `USBRX_Process` takes nothing, takes a byte that completes no
message, or takes the last byte of a message and handles it. -/
theorem rxTurn_cases (s : State β) :
    (s.rx.ctx.rawRb.toList = [] ∧ rxTurn lib map s = (s, [])) ∨
    ∃ byte rb, s.rx.ctx.rawRb.toList = byte :: rb.toList ∧
      let r := UsbRx.processByte s.rx.ctx.fsm byte
      let s' := { s with rx := ⟨⟨r.1, rb⟩, s.rx.taken ++ [byte]⟩ }
      (r.2 = none ∧ rxTurn lib map s = (s', [])) ∨
      ∃ d, r.2 = some d ∧
        let a := Router.dispatch (platform lib map) s.fw d.hdr d.payload d.payloadLen
        let c := { s' with fw := a.1 }.call a.2
        rxTurn lib map s = (c.1, .message (s.rx.taken ++ [byte], d) :: c.2) := by
  unfold rxTurn UsbRx.readByte
  rcases s.rx.ctx.rawRb.popByte_toList with ⟨hp, hl⟩ | ⟨byte, rb, hp, hl, -⟩
  · exact .inl ⟨hl, by rw [hp]; rfl⟩
  · refine .inr ⟨byte, rb, hl, ?_⟩
    simp only [hp, Option.map_some]
    cases hd : (UsbRx.processByte s.rx.ctx.fsm byte).2 with
    | none => exact .inl ⟨rfl, rfl⟩
    | some d => exact .inr ⟨d, rfl, rfl⟩

/-- A turn of `UartMgr_Process` changes one port and offers nothing, or offers
the first 64 bytes of the port's ring. -/
theorem uartTurn_cases (s : State β) (p : Fin UartMgr.uartPortCount) :
    step lib map s (.uartTurn p) = (s, []) ∨
    ∃ chunk rest f, (s.fw.uart.ports p).rxRb.toList = chunk ++ rest ∧ chunk.length ≤ 64 ∧
      (f (s.fw.uart.ports p)).rxRb.toList = rest ∧ (f (s.fw.uart.ports p)).txRb = (s.fw.uart.ports p).txRb ∧
      step lib map s (.uartTurn p) =
        { s with fw := { s.fw with uart := s.fw.uart.modify p f } }.call [UartMgr.offer p chunk] := by
  by_cases ho : (s.fw.uart.ports p).state = .opened
  · by_cases he : (s.fw.uart.ports p).rxRb.toList = []
    · refine .inl ?_
      simp only [step, UartMgr.processPort_empty offerTo ho he]
    · obtain ⟨rb, hrest, -, hr⟩ := UartMgr.processPort_offer offerTo ho he (s.tx, [])
      have hsplit : (s.fw.uart.ports p).rxRb.toList = (s.fw.uart.ports p).rxRb.toList.take 64 ++ rb.toList := by
        rw [hrest, List.take_append_drop]
      refine .inr ⟨_, rb.toList, fun port => { port with
        rxRb := rb
        dropRxBytes := if (offerTo (s.tx, []) (UartMgr.offer p ((s.fw.uart.ports p).rxRb.toList.take 64))).2 then
            port.dropRxBytes
          else port.dropRxBytes + UInt32.ofNat ((s.fw.uart.ports p).rxRb.toList.take 64).length },
        hsplit, List.length_take_le .., rfl, rfl, ?_⟩
      simp only [step, hr]
      rfl
  · refine .inl ?_
    simp only [step, UartMgr.processPort_not_opened offerTo ho]

theorem usbIrq_same (s : State β) (i : Irq) :
    (usbIrq s i).tx = s.tx ∧ (usbIrq s i).fw = s.fw ∧ (usbIrq s i).rx.taken = s.rx.taken := by
  cases i with
  | ep2In =>
    simp only [usbIrq]
    split <;> exact ⟨rfl, rfl, rfl⟩
  | busReset | setup | ep0In | ep0Out | ep1In | ep3Out => exact ⟨rfl, rfl, rfl⟩

/-- Every input but `USBTX_Process` does to the queues what the calls made in it do. -/
theorem step_calls (s : State β) {i : Input} (hi : i ≠ .txProcess) :
    let r := step lib map s i
    r.1.tx = (enqueueAll s.tx (calls r.2)).1 ∧ events r.2 = (enqueueAll s.tx (calls r.2)).2 := by
  have called (s : State β) (cs : List Enqueue) : (s.call cs).1.tx = (enqueueAll s.tx (calls (s.call cs).2)).1 ∧
      events (s.call cs).2 = (enqueueAll s.tx (calls (s.call cs).2)).2 := by
    rw [calls_call, events_call]
    exact ⟨rfl, rfl⟩
  cases i with
  | usb i => exact ⟨(usbIrq_same s i).1, rfl⟩
  | uart u statr datar =>
    simp only [step]
    cases irqSends map s.fw.uart u statr datar with
    | none => exact ⟨rfl, rfl⟩
    | some r => exact ⟨rfl, rfl⟩
  | rxTurn =>
    simp only [step]
    rcases rxTurn_cases lib map s with ⟨-, he⟩ | ⟨byte, rb, -, ⟨-, he⟩ | ⟨d, -, he⟩⟩
    · rw [he]
      exact ⟨rfl, rfl⟩
    · rw [he]
      exact ⟨rfl, rfl⟩
    · rw [he]
      exact called _ _
  | uartTurn p =>
    rcases uartTurn_cases lib map s p with he | ⟨chunk, rest, f, -, -, -, -, he⟩
    · rw [he]
      exact ⟨rfl, rfl⟩
    · rw [he]
      exact called _ _
  | txProcess => exact absurd rfl hi
  | gap evt => exact called _ _
  | gattMsg msg => exact called _ _
  | rssi connHandle rssi => exact called s _

/-- Interrupts of a USART, the turns of the two loops and the callbacks leave
driver and bus alone. -/
theorem step_same (s : State β) {i : Input} (hi : i ≠ .txProcess) (hu : ∀ j, i ≠ .usb j) :
    (step lib map s i).1.dev = s.dev ∧ (step lib map s i).1.wire = s.wire := by
  cases i with
  | usb i => exact absurd rfl (hu i)
  | txProcess => exact absurd rfl hi
  | uart u statr datar => exact ⟨rfl, rfl⟩
  | rxTurn =>
    simp only [step]
    rcases rxTurn_cases lib map s with ⟨-, he⟩ | ⟨byte, rb, -, ⟨-, he⟩ | ⟨d, -, he⟩⟩ <;> rw [he] <;> exact ⟨rfl, rfl⟩
  | uartTurn p =>
    rcases uartTurn_cases lib map s p with he | ⟨chunk, rest, f, -, -, -, -, he⟩ <;> rw [he] <;> exact ⟨rfl, rfl⟩
  | gap evt => exact ⟨rfl, rfl⟩
  | gattMsg msg => exact ⟨rfl, rfl⟩
  | rssi connHandle rssi => exact ⟨rfl, rfl⟩

/-! ## What the managers do -/

theorem dispatch_cases (P : Router.Platform UartHw.Hw β) (fw : Router.Fw UartHw.Hw β) (hdr : VpHdr)
    (payload : Ptr UInt8) (payloadLen : UInt16) :
    let r := (Router.dispatch P fw hdr payload payloadLen).1
    r = fw ∨ r = { fw with uart := (UartMgr.handleCtrl P.drv P.map fw.uart hdr payload payloadLen).1 } ∨
      (Router.IsUartData hdr ∧
        r = { fw with uart := (UartMgr.writeFromHost P.drv fw.uart hdr.chId payload payloadLen).1 }) ∨
      r = { fw with ble := (BleHost.handleMgmt P.lib fw.ble hdr payload payloadLen).1 } := by
  simp only [Router.dispatch]
  split
  · split
    · exact .inl rfl
    · exact .inr (.inl rfl)
  split
  · next hd =>
    split
    · exact .inl rfl
    · next hm => exact .inr (.inr (.inl ⟨⟨hd, not_not.mp hm⟩, rfl⟩))
  split
  · split
    · exact .inl rfl
    · exact .inr (.inr (.inr rfl))
  split
  · exact .inl rfl
  split <;> exact .inl rfl

theorem unused_step {s : State β} (h : BleHost.Unused s.fw.ble) (i : Input) :
    BleHost.Unused (step lib map s i).1.fw.ble := by
  cases i with
  | usb i =>
    simp only [step, (usbIrq_same s i).2.1]
    exact h
  | uart u statr datar => exact h
  | rxTurn =>
    simp only [step]
    rcases rxTurn_cases lib map s with ⟨-, he⟩ | ⟨byte, rb, -, ⟨-, he⟩ | ⟨d, -, he⟩⟩
    · rw [he]
      exact h
    · rw [he]
      exact h
    · rw [he]
      change BleHost.Unused (Router.dispatch (platform lib map) s.fw d.hdr d.payload d.payloadLen).1.ble
      rcases dispatch_cases (platform lib map) s.fw d.hdr d.payload d.payloadLen with hr | hr | ⟨-, hr⟩ | hr
      · rw [hr]
        exact h
      · rw [hr]
        exact h
      · rw [hr]
        exact h
      · rw [hr]
        exact BleHost.step_unused lib h (.mgmt d.hdr d.payload d.payloadLen)
  | uartTurn p =>
    rcases uartTurn_cases lib map s p with he | ⟨chunk, rest, f, -, -, -, -, he⟩
    · rw [he]
      exact h
    · rw [he]
      exact h
  | txProcess => exact h
  | gap evt => exact BleHost.step_unused lib h (.gap evt)
  | gattMsg msg => exact BleHost.step_unused lib h (.gattMsg msg)
  | rssi connHandle rssi => exact h

theorem callback_events {s : State β} (h : BleHost.Unused s.fw.ble) :
    (∀ evt, ∀ call ∈ (BleHost.eventCb lib s.fw.ble evt).2, call.queue = .evt) ∧
      (∀ msg, ∀ call ∈ (BleHost.processGattMsg lib s.fw.ble msg).2, call.queue = .evt) ∧
      ∀ connHandle rssi, ∀ call ∈ BleHost.rssiCb s.fw.ble connHandle rssi, call.queue = .evt := by
  refine ⟨?_, ?_, ?_⟩
  · intro evt
    cases evt with
    | deviceInitDone | deviceDiscovery | other => exact List.forall_mem_nil _
    | deviceInfo info | extAdvDeviceInfo info => exact List.forall_mem_singleton.mpr rfl
    | linkEstablished status connectionHandle devAddrType devAddr =>
      simp only [BleHost.eventCb]
      split
      · exact List.forall_mem_nil _
      · split
        · exact List.forall_mem_singleton.mpr rfl
        · exact List.forall_mem_singleton.mpr rfl
    | linkTerminated connectionHandle reason =>
      simp only [BleHost.eventCb]
      split
      · exact List.forall_mem_nil _
      · exact List.forall_mem_singleton.mpr rfl
  · intro msg call hc
    simp only [BleHost.processGattMsg] at hc
    split at hc
    · cases hc
    · next i hi =>
      obtain ⟨opcode, payload, len, rfl⟩ :=
        BleLink.handleGattMsg_forSlot lib s.fw.ble.link (BleHost.getCtx_slotByte i) (h.slot_id i) msg call hc
      rfl
  · intro connHandle rssi
    simp only [BleHost.rssiCb]
    split
    · exact List.forall_mem_nil _
    · exact List.forall_mem_singleton.mpr rfl

end UsbMux.Firmware
