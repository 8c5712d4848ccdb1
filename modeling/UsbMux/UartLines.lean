/-
The two directions of a port through the whole firmware. What the host reads
for a port is some of what came in on the port's line, in order, and what goes
out on a line is some of what the messages for its port bring, in order:
nothing changes its port, its place or its value, whatever else is handled in
between.
-/
import UsbMux.HostReads

namespace UsbMux.Firmware

open Framing List UsbDev UsbTx

/-! ## The rings of a port -/

section Rings

open UartMgr

variable {η : Type}

theorem handled_rings {drv : UartPort η} {s s' : UartMgr.State η} {hdr : VpHdr} {payload : Ptr UInt8}
    {payloadLen : UInt16} {status : VpStatus} (h : Handled drv s hdr payload payloadLen s' status)
    (p : Fin uartPortCount) :
    ((s'.ports p).rxRb.toList <+ (s.ports p).rxRb.toList) ∧ (s'.ports p).txRb.toList <+ (s.ports p).txRb.toList := by
  -- a change of port `q` that empties rings or leaves them
  have changed {t : UartMgr.State η} (ht : t.ports = s.ports) (q : Fin uartPortCount) {f : PortCtx → PortCtx}
      (hf : ∀ port, (f port).rxRb.toList <+ port.rxRb.toList ∧ (f port).txRb.toList <+ port.txRb.toList) :
      ((t.modify q f).ports p).rxRb.toList <+ (s.ports p).rxRb.toList ∧
        ((t.modify q f).ports p).txRb.toList <+ (s.ports p).txRb.toList := by
    rw [← ht]
    by_cases he : p = q
    · rw [he, modify_self]
      exact hf _
    · rw [modify_of_ne t f he]
      exact ⟨Sublist.refl _, Sublist.refl _⟩
  have emptied (rb rb' : RingBuffer) : rb.reset.toList <+ rb'.toList := by
    rw [RingBuffer.toList_reset]
    exact nil_sublist _
  cases h with
  | same => exact ⟨Sublist.refl _, Sublist.refl _⟩
  | @opened q c => exact changed (t := (callOpen drv s q c).1) rfl q fun _ => ⟨Sublist.refl _, Sublist.refl _⟩
  | @openFailed q c => exact changed (t := (callOpen drv s q c).1) rfl q fun _ => ⟨Sublist.refl _, Sublist.refl _⟩
  | @closed q =>
    exact changed (t := { s with hw := drv.close s.hw (s.ports q).logicPort }) rfl q fun port =>
      ⟨emptied port.rxRb port.rxRb, emptied port.txRb port.txRb⟩
  | @recoded q c => exact changed (t := (callOpen drv s q c).1) rfl q fun _ => ⟨Sublist.refl _, Sublist.refl _⟩
  | recodeFailed => exact ⟨Sublist.refl _, Sublist.refl _⟩
  | @flushedRx q => exact changed (t := s) rfl q fun port => ⟨emptied port.rxRb port.rxRb, Sublist.refl _⟩
  | @flushedTx q => exact changed (t := s) rfl q fun port => ⟨Sublist.refl _, emptied port.txRb port.txRb⟩

/-- A write from the host leaves the rings as they are, or appends some of its
payload to the transmit ring of its port. -/
theorem writeFromHost_rings (drv : UartPort η) (s : UartMgr.State η) (logicPort : UInt8) (payload : Ptr UInt8)
    (payloadLen : UInt16) (p : Fin uartPortCount) :
    let s' := (writeFromHost drv s logicPort payload payloadLen).1
    (s'.ports p).rxRb = (s.ports p).rxRb ∧
      (s'.ports p).txRb.toList <+ (s.ports p).txRb.toList ++
        if logicPort = UInt8.ofNat p then payload.cells payloadLen.toNat else [] := by
  intro s'
  rcases writeFromHost_cases drv s logicPort payload payloadLen with ⟨he, -⟩ | ⟨q, hq, -, he⟩
  · have hs' : s' = s := he
    rw [hs']
    exact ⟨rfl, sublist_append_left _ _⟩
  · have hports : s'.ports = (s.modify q (·.written payload payloadLen)).ports := by
      simp only [s', he]
    rw [hports]
    by_cases hpq : p = q
    · rw [hpq, modify_self, getPort_toNat hq, if_pos rfl]
      refine ⟨rfl, ?_⟩
      change ((s.ports q).txRb.write payload payloadLen).1.toList <+ _
      rw [RingBuffer.write]
      split
      · exact sublist_append_left _ _
      · rw [((s.ports q).txRb.writeLoop_toList (payload.cells payloadLen.toNat) 0).1]
        exact (Sublist.refl _).append (take_sublist _ _)
    · rw [modify_of_ne _ _ hpq]
      exact ⟨rfl, sublist_append_left _ _⟩

end Rings

section Irq

variable (map : UartMgr.Map)

/-- The port of a USART. -/
def portOf (u : Fin 4) : Option (Fin UartMgr.uartPortCount) := UartHw.findLogicPortByPhy map (UInt8.ofNat (u + 1))

theorem rxne_of_status {u : UartHw.Usart} {statr : UInt16}
    (h : UartHw.usartGetITStatus u statr UartHw.usartItRxne = true) : statr &&& 0x0020 ≠ 0 := by
  simp only [UartHw.usartGetITStatus, Bool.and_eq_true, decide_eq_true_eq] at h
  have hbit : (1 : UInt16) <<< (UartHw.usartItRxne >>> 8) = 0x0020 := by decide
  rw [hbit] at h
  rw [UInt16.and_comm]
  exact h.2

/-- The receive half of an interrupt appends the byte that came to the ring of
the port, or loses it. -/
theorem rxIrq_rings (s : UartMgr.State UartHw.Hw) (q : Fin UartMgr.uartPortCount) (u : Fin 4) (statr datar : UInt16)
    (p : Fin UartMgr.uartPortCount) :
    let s' := UartHw.rxIrq s q u statr datar
    (s'.ports p).txRb = (s.ports p).txRb ∧
      (s'.ports p).rxRb.toList <+ (s.ports p).rxRb.toList ++
        if q = p ∧ statr &&& 0x0020 ≠ 0 then [(UartHw.usartReceiveData datar).toUInt8] else [] := by
  simp only [UartHw.rxIrq]
  split
  · next hit =>
    have hrxne := rxne_of_status hit
    rcases UartMgr.irqRxByte_cases s (UInt8.ofNat q) (UartHw.usartReceiveData datar).toUInt8 with
      ⟨he, -⟩ | ⟨q', hq', -, hcase⟩
    · rw [he]
      exact ⟨rfl, sublist_append_left _ _⟩
    · obtain rfl : q' = q := by
        rw [UartMgr.getPort_ofNat] at hq'
        exact (Option.some.inj hq').symm
      rcases hcase with he | ⟨rb, hrb, he⟩
      · rw [he]
        by_cases hp : p = q'
        · rw [hp, UartMgr.modify_self]
          exact ⟨rfl, sublist_append_left _ _⟩
        · rw [UartMgr.modify_of_ne _ _ hp]
          exact ⟨rfl, sublist_append_left _ _⟩
      · rw [he]
        by_cases hp : p = q'
        · rw [hp, UartMgr.modify_self, if_pos ⟨rfl, hrxne⟩]
          exact ⟨rfl, by rw [hrb]⟩
        · rw [UartMgr.modify_of_ne _ _ hp]
          exact ⟨rfl, sublist_append_left _ _⟩
  · exact ⟨rfl, sublist_append_left _ _⟩

/-- The transmit half sends the oldest byte of the ring of the port, or nothing. -/
theorem txIrq_rings (s : UartMgr.State UartHw.Hw) (q : Fin UartMgr.uartPortCount) (v : Fin 4) (statr : UInt16)
    (p : Fin UartMgr.uartPortCount) :
    let s' := UartHw.txIrq s q v statr
    let sends := if UartHw.usartGetITStatus (s.hw.usart v) statr UartHw.usartItTxe then
      (UartMgr.irqTxNextByte s (UInt8.ofNat q)).2.map (v, ·) else none
    (s'.ports p).rxRb = (s.ports p).rxRb ∧
      (if q = p then sends.toList.map Prod.snd else []) ++ (s'.ports p).txRb.toList <+ (s.ports p).txRb.toList := by
  have quiet : (if q = p then ((none : Option (Fin 4 × UInt8)).toList.map Prod.snd) else []) ++
      (s.ports p).txRb.toList <+ (s.ports p).txRb.toList := by
    split <;> exact Sublist.refl _
  simp only [UartHw.txIrq]
  split
  · rcases UartMgr.irqTxNextByte_cases s (UInt8.ofNat q) with ⟨he, -⟩ | ⟨q', b, rb, hq', -, hring, he⟩
    · simp only [he, Option.map_none]
      exact ⟨trivial, quiet⟩
    · obtain rfl : q' = q := by
        rw [UartMgr.getPort_ofNat] at hq'
        exact (Option.some.inj hq').symm
      simp only [he, Option.map_some]
      by_cases hp : p = q'
      · rw [hp, UartMgr.modify_self, if_pos rfl, hring]
        exact ⟨rfl, Sublist.refl _⟩
      · rw [UartMgr.modify_of_ne _ _ hp, if_neg (Ne.symm hp)]
        exact ⟨rfl, Sublist.refl _⟩
  · exact ⟨rfl, quiet⟩

/-- An interrupt of a USART does nothing, or serves the port it finds. -/
theorem irqHandler_cases (s : UartMgr.State UartHw.Hw) (u : Fin 4) (statr datar : UInt16) :
    (UartHw.irqHandler map s u statr datar = s ∧ irqSends map s u statr datar = none) ∨
    ∃ q v, portOf map u = some q ∧
      let s' := UartHw.rxIrq s q v statr datar
      UartHw.irqHandler map s u statr datar = UartHw.txIrq s' q v statr ∧
        irqSends map s u statr datar = if UartHw.usartGetITStatus (s'.hw.usart v) statr UartHw.usartItTxe then
          (UartMgr.irqTxNextByte s' (UInt8.ofNat q)).2.map (v, ·) else none := by
  unfold irqSends UartHw.irqHandler UartHw.commonIrq portOf
  cases UartHw.findLogicPortByPhy map (UInt8.ofNat (u + 1)) with
  | none => exact .inl ⟨rfl, rfl⟩
  | some q =>
    dsimp only
    cases UartHw.getHwDesc map (UInt8.ofNat q) with
    | none => exact .inl ⟨rfl, rfl⟩
    | some v => exact .inr ⟨q, v, rfl, rfl, rfl⟩

/-- What an interrupt of a USART does to the rings of a port: the byte that
came goes to the receive ring or is lost, and a byte sent leaves the front of
the transmit ring. -/
theorem irqHandler_rings (s : UartMgr.State UartHw.Hw) (u : Fin 4) (statr datar : UInt16)
    (p : Fin UartMgr.uartPortCount) :
    let s' := UartHw.irqHandler map s u statr datar
    ((s'.ports p).rxRb.toList <+ (s.ports p).rxRb.toList ++ Input.arrived map p (.uart u statr datar)) ∧
      (if portOf map u = some p then (irqSends map s u statr datar).toList.map Prod.snd else []) ++
        (s'.ports p).txRb.toList <+ (s.ports p).txRb.toList := by
  rcases irqHandler_cases map s u statr datar with ⟨hs, hsend⟩ | ⟨q, v, hq, hs, hsend⟩
  · rw [hs, hsend]
    refine ⟨sublist_append_left _ _, ?_⟩
    split <;> exact Sublist.refl _
  · obtain ⟨hrtx, hrrx⟩ := rxIrq_rings s q v statr datar p
    obtain ⟨htrx, httx⟩ := txIrq_rings (UartHw.rxIrq s q v statr datar) q v statr p
    rw [portOf] at hq
    simp only [Input.arrived, portOf, hq, hs, hsend, Option.some.injEq]
    exact ⟨htrx ▸ hrrx, hrtx ▸ httx⟩

end Irq

/-! ## From the line to the host -/

/-- The bytes a message carries for a port, or from it. -/
def uartBytes (p : Fin UartMgr.uartPortCount) (m : Message) : List UInt8 :=
  if Router.IsUartData m.1 ∧ m.1.chId = UInt8.ofNat p then m.2 else []

/-- The bytes of a port in an enqueue call. -/
def uartData (p : Fin UartMgr.uartPortCount) : Enqueue → List UInt8
  | .data chType chId payload payloadLen =>
    if chType = VpChannelType.uartData.code ∧ chId = UInt8.ofNat p then payload.cells payloadLen.toNat else []
  | _ => []

theorem uartData_of_queue {p : Fin UartMgr.uartPortCount} {call : Enqueue} (h : call.queue ≠ .data) :
    uartData p call = [] := by
  cases call with
  | data => exact absurd rfl h
  | rsp | evt => rfl

theorem uartData_none {p : Fin UartMgr.uartPortCount} {cs : List Enqueue} (h : ∀ call ∈ cs, call.queue ≠ .data) :
    cs.flatMap (uartData p) = [] :=
  flatMap_eq_nil_iff.mpr fun call hc => uartData_of_queue (h call hc)

theorem Conveys.uartBytes {m : Message} {call : Enqueue} (h : Conveys m call) (hq : call.queue = .data)
    (hs : call.payload.isSome) (p : Fin UartMgr.uartPortCount) :
    Firmware.uartBytes p m = uartData p call := by
  obtain ⟨seq, hm, -, hcells⟩ := h
  have hcells := hcells hs
  cases call with
  | data chType chId payload payloadLen =>
    have hd : Router.IsUartData m.1 ↔ chType = VpChannelType.uartData.code := by
      rw [Router.IsUartData, hm]
      exact and_iff_left rfl
    have hid : m.1.chId = chId := by rw [hm]; rfl
    simp only [Firmware.uartBytes, uartData, hd, hid, hcells]
    rfl
  | rsp | evt => cases hq

theorem uartData_offer (p q : Fin UartMgr.uartPortCount) {chunk : List UInt8} (h : chunk.length ≤ 64) :
    uartData p (UartMgr.offer q chunk) = if q = p then chunk else [] := by
  have hlen : (UInt16.ofNat chunk.length).toNat = chunk.length := by
    rw [UInt16.toNat_ofNat']
    omega
  have hid : UInt8.ofNat q = UInt8.ofNat p ↔ q = p := by
    revert p q
    decide
  simp only [UartMgr.offer, uartData, true_and, hid, hlen]
  rw [Ptr.cells_some (le_refl _), take_length]

/-- The bytes a message hands to a port when it is dispatched. -/
def handedTo (p : Fin UartMgr.uartPortCount) (e : UsbRx.Delivery) : List UInt8 :=
  if Router.IsUartData e.2.hdr ∧ e.2.hdr.chId = UInt8.ofNat p then e.2.payload.cells e.2.payloadLen.toNat else []

theorem dispatch_no_data {β : Type} (P : Router.Platform UartHw.Hw β) (fw : Router.Fw UartHw.Hw β) (hdr : VpHdr)
    (payload : Ptr UInt8) (payloadLen : UInt16) :
    ∀ call ∈ (Router.dispatch P fw hdr payload payloadLen).2, call.queue ≠ .data := by
  intro call hc
  obtain ⟨hdata, hans⟩ := Router.dispatch_calls P fw hdr payload payloadLen
  by_cases hd : Router.IsUartData hdr
  · rw [hdata hd] at hc
    cases hc
  by_cases he : Router.Echoes hdr
  · rw [Router.dispatch_echo P fw payload payloadLen he, mem_singleton] at hc
    rw [hc]
    exact (by decide : UsbTx.Class.rsp ≠ .data)
  · obtain ⟨evts, status, rsp, rspLen, hevts, -, hcs⟩ := hans hd he
    rw [hcs] at hc
    rcases mem_append.mp hc with hc | hc
    · rw [hevts call hc]
      decide
    · rw [mem_singleton.mp hc]
      exact (by decide : UsbTx.Class.rsp ≠ .data)

section

variable {β : Type} (lib : AttLib β) (map : UartMgr.Map)

/-- A message leaves the receive ring of a port or empties it, and brings to
the transmit ring what it hands to the port. -/
theorem dispatch_rings (fw : Router.Fw UartHw.Hw β) (e : UsbRx.Delivery) (p : Fin UartMgr.uartPortCount) :
    let fw' := (Router.dispatch (platform lib map) fw e.2.hdr e.2.payload e.2.payloadLen).1
    ((fw'.uart.ports p).rxRb.toList <+ (fw.uart.ports p).rxRb.toList) ∧
      (fw'.uart.ports p).txRb.toList <+ (fw.uart.ports p).txRb.toList ++ handedTo p e := by
  rcases dispatch_cases (platform lib map) fw e.2.hdr e.2.payload e.2.payloadLen with hr | hr | ⟨hd, hr⟩ | hr
  · rw [hr]
    exact ⟨Sublist.refl _, sublist_append_left _ _⟩
  · rw [hr]
    obtain ⟨status, rsp, rspLen, -, hh⟩ := UartMgr.handleCtrl_handled (platform lib map).drv (platform lib map).map
      fw.uart e.2.hdr e.2.payload e.2.payloadLen
    obtain ⟨hrx, htx⟩ := handled_rings hh p
    exact ⟨hrx, htx.trans (sublist_append_left _ _)⟩
  · rw [hr]
    obtain ⟨hrx, htx⟩ := writeFromHost_rings (platform lib map).drv fw.uart e.2.hdr.chId e.2.payload e.2.payloadLen p
    refine ⟨by rw [hrx], ?_⟩
    simp only [handedTo, hd, true_and]
    exact htx
  · rw [hr]
    exact ⟨Sublist.refl _, sublist_append_left _ _⟩

theorem step_no_data {s : State β} (h : BleHost.Unused s.fw.ble) {i : Input} (hi : ∀ q, i ≠ .uartTurn q) :
    ∀ call ∈ calls (step lib map s i).2, call.queue ≠ .data := by
  obtain ⟨hgap, hgatt, hrssi⟩ := callback_events lib h
  -- a callback of the library queues events only
  have callback (s' : State β) {cs : List Enqueue} (hcs : ∀ call ∈ cs, call.queue = .evt) :
      ∀ call ∈ calls (s'.call cs).2, call.queue ≠ .data := by
    intro call hc
    rw [calls_call] at hc
    rw [hcs call hc]
    decide
  cases i with
  | usb i => exact forall_mem_nil _
  | uart u statr datar =>
    simp only [step]
    cases irqSends map s.fw.uart u statr datar with
    | none => exact forall_mem_nil _
    | some r => exact forall_mem_nil _
  | rxTurn =>
    simp only [step]
    rcases rxTurn_cases lib map s with ⟨-, he⟩ | ⟨byte, rb, -, ⟨-, he⟩ | ⟨d, -, he⟩⟩
    · rw [he]
      exact forall_mem_nil _
    · rw [he]
      exact forall_mem_nil _
    · rw [he]
      change ∀ call ∈ calls (State.call _ _).2, _
      rw [calls_call]
      exact dispatch_no_data _ _ _ _ _
  | uartTurn q => exact absurd rfl (hi q)
  | txProcess => exact forall_mem_nil _
  | gap evt => exact callback _ (hgap evt)
  | gattMsg msg => exact callback _ (hgatt msg)
  | rssi connHandle rssi => exact callback s (hrssi connHandle rssi)

theorem step_offers {s : State β} (h : BleHost.Unused s.fw.ble) (i : Input) :
    ∀ call ∈ calls (step lib map s i).2, call.queue = .data →
      ∃ q chunk, call = UartMgr.offer q chunk := by
  intro call hc hq
  by_cases hi : ∃ q, i = .uartTurn q
  · obtain ⟨q, rfl⟩ := hi
    rcases uartTurn_cases lib map s q with he | ⟨chunk, rest, f, -, -, -, -, he⟩
    · rw [he] at hc
      cases hc
    · rw [he, calls_call] at hc
      exact ⟨q, chunk, mem_singleton.mp hc⟩
  · exact absurd hq (step_no_data lib map h (fun q hq => hi ⟨q, hq⟩) call hc)

/-- One input: what is queued of a port's data leaves the front of its receive ring,
and only what comes on its line enters it. -/
theorem step_upstream {s : State β} (h : BleHost.Unused s.fw.ble) (i : Input) (p : Fin UartMgr.uartPortCount) :
    (calls (step lib map s i).2).flatMap (uartData p) ++ ((step lib map s i).1.fw.uart.ports p).rxRb.toList <+
      (s.fw.uart.ports p).rxRb.toList ++ i.arrived map p := by
  have hdata (hi : ∀ q, i ≠ .uartTurn q) : (calls (step lib map s i).2).flatMap (uartData p) = [] :=
    uartData_none (step_no_data lib map h hi)
  cases i with
  | usb i =>
    rw [hdata fun q => by simp]
    simp only [step, (usbIrq_same s i).2.1]
    exact sublist_append_left _ _
  | uart u statr datar =>
    rw [hdata fun q => by simp]
    exact (irqHandler_rings map s.fw.uart u statr datar p).1
  | rxTurn =>
    rw [hdata fun q => by simp]
    simp only [step]
    rcases rxTurn_cases lib map s with ⟨-, he⟩ | ⟨byte, rb, -, ⟨-, he⟩ | ⟨d, -, he⟩⟩
    · rw [he]
      exact sublist_append_left _ _
    · rw [he]
      exact sublist_append_left _ _
    · rw [he]
      exact (dispatch_rings lib map s.fw (s.rx.taken, d) p).1.trans (sublist_append_left _ _)
  | uartTurn q =>
    rcases uartTurn_cases lib map s q with he | ⟨chunk, rest, f, hring, hlen, hrest, -, he⟩
    · rw [he]
      exact sublist_append_left _ _
    · rw [he, calls_call, flatMap_cons, flatMap_nil, append_nil, uartData_offer p q hlen]
      change _ ++ ((s.fw.uart.modify q f).ports p).rxRb.toList <+ _
      by_cases hp : p = q
      · rw [hp, UartMgr.modify_self, hrest, if_pos rfl, hring]
        exact sublist_append_left _ _
      · rw [UartMgr.modify_of_ne _ _ hp, if_neg (Ne.symm hp)]
        exact sublist_append_left _ _
  | txProcess | gap evt | gattMsg msg | rssi connHandle rssi =>
    rw [hdata fun q => by simp]
    exact sublist_append_left _ _

theorem transmitted_uart (s : State β) (u : Fin 4) (statr datar : UInt16) :
    transmitted u (step lib map s (.uart u statr datar)).2 =
      (irqSends map s.fw.uart u statr datar).toList.map Prod.snd := by
  have hsends := irqSends_spec map s.fw.uart u statr datar
  simp only [step]
  cases hs : irqSends map s.fw.uart u statr datar with
  | none => rfl
  | some r =>
    rw [hs] at hsends
    simp [transmitted, hsends.1]

theorem transmitted_other (s : State β) {u : Fin 4} {i : Input} (hi : ∀ statr datar, i ≠ .uart u statr datar) :
    transmitted u (step lib map s i).2 = [] := by
  cases i with
  | uart v statr datar =>
    have hv : v ≠ u := fun hv => hi statr datar (by rw [hv])
    have hsends := irqSends_spec map s.fw.uart v statr datar
    simp only [step]
    cases hs : irqSends map s.fw.uart v statr datar with
    | none => rfl
    | some r =>
      rw [hs] at hsends
      simp [transmitted, hsends.1, hv]
  | rxTurn =>
    simp only [step]
    rcases rxTurn_cases lib map s with ⟨-, he⟩ | ⟨byte, rb, -, ⟨-, he⟩ | ⟨d, -, he⟩⟩ <;> rw [he] <;> rfl
  | uartTurn q =>
    rcases uartTurn_cases lib map s q with he | ⟨chunk, rest, f, -, -, -, -, he⟩ <;> rw [he] <;> rfl
  | usb i | txProcess | gap evt | gattMsg msg | rssi connHandle rssi => rfl

theorem step_silent (s : State β) (i : Input) {u : Fin 4} (hp : portOf map u = none) :
    transmitted u (step lib map s i).2 = [] := by
  by_cases hi : ∃ statr datar, i = .uart u statr datar
  · obtain ⟨statr, datar, rfl⟩ := hi
    rw [transmitted_uart]
    rcases irqHandler_cases map s.fw.uart u statr datar with ⟨-, hs⟩ | ⟨q, v, hq, -, -⟩
    · rw [hs]
      rfl
    · rw [hp] at hq
      cases hq
  · exact transmitted_other lib map s fun statr datar he => hi ⟨statr, datar, he⟩

/-- One input: what is sent on a port's USART leaves the front of the transmit
ring, and only what a message hands to the port enters it. -/
theorem step_downstream (s : State β) (i : Input) {u : Fin 4} {p : Fin UartMgr.uartPortCount}
    (hp : portOf map u = some p) :
    transmitted u (step lib map s i).2 ++ ((step lib map s i).1.fw.uart.ports p).txRb.toList <+
      (s.fw.uart.ports p).txRb.toList ++ (messages (step lib map s i).2).flatMap (handedTo p) := by
  have hother (hi : ∀ statr datar, i ≠ .uart u statr datar) : transmitted u (step lib map s i).2 = [] :=
    transmitted_other lib map s hi
  cases i with
  | usb i =>
    simp only [step, (usbIrq_same s i).2.1]
    exact sublist_append_left _ _
  | uart v statr datar =>
    have hring := (irqHandler_rings map s.fw.uart v statr datar p).2
    refine Sublist.trans ?_ (sublist_append_left _ _)
    by_cases hv : v = u
    · rw [hv, if_pos hp] at hring
      rw [hv, transmitted_uart]
      exact hring
    · rw [hother fun _ _ he => hv (Input.uart.inj he).1]
      exact (sublist_append_right _ _).trans hring
  | rxTurn =>
    rw [hother fun _ _ => by simp]
    simp only [step]
    rcases rxTurn_cases lib map s with ⟨-, he⟩ | ⟨byte, rb, -, ⟨-, he⟩ | ⟨d, -, he⟩⟩
    · rw [he]
      exact sublist_append_left _ _
    · rw [he]
      exact sublist_append_left _ _
    · rw [he]
      have hrings := (dispatch_rings lib map s.fw (s.rx.taken ++ [byte], d) p).2
      rw [← append_nil (handedTo p (s.rx.taken ++ [byte], d))] at hrings
      exact hrings
  | uartTurn q =>
    rw [hother fun _ _ => by simp]
    rcases uartTurn_cases lib map s q with he | ⟨chunk, rest, f, -, -, -, htx, he⟩
    · rw [he]
      exact sublist_append_left _ _
    · rw [he]
      change ((s.fw.uart.modify q f).ports p).txRb.toList <+ _
      by_cases hp : p = q
      · rw [hp, UartMgr.modify_self, htx]
        exact sublist_append_left _ _
      · rw [UartMgr.modify_of_ne _ _ hp]
        exact sublist_append_left _ _
  | txProcess | gap evt | gattMsg msg | rssi connHandle rssi =>
    rw [hother fun _ _ => by simp]
    exact sublist_append_left _ _

end

/-! ## Over every run -/

section

variable {β : Type} (lib : AttLib β) (map : UartMgr.Map) (hw : UartHw.Hw) (taskId : UInt8) (b : β)

theorem start_rings (p : Fin UartMgr.uartPortCount) :
    ((start lib map hw taskId b).fw.uart.ports p).rxRb.toList = [] ∧
      ((start lib map hw taskId b).fw.uart.ports p).txRb.toList = [] :=
  ⟨RingBuffer.toList_init .., RingBuffer.toList_init ..⟩

theorem calls_offers (is : List Input) :
    ∀ call ∈ calls (Mealy.outs (step lib map) (start lib map hw taskId b) is), call.queue = .data →
      ∃ q chunk, call = UartMgr.offer q chunk := by
  have hstep (s : State β) (tr : List Output) (i : Input)
      (h : BleHost.Unused s.fw.ble ∧ ∀ call ∈ calls tr, call.queue = .data → ∃ q chunk, call = UartMgr.offer q chunk) :
      BleHost.Unused (step lib map s i).1.fw.ble ∧
        ∀ call ∈ calls (tr ++ (step lib map s i).2), call.queue = .data → ∃ q chunk, call = UartMgr.offer q chunk := by
    refine ⟨unused_step lib map h.1 i, ?_⟩
    rw [calls_append]
    exact forall_mem_append.mpr ⟨h.2, step_offers lib map h.1 i⟩
  have hstart : BleHost.Unused (start lib map hw taskId b).fw.ble ∧
      ∀ call ∈ calls [], call.queue = .data → ∃ q chunk, call = UartMgr.offer q chunk :=
    ⟨BleHost.unused_init taskId b, forall_mem_nil _⟩
  exact (Mealy.history_run hstep hstart is).2

/-- **From the line to the host.** Over every run of the firmware, with as many
resets of the bus as there are: the bytes the host reads for a port in all
sessions are some of the bytes that came on the port's line, in order, whatever
messages and packets carry them. -/
theorem upstream_in_order (p : Fin UartMgr.uartPortCount) (is : List Input) :
    (allReads (Mealy.run (step lib map) (start lib map hw taskId b) is)).flatMap (uartBytes p) <+
      is.flatMap (Input.arrived map p) := by
  obtain ⟨s, hs⟩ : ∃ s, s = Mealy.run (step lib map) (start lib map hw taskId b) is := ⟨_, rfl⟩
  obtain ⟨tr, htr⟩ : ∃ tr, tr = Mealy.outs (step lib map) (start lib map hw taskId b) is := ⟨_, rfl⟩
  -- from the line into the calls
  have hcalls : (calls tr).flatMap (uartData p) <+ is.flatMap (Input.arrived map p) := by
    have hrun := Mealy.lossy_run (fun s : State β => (s.fw.uart.ports p).rxRb.toList)
      (fun _ i => Input.arrived map p i) (fun s i => (calls (step lib map s i).2).flatMap (uartData p))
      (I := fun s => BleHost.Unused s.fw.ble) (s := start lib map hw taskId b)
      (fun _ i h => unused_step lib map h i) (fun _ i h => step_upstream lib map h i p)
      (BleHost.unused_init taskId b) is
    simp only [calls, flatMap_assoc] at hrun
    rw [Mealy.readings_inputs (Input.arrived map p), Mealy.readings_outs, (start_rings lib map hw taskId b p).1,
      nil_append, ← htr] at hrun
    rw [calls, flatMap_assoc]
    exact (sublist_append_left _ _).trans hrun
  -- from the calls to the host: other messages carry no data
  have hconv : SublistForall₂ Conveys ((allReads s).filter (OfClass .data)) ((calls tr).filter (·.queue = .data)) := by
    rw [hs, htr]
    exact (onItsWay_run lib map hw taskId b is).conveyed .data
  have hsome : ∀ call ∈ (calls tr).filter (·.queue = .data), call.queue = .data ∧ call.payload.isSome := by
    intro call hc
    obtain ⟨hc, hq⟩ := mem_filter.mp hc
    obtain ⟨q, chunk, rfl⟩ := calls_offers lib map hw taskId b is call (htr ▸ hc) (of_decide_eq_true hq)
    exact ⟨rfl, rfl⟩
  have hread : ((allReads s).filter (OfClass .data)).flatMap (uartBytes p) = (allReads s).flatMap (uartBytes p) := by
    refine Lossy.flatMap_filter (fun m hm => if_neg fun hd => ?_) _
    rw [OfClass, hd.1.2] at hm
    cases hm
  have hcall : ((calls tr).filter (·.queue = .data)).flatMap (uartData p) <+ (calls tr).flatMap (uartData p) :=
    (filter_sublist ..).flatMap _
  rw [← hs, ← hread]
  refine Sublist.trans ?_ (hcall.trans hcalls)
  refine Lossy.flatMap_sublist (R := fun m call => uartBytes p m = uartData p call) ?_ ?_
  · intro m call h
    rw [h]
  · refine Lossy.mono ?_ hconv
    intro m call hc h
    obtain ⟨hq, hp⟩ := hsome call hc
    exact h.uartBytes hq hp p

/-- **From the host to the line.** Over every run of the firmware: the bytes
sent on a USART are some of those that the messages for its port hand over, in
order, and none are sent where the USART has no port. The messages are those
in the bytes taken, which are some of what the host delivered, in order; and
each hands over what it carries unless its payload length is beyond a frame. -/
theorem downstream_in_order (u : Fin 4) (is : List Input) :
    let s := Mealy.run (step lib map) (start lib map hw taskId b) is
    let tr := Mealy.outs (step lib map) (start lib map hw taskId b) is
    (transmitted u tr <+ (portOf map u).toList.flatMap fun p => (messages tr).flatMap (handedTo p)) ∧
      (messages tr).map (fun e => (e.2.hdr, e.2.body)) = UsbRx.reference s.rx.taken ∧
      (∀ e ∈ messages tr, ∀ p, handedTo p e = uartBytes p (e.2.hdr, e.2.body) ∨ 488 < e.2.hdr.payloadLen.toNat) ∧
      s.rx.taken <+ is.flatMap Input.delivered := by
  intro s tr
  have hparsed := parsed_run lib map hw taskId b is
  refine ⟨?_, hparsed.reference, ?_, (sublist_append_left _ _).trans (received_delivered lib map hw taskId b is)⟩
  · cases hp : portOf map u with
    | none =>
      have hsilent (s : State β) (is : List Input) : transmitted u (Mealy.outs (step lib map) s is) = [] := by
        induction is generalizing s with
        | nil => rfl
        | cons i is ih =>
          rw [Mealy.outs_cons, transmitted, flatMap_append]
          exact append_eq_nil_iff.mpr ⟨step_silent lib map s i hp, ih _⟩
      rw [hsilent]
      exact nil_sublist _
    | some p =>
      have hrun := Mealy.lossy_run (fun s : State β => (s.fw.uart.ports p).txRb.toList)
        (fun s i => (messages (step lib map s i).2).flatMap (handedTo p))
        (fun s i => transmitted u (step lib map s i).2)
        (I := fun _ => True) (s := start lib map hw taskId b)
        (fun _ _ _ => trivial) (fun s i _ => step_downstream lib map s i hp) trivial is
      simp only [messages, transmitted, flatMap_assoc] at hrun
      rw [Mealy.readings_outs, Mealy.readings_outs, (start_rings lib map hw taskId b p).2, nil_append] at hrun
      rw [Option.toList_some, flatMap_cons, flatMap_nil, append_nil, messages, flatMap_assoc]
      exact (sublist_append_left _ _).trans hrun
  · intro e he p
    by_cases hl : e.2.hdr.payloadLen.toNat ≤ 488
    · refine .inl ?_
      rw [handedTo, uartBytes, hparsed.payload_eq_body he hl]
    · exact .inr (not_le.mp hl)

end

end UsbMux.Firmware
