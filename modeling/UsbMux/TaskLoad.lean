/-
The load of the firmware: the bytes of EP3 and of the lines that it holds, the
frames that are queued and the packets that are staged. While the device is
configured the load goes up by what comes in only (`held_step`), and a turn of
a loop that finds something to do brings it down.
-/
import Mathlib.Algebra.BigOperators.Group.Finset.Piecewise
import Mathlib.Algebra.Order.BigOperators.Group.Finset
import UsbMux.DevControl
import UsbMux.InDrain
import UsbMux.TaskRuns
import UsbMux.UartLines

namespace UsbMux.AppTask

open Bits UsbDev UsbTx

/-! ## The load -/

/-- What the firmware holds: the bytes of EP3 and of the lines, the frames in
the order they are sent, and the packets of the staged frame. -/
structure Held where
  raw : List UInt8
  lines : Fin UartMgr.uartPortCount → List UInt8
  queued : List Frame
  packets : Nat

namespace Held

def bytes (h : Held) : Nat := h.raw.length + ∑ p, (h.lines p).length

/-- A frame takes a turn and eight packets, and a byte may fill all twelve slots of the queues. -/
def load (h : Held) : Nat := 109 * h.bytes + 9 * h.queued.length + h.packets

theorem load_lt {h h' : Held} (hb : h'.bytes < h.bytes) (hq : h'.queued.length ≤ 12) (hp : h'.packets = h.packets) :
    h'.load < h.load := by
  rw [load, load, hp]
  omega

theorem bytes_lt_raw {h h' : Held} (hr : h'.raw.length < h.raw.length)
    (hl : ∀ p, (h'.lines p).length ≤ (h.lines p).length) : h'.bytes < h.bytes :=
  Nat.add_lt_add_of_lt_of_le hr (Finset.sum_le_sum fun p _ => hl p)

theorem bytes_lt_line {h h' : Held} (hr : h'.raw.length ≤ h.raw.length)
    (hl : ∀ p, (h'.lines p).length ≤ (h.lines p).length) {p : Fin UartMgr.uartPortCount}
    (hp : (h'.lines p).length < (h.lines p).length) : h'.bytes < h.bytes :=
  Nat.add_lt_add_of_le_of_lt hr (Finset.sum_lt_sum (fun p _ => hl p) ⟨p, Finset.mem_univ p, hp⟩)

theorem load_eq_zero {h : Held} (h0 : h.load = 0) :
    h.raw = [] ∧ (∀ p, h.lines p = []) ∧ h.queued = [] ∧ h.packets = 0 := by
  rw [load, bytes] at h0
  refine ⟨List.length_eq_zero_iff.mp (by omega), fun p => ?_, List.length_eq_zero_iff.mp (by omega), by omega⟩
  have hsum : ∑ p, (h.lines p).length = 0 := by omega
  exact List.length_eq_zero_iff.mp (Finset.sum_eq_zero_iff.mp hsum p (Finset.mem_univ p))

end Held

section

variable {β : Type} (lib : AttLib β) (map : UartMgr.Map)

def held (fw : Firmware.State β) : Held :=
  ⟨waiting fw, fun p => (fw.fw.uart.ports p).rxRb.toList, backlog fw.tx, InPath.packetsLeft fw.dev⟩

theorem queued_le (fw : Firmware.State β) : (held fw).queued.length ≤ 12 := length_backlog_le fw.tx

/-! ## The firmware between steps -/

/-- What holds of the firmware in every state reached from hardware `h0`. -/
structure Sound (h0 : UartHw.Hw) (fw : Firmware.State β) : Prop where
  pipe : InPath.Sound fw.tx fw.dev
  ports : UartHw.Inv map h0 fw.fw.uart

theorem Sound.line_nil {h0 : UartHw.Hw} {fw : Firmware.State β} (h : Sound map h0 fw) {p : Fin UartMgr.uartPortCount}
    (ho : (fw.fw.uart.ports p).state ≠ .opened) : (held fw).lines p = [] := ((h.ports.port p).empty ho).1

/-- A turn of `UartMgr_Process` finds no bytes, or takes some from the ring of the port. -/
theorem uartTurn_held {h0 : UartHw.Hw} {fw : Firmware.State β} (h : Sound map h0 fw) (p : Fin UartMgr.uartPortCount) :
    ((held fw).lines p = [] ∧ Firmware.step lib map fw (.uartTurn p) = (fw, [])) ∨
    ∃ f call, (fw.fw.uart.ports p).state = .opened ∧
      UartHw.setup (f (fw.fw.uart.ports p)) = UartHw.setup (fw.fw.uart.ports p) ∧
      (f (fw.fw.uart.ports p)).rxRb.toList.length < ((held fw).lines p).length ∧
      Firmware.step lib map fw (.uartTurn p) =
        { fw with fw := { fw.fw with uart := fw.fw.uart.modify p f } }.call [call] := by
  by_cases ho : (fw.fw.uart.ports p).state = .opened
  · by_cases he : (fw.fw.uart.ports p).rxRb.toList = []
    · refine .inl ⟨he, ?_⟩
      simp only [Firmware.step, UartMgr.processPort_empty Firmware.offerTo ho he]
    · obtain ⟨rb, hrest, -, hr⟩ := UartMgr.processPort_offer Firmware.offerTo ho he (fw.tx, [])
      have hlt : rb.toList.length < (fw.fw.uart.ports p).rxRb.toList.length := by
        have := List.length_pos_iff.mpr he
        rw [hrest, List.length_drop]
        omega
      refine .inr ⟨fun port => { port with
        rxRb := rb
        dropRxBytes := if (Firmware.offerTo (fw.tx, [])
              (UartMgr.offer p ((fw.fw.uart.ports p).rxRb.toList.take 64))).2 then port.dropRxBytes
          else port.dropRxBytes + UInt32.ofNat ((fw.fw.uart.ports p).rxRb.toList.take 64).length },
        UartMgr.offer p ((fw.fw.uart.ports p).rxRb.toList.take 64), ho, rfl, hlt, ?_⟩
      simp only [Firmware.step, hr]
      rfl
  · refine .inl ⟨h.line_nil map ho, ?_⟩
    simp only [Firmware.step, UartMgr.processPort_not_opened Firmware.offerTo ho]

theorem usbIrq_dev (fw : Firmware.State β) (i : Irq) :
    (i = .ep2In ∧ armed fw.dev.regs.uep2TxCtrl = false ∧ Firmware.usbIrq fw i = fw) ∨
      (i = .ep2In → armed fw.dev.regs.uep2TxCtrl = true) ∧
        (Firmware.usbIrq fw i).dev = (interrupt fw.dev fw.rx.ctx i).1 := by
  cases i with
  | ep2In =>
    cases ha : armed fw.dev.regs.uep2TxCtrl with
    | false => exact .inl ⟨rfl, rfl, by simp only [Firmware.usbIrq, ha, Bool.false_eq_true, if_false]⟩
    | true => exact .inr ⟨fun _ => rfl, by simp only [Firmware.usbIrq, ha, if_true]⟩
  | busReset | setup | ep0In | ep0Out | ep1In | ep3Out => exact .inr ⟨by simp, rfl⟩

theorem Sound.pipe_step {h0 : UartHw.Hw} {fw : Firmware.State β} (h : Sound map h0 fw) (i : Firmware.Input) :
    InPath.Sound (Firmware.step lib map fw i).1.tx (Firmware.step lib map fw i).1.dev := by
  by_cases hi : i = .txProcess
  · rw [hi]
    exact h.pipe.process.1
  rw [(Firmware.step_calls lib map fw hi).1]
  refine InPath.Sound.enqueueAll ?_ _
  by_cases hu : ∃ j, i = .usb j
  · obtain ⟨j, rfl⟩ := hu
    simp only [Firmware.step]
    rcases usbIrq_dev fw j with ⟨-, -, he⟩ | ⟨ha, he⟩
    · rw [he]
      exact h.pipe
    · rw [he]
      exact h.pipe.interrupt fw.rx.ctx ha
  · rw [(Firmware.step_same lib map fw hi fun j hj => hu ⟨j, hj⟩).1]
    exact h.pipe

theorem Sound.ports_step {h0 : UartHw.Hw} {fw : Firmware.State β} (h : Sound map h0 fw) (i : Firmware.Input) :
    UartHw.Inv map h0 (Firmware.step lib map fw i).1.fw.uart := by
  cases i with
  | usb i =>
    simp only [Firmware.step, (Firmware.usbIrq_same fw i).2.1]
    exact h.ports
  | uart u statr datar => exact UartHw.inv_step h.ports (.irq u statr datar)
  | rxTurn =>
    simp only [Firmware.step]
    rcases Firmware.rxTurn_cases lib map fw with ⟨-, he⟩ | ⟨byte, rb, -, ⟨-, he⟩ | ⟨d, -, he⟩⟩
    · rw [he]
      exact h.ports
    · rw [he]
      exact h.ports
    · rw [he]
      change UartHw.Inv map h0
        (Router.dispatch (Firmware.platform lib map) fw.fw d.hdr d.payload d.payloadLen).1.uart
      rcases Firmware.dispatch_cases (Firmware.platform lib map) fw.fw d.hdr d.payload d.payloadLen with
        hr | hr | ⟨-, hr⟩ | hr
      · rw [hr]
        exact h.ports
      · rw [hr]
        exact UartHw.inv_step h.ports (.ctrl d.hdr d.payload d.payloadLen)
      · rw [hr]
        exact UartHw.inv_step h.ports (.write d.hdr.chId d.payload d.payloadLen)
      · rw [hr]
        exact h.ports
  | uartTurn p =>
    rcases uartTurn_held lib map h p with ⟨-, he⟩ | ⟨f, call, ho, hf, -, he⟩
    · rw [he]
      exact h.ports
    · rw [he]
      exact h.ports.modify_opened ho hf
  | txProcess | gap | gattMsg | rssi => exact h.ports

/-- **Every input** of the firmware, a reset of the bus included. -/
theorem Sound.step {h0 : UartHw.Hw} {fw : Firmware.State β} (h : Sound map h0 fw) (i : Firmware.Input) :
    Sound map h0 (Firmware.step lib map fw i).1 := ⟨h.pipe_step lib map i, h.ports_step lib map i⟩

theorem sound_start (hw : UartHw.Hw) (taskId : UInt8) (b : β) : Sound map hw (Firmware.start lib map hw taskId b) :=
  ⟨InPath.sound_init, UartHw.inv_init map hw⟩

/-! ## What an input does to the load -/

/-- No reset of the bus, and no SETUP that takes the configuration away. -/
def Steady : Firmware.Input → Prop
  | .usb .busReset => False
  | .usb (.setup packet) => ∃ p : SetupPkt, packet = p.bytes ∧ p.request ≠ .setConfiguration 0
  | _ => True

/-- A SETUP changes the configuration as the request in it says. -/
theorem configured_handleEp0Setup {d : UsbDev.Ctx} {p : SetupPkt} (hp : setupPkt d = p) :
    (handleEp0Setup d).configured =
      match p.request with
      | .setConfiguration value => value
      | _ => d.configured := by
  have hstart (d : UsbDev.Ctx) (data : Ptr UInt8) (len : UInt16) :
      (startEp0Data d data len).configured = d.configured := by
    simp only [startEp0Data, InPath.configured_continueEp0Tx]
    rfl
  simp only [handleEp0Setup, hp, SetupPkt.request]
  split
  · rfl
  simp only [handleStandardRequest]
  split
  · split
    · rfl
    · exact hstart ..
  split
  · exact InPath.configured_loadEp0Tx ..
  split
  · exact InPath.configured_loadEp0Tx ..
  split
  · exact hstart ..
  split
  · exact hstart ..
  · rfl

theorem isConfigured_interrupt {d : UsbDev.Ctx} (h : isConfigured d = true) (rx : UsbRx.Ctx) {i : Irq}
    (hi : Steady (.usb i)) : isConfigured (interrupt d rx i).1 = true := by
  by_cases hs : ∃ packet, i = .setup packet
  · obtain ⟨packet, rfl⟩ := hs
    obtain ⟨p, rfl, hp⟩ := hi
    have hconf := configured_handleEp0Setup (setupPkt_raise d p)
    rw [isConfigured, interrupt_setup]
    change ((handleEp0Setup (raise d (.setup p.bytes))).configured != 0) = true
    rw [hconf]
    split
    · next value hv => exact bne_iff_ne.mpr fun h0 => hp (h0 ▸ hv)
    · exact h
  · rw [not_exists] at hs
    have hr : i ≠ .busReset := fun hr => by
      subst hr
      exact hi
    rw [isConfigured, InPath.interrupt_configured d rx hr hs]
    exact h

/-- What an input may add to the load, and one: a byte that comes in, or the events of a callback. -/
def charge : Firmware.Input → Nat
  | .usb i => 110 * i.bytes.length
  | .uart _ statr _ => if statr &&& 0x0020 ≠ 0 then 110 else 0
  | .gap _ | .gattMsg _ | .rssi .. => 109
  | .rxTurn | .uartTurn _ | .txProcess => 0

structure Ready (h0 : UartHw.Hw) (fw : Firmware.State β) : Prop extends Sound map h0 fw where
  configured : isConfigured fw.dev = true

theorem Ready.step {h0 : UartHw.Hw} {fw : Firmware.State β} (h : Ready map h0 fw) {i : Firmware.Input}
    (hi : Steady i) : Ready map h0 (Firmware.step lib map fw i).1 := by
  refine ⟨h.toSound.step lib map i, ?_⟩
  by_cases ht : i = .txProcess
  · rw [ht]
    exact h.pipe.process.2.1.trans h.configured
  by_cases hu : ∃ j, i = .usb j
  · obtain ⟨j, rfl⟩ := hu
    simp only [Firmware.step]
    rcases usbIrq_dev fw j with ⟨-, -, he⟩ | ⟨-, he⟩
    · rw [he]
      exact h.configured
    · rw [he]
      exact isConfigured_interrupt h.configured fw.rx.ctx hi
  · rw [(Firmware.step_same lib map fw ht fun j hj => hu ⟨j, hj⟩).1]
    exact h.configured

/-- `h'` is `h`, or less than it, or more by less than what is paid. -/
def Within (paid : Nat) (h h' : Held) : Prop := h' = h ∨ h'.load < h.load ∨ (0 < paid ∧ h'.load < h.load + paid)

theorem within_arrived {h h' : Held} {n : Nat} (hn : 0 < n) (hb : h'.bytes ≤ h.bytes + n) (hq : h'.queued = h.queued)
    (hp : h'.packets = h.packets) : Within (110 * n) h h' := by
  refine .inr (.inr ⟨by omega, ?_⟩)
  rw [Held.load, Held.load, hq, hp]
  omega

theorem ep2In_held {fw : Firmware.State β} (hs : InPath.Sound fw.tx fw.dev) :
    (armed fw.dev.regs.uep2TxCtrl = false ∧ (Firmware.step lib map fw (.usb .ep2In)).1 = fw) ∨
      (held (Firmware.step lib map fw (.usb .ep2In)).1).load < (held fw).load := by
  rcases usbIrq_dev fw .ep2In with ⟨-, hna, he⟩ | ⟨ha, hdev⟩
  · exact .inl ⟨hna, he⟩
  · refine .inr ?_
    have hlt : (held (Firmware.usbIrq fw .ep2In)).packets < (held fw).packets := by
      simp only [held, hdev]
      exact hs.ep2In fw.rx.ctx (ha rfl)
    have hraw : waiting (Firmware.usbIrq fw .ep2In) = waiting fw := by
      obtain ⟨l, hl, hlen⟩ := waiting_step lib map fw (i := .usb .ep2In) nofun
      have hnil : l = [] := List.length_eq_zero_iff.mp (Nat.le_zero.mp hlen)
      rwa [hnil, List.append_nil] at hl
    obtain ⟨htx, hfw, -⟩ := Firmware.usbIrq_same fw .ep2In
    have hbytes : (held (Firmware.usbIrq fw .ep2In)).bytes = (held fw).bytes := by
      simp only [Held.bytes, held, hfw, hraw]
    have hqueued : (held (Firmware.usbIrq fw .ep2In)).queued = (held fw).queued := by simp only [held, htx]
    change (held (Firmware.usbIrq fw .ep2In)).load < (held fw).load
    rw [Held.load, Held.load, hbytes, hqueued]
    omega

theorem within_usb {fw : Firmware.State β} (hs : InPath.Sound fw.tx fw.dev) {i : Irq} (hr : i ≠ .busReset) :
    Within (charge (.usb i)) (held fw) (held (Firmware.step lib map fw (.usb i)).1) := by
  by_cases h2 : i = .ep2In
  · subst h2
    rcases ep2In_held lib map hs with ⟨-, he⟩ | hlt
    · exact .inl (congrArg held he)
    · exact .inr (.inl hlt)
  obtain ⟨l, hl, hlen⟩ := waiting_step lib map fw (i := .usb i) nofun
  have hlen : l.length ≤ i.bytes.length := hlen
  obtain ⟨htx, hfw, -⟩ := Firmware.usbIrq_same fw i
  have hdev : (Firmware.usbIrq fw i).dev = (interrupt fw.dev fw.rx.ctx i).1 :=
    (usbIrq_dev fw i).elim (fun h => absurd h.1 h2) And.right
  simp only [Firmware.step] at hl ⊢
  generalize Firmware.usbIrq fw i = fw' at hl htx hfw hdev
  have hqueued : (held fw').queued = (held fw).queued := by simp only [held, htx]
  have hpackets : (held fw').packets = (held fw).packets := by
    simp only [held, hdev]
    exact InPath.packetsLeft_congr (InPath.interrupt_ep2 fw.dev fw.rx.ctx hr h2)
  rcases Nat.eq_zero_or_pos i.bytes.length with h0 | hpos
  · refine .inl ?_
    have hnil : l = [] := List.length_eq_zero_iff.mp (Nat.le_zero.mp (h0 ▸ hlen))
    rw [hnil, List.append_nil] at hl
    simp only [held] at hpackets ⊢
    rw [hl, hpackets, hfw, htx]
  · have hbytes : (held fw').bytes = (held fw).bytes + l.length := by
      simp only [Held.bytes, held, hfw, hl, List.length_append]
      omega
    exact within_arrived hpos (by omega) hqueued hpackets

theorem arrived_le_one (u : Fin 4) (statr datar : UInt16) :
    ∑ p, (Firmware.Input.arrived map p (.uart u statr datar)).length ≤ 1 := by
  simp only [Firmware.Input.arrived]
  cases UartHw.findLogicPortByPhy map (UInt8.ofNat (u + 1)) with
  | none => simp
  | some q =>
    calc ∑ p, (if some q = some p ∧ statr &&& 0x0020 ≠ 0 then [(UartHw.usartReceiveData datar).toUInt8] else []).length
        ≤ ∑ p, if q = p then 1 else 0 := by
          refine Finset.sum_le_sum fun p _ => ?_
          by_cases hq : q = p
          · rw [if_pos hq]
            split <;> simp
          · rw [if_neg fun h => hq (Option.some.inj h.1), if_neg hq]
            exact Nat.le_refl 0
      _ ≤ 1 := by rw [Finset.sum_ite_eq, if_pos (Finset.mem_univ q)]

theorem within_uart (fw : Firmware.State β) (u : Fin 4) (statr datar : UInt16) :
    Within (charge (.uart u statr datar)) (held fw) (held (Firmware.step lib map fw (.uart u statr datar)).1) := by
  have hlines (p : Fin UartMgr.uartPortCount) :
      ((held (Firmware.step lib map fw (.uart u statr datar)).1).lines p).Sublist
        ((held fw).lines p ++ Firmware.Input.arrived map p (.uart u statr datar)) :=
    (Firmware.irqHandler_rings map fw.fw.uart u statr datar p).1
  generalize hfw : held (Firmware.step lib map fw (.uart u statr datar)).1 = h' at hlines
  have hraw : h'.raw = (held fw).raw := by rw [← hfw]; rfl
  have hqueued : h'.queued = (held fw).queued := by rw [← hfw]; rfl
  have hpackets : h'.packets = (held fw).packets := by rw [← hfw]; rfl
  rw [charge]
  split
  · refine within_arrived Nat.one_pos ?_ hqueued hpackets
    have hsum := Finset.sum_le_sum fun p (_ : p ∈ Finset.univ) => (hlines p).length_le
    simp only [List.length_append, Finset.sum_add_distrib] at hsum
    have hone := arrived_le_one map u statr datar
    rw [Held.bytes, Held.bytes, hraw]
    omega
  · next hs =>
    have hlines (p : Fin UartMgr.uartPortCount) : (h'.lines p).Sublist ((held fw).lines p) := by
      have := hlines p
      rwa [Firmware.Input.arrived, if_neg fun h => hs h.2, List.append_nil] at this
    by_cases hsame : ∀ p, (held fw).lines p = h'.lines p
    · refine .inl ?_
      have : h'.lines = (held fw).lines := (funext hsame).symm
      rw [← hfw] at this ⊢
      simp only [held] at this ⊢
      rw [this]
      rfl
    · rw [not_forall] at hsame
      obtain ⟨p, hp⟩ := hsame
      have hlt : (h'.lines p).length < ((held fw).lines p).length :=
        Nat.lt_of_le_of_ne (hlines p).length_le fun he => hp ((hlines p).eq_of_length he).symm
      refine .inr (.inl (Held.load_lt ?_ (hqueued ▸ queued_le fw) hpackets))
      exact Held.bytes_lt_line (Nat.le_of_eq (congrArg List.length hraw)) (fun p => (hlines p).length_le) hlt

theorem rxTurn_held (fw : Firmware.State β) :
    ((held fw).raw = [] ∧ (Firmware.step lib map fw .rxTurn).1 = fw) ∨
      ((held fw).raw ≠ [] ∧ (held (Firmware.step lib map fw .rxTurn).1).load < (held fw).load) := by
  have hraw : (held (Firmware.step lib map fw .rxTurn).1).raw = (held fw).raw.tail := waiting_rxTurn lib map fw
  have hpackets : (held (Firmware.step lib map fw .rxTurn).1).packets = (held fw).packets := by
    simp only [held, (Firmware.step_same lib map fw (i := .rxTurn) nofun nofun).1]
  have less (hne : (held fw).raw ≠ [])
      (hl : ∀ p, ((held (Firmware.step lib map fw .rxTurn).1).lines p).length ≤ ((held fw).lines p).length) :
      (held (Firmware.step lib map fw .rxTurn).1).load < (held fw).load := by
    refine Held.load_lt (Held.bytes_lt_raw ?_ hl) (queued_le _) hpackets
    have := List.length_pos_iff.mpr hne
    rw [hraw, List.length_tail]
    omega
  rcases Firmware.rxTurn_cases lib map fw with ⟨hring, he⟩ | ⟨byte, rb, hring, hcase⟩
  · exact .inl ⟨hring, congrArg Prod.fst he⟩
  · have hne : (held fw).raw ≠ [] := fun h => List.cons_ne_nil byte rb.toList (hring.symm.trans h)
    refine .inr ⟨hne, less hne fun p => ?_⟩
    rcases hcase with ⟨-, he⟩ | ⟨d, -, he⟩
    · simp only [Firmware.step, he]
      exact Nat.le_refl _
    · simp only [Firmware.step, he]
      exact (Firmware.dispatch_rings lib map fw.fw (fw.rx.taken, d) p).1.length_le

theorem uartTurn_load {h0 : UartHw.Hw} {fw : Firmware.State β} (h : Sound map h0 fw) (p : Fin UartMgr.uartPortCount) :
    ((held fw).lines p = [] ∧ (Firmware.step lib map fw (.uartTurn p)).1 = fw) ∨
      (held (Firmware.step lib map fw (.uartTurn p)).1).load < (held fw).load := by
  rcases uartTurn_held lib map h p with ⟨hnil, he⟩ | ⟨f, call, -, -, hlt, he⟩
  · exact .inl ⟨hnil, congrArg Prod.fst he⟩
  · refine .inr ?_
    rw [he]
    have hself : (fw.fw.uart.modify p f).ports p = f (fw.fw.uart.ports p) := UartMgr.modify_self ..
    refine Held.load_lt (Held.bytes_lt_line (Nat.le_refl _) (fun q => ?_) (p := p) ?_) (queued_le _) rfl
    · change ((fw.fw.uart.modify p f).ports q).rxRb.toList.length ≤ ((held fw).lines q).length
      by_cases hq : q = p
      · rw [hq, hself]
        exact hlt.le
      · rw [UartMgr.modify_of_ne _ _ hq]
        exact Nat.le_refl _
    · change ((fw.fw.uart.modify p f).ports p).rxRb.toList.length < ((held fw).lines p).length
      rw [hself]
      exact hlt

/-- `USBTX_Process` finds nothing queued or EP2 busy, or stages a frame. -/
theorem txProcess_held {h0 : UartHw.Hw} {fw : Firmware.State β} (h : Ready map h0 fw) :
    (((held fw).queued = [] ∨ 0 < (held fw).packets) ∧
        held (Firmware.step lib map fw .txProcess).1 = held fw) ∨
      (held (Firmware.step lib map fw .txProcess).1).load < (held fw).load := by
  obtain ⟨-, -, ⟨hb, -, he, hrest⟩ | ⟨f, hb, -, -, hle⟩⟩ := h.pipe.process
  · refine .inl ⟨?_, ?_⟩
    · rcases hrest with hconf | hact | hempty
      · exact absurd (hconf.symm.trans h.configured) (by decide)
      · refine .inr (InPath.packetsLeft_pos.mpr ?_)
        by_contra hna
        exact hact (h.pipe.free (Bool.eq_false_iff.mpr hna))
      · exact .inl hempty
    · simp only [Firmware.step, held]
      rw [hb, InPath.packetsLeft_congr he]
      rfl
  · refine .inr ?_
    have hq : (held fw).queued = f :: (held (Firmware.step lib map fw .txProcess).1).queued := hb
    have hp : (held (Firmware.step lib map fw .txProcess).1).packets ≤ 8 := hle
    have hbytes : (held (Firmware.step lib map fw .txProcess).1).bytes = (held fw).bytes := rfl
    rw [Held.load, Held.load, hbytes, hq, List.length_cons]
    omega

/-- **Every input** leaves what is held as it is, or takes from it, or is paid for. -/
theorem held_step {h0 : UartHw.Hw} {fw : Firmware.State β} (h : Ready map h0 fw) {i : Firmware.Input} (hi : Steady i) :
    Within (charge i) (held fw) (held (Firmware.step lib map fw i).1) := by
  -- the calls of a callback fill the queues at most
  have callback {fw' : Firmware.State β} (hr : waiting fw' = waiting fw) (hu : fw'.fw.uart = fw.fw.uart)
      (hd : fw'.dev = fw.dev) : Within 109 (held fw) (held fw') := by
    refine .inr (.inr ⟨by decide, ?_⟩)
    have hbytes : (held fw').bytes = (held fw).bytes := by simp only [Held.bytes, held, hr, hu]
    have hpackets : (held fw').packets = (held fw).packets := by simp only [held, hd]
    have := queued_le fw'
    rw [Held.load, Held.load, hbytes, hpackets]
    omega
  cases i with
  | usb i => exact within_usb lib map h.pipe fun hr => by subst hr; exact hi
  | uart u statr datar => exact within_uart lib map fw u statr datar
  | rxTurn =>
    rcases rxTurn_held lib map fw with ⟨-, he⟩ | ⟨-, hlt⟩
    · exact .inl (congrArg held he)
    · exact .inr (.inl hlt)
  | uartTurn p =>
    rcases uartTurn_load lib map h.toSound p with ⟨-, he⟩ | hlt
    · exact .inl (congrArg held he)
    · exact .inr (.inl hlt)
  | txProcess =>
    rcases txProcess_held lib map h with ⟨-, he⟩ | hlt
    · exact .inl he
    · exact .inr (.inl hlt)
  | gap evt => exact callback rfl rfl rfl
  | gattMsg msg => exact callback rfl rfl rfl
  | rssi connHandle rssi => exact callback rfl rfl rfl

end

end UsbMux.AppTask
