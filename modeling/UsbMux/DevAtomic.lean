/-
`USBDEV_SendFrame` and `USBDEV_SendHint` piece by piece, as the foreground runs
them, with the interrupts of the controller between any two pieces. The locals
of `USBDEV_LoadEp2Chunk` and the value of `UEP2_TX_CTRL` on its way through a
register are part of the state.

A call that no reset of the bus falls into is one step (`sends_atomic`). The
other results about the driver take it for one.
-/
import UsbMux.DevFacts
import UsbMux.Lib.Atomic

namespace UsbMux.UsbDev

/-! ## Interrupts and the IN data endpoints -/

/-- The two IN data endpoints replaced. -/
def putIn (d : Ctx) (e1 : Ep1In) (e2 : Ep2In) : Ctx :=
  { d with
    ep1TxBusy := e1.busy
    ep1Dma := e1.dma
    ep2TxActive := e2.active
    ep2TxLen := e2.len
    ep2TxOffset := e2.offset
    ep2TxStage := e2.stage
    ep2Dma := e2.dma
    regs := { d.regs with
      uep1TxLen := e1.txLen
      uep1TxCtrl := e1.txCtrl
      uep2TxLen := e2.txLen
      uep2TxCtrl := e2.txCtrl } }

section

variable (d : Ctx) (e1 : Ep1In) (e2 : Ep2In)

theorem loadEp0Tx_putIn (data : Ptr UInt8) (len : UInt16) :
    loadEp0Tx (putIn d e1 e2) data len = putIn (loadEp0Tx d data len) e1 e2 := by
  simp only [loadEp0Tx]
  split <;> rfl

theorem continueEp0Tx_putIn : continueEp0Tx (putIn d e1 e2) = putIn (continueEp0Tx d) e1 e2 := by
  simp only [continueEp0Tx]
  have h : (putIn d e1 e2).ep0 = d.ep0 := rfl
  rw [h]
  split
  · exact loadEp0Tx_putIn ..
  · rw [loadEp0Tx_putIn]
    rfl

theorem startEp0Data_putIn (data : Ptr UInt8) (len : UInt16) :
    startEp0Data (putIn d e1 e2) data len = putIn (startEp0Data d data len) e1 e2 :=
  continueEp0Tx_putIn
    (setEp0Ctrl { d with ep0 := { d.ep0 with data := data, remaining := len } } uepTResNak uepRResAck) e1 e2

theorem handleStandardRequest_putIn (setup : SetupPkt) :
    handleStandardRequest (putIn d e1 e2) setup = putIn (handleStandardRequest d setup) e1 e2 := by
  simp only [handleStandardRequest]
  split
  · split
    · rfl
    · exact startEp0Data_putIn ..
  split
  · exact loadEp0Tx_putIn
      { d with ep0 := { d.ep0 with pendingAddress := (setup.wValue &&& usbAddrMask.toUInt16).toUInt8 } } e1 e2 _ _
  split
  · exact loadEp0Tx_putIn { d with configured := (setup.wValue &&& 0xFF).toUInt8 } e1 e2 _ _
  split
  · exact startEp0Data_putIn { d with ep0Dma := d.ep0Dma.put 0 d.configured } e1 e2 _ _
  split
  · exact startEp0Data_putIn { d with ep0Dma := (d.ep0Dma.put 0 0).put 1 0 } e1 e2 _ _
  · rfl

theorem handleEp0Setup_putIn : handleEp0Setup (putIn d e1 e2) = putIn (handleEp0Setup d) e1 e2 := by
  have hsetup : setupPkt (putIn d e1 e2) = setupPkt d := rfl
  simp only [handleEp0Setup, hsetup]
  split
  · rfl
  · exact handleStandardRequest_putIn
      (setEp0Ctrl { d with ep0 := { d.ep0 with data := none, remaining := 0 } } uepTResNak uepRResAck) e1 e2 _

/-- The first half of `USBDEV_HandleEp0In`. -/
def applyAddress (d : Ctx) : Ctx :=
  if d.ep0.pendingAddress ≠ addressPendingNone then
    { d with
      regs := { d.regs with devAddr := d.ep0.pendingAddress }
      ep0 := { d.ep0 with pendingAddress := addressPendingNone } }
  else d

theorem applyAddress_putIn : applyAddress (putIn d e1 e2) = putIn (applyAddress d) e1 e2 := by
  have h : (putIn d e1 e2).ep0 = d.ep0 := rfl
  simp only [applyAddress, h]
  split <;> rfl

theorem handleEp0In_putIn : handleEp0In (putIn d e1 e2) = putIn (handleEp0In d) e1 e2 := by
  have hin (d : Ctx) : handleEp0In d = if (applyAddress d).ep0.remaining > 0 then
      continueEp0Tx { applyAddress d with
        regs := { (applyAddress d).regs with uep0TxCtrl := (applyAddress d).regs.uep0TxCtrl ^^^ uepTTog } }
    else { applyAddress d with
      regs := { (applyAddress d).regs with uep0TxLen := 0, uep0TxCtrl := uepTResNak, uep0RxCtrl := uepRResAck } } := rfl
  rw [hin, hin, applyAddress_putIn]
  generalize applyAddress d = d'
  have h : (putIn d' e1 e2).ep0 = d'.ep0 := rfl
  rw [h]
  split
  · exact continueEp0Tx_putIn { d' with regs := { d'.regs with uep0TxCtrl := d'.regs.uep0TxCtrl ^^^ uepTTog } } e1 e2
  · rfl

/-- Control transfers and OUT packets do the same whatever the IN data endpoints hold. -/
theorem interrupt_putIn (rx : UsbRx.Ctx) {i : Irq} (hr : i ≠ .busReset) (h1 : i ≠ .ep1In) (h2 : i ≠ .ep2In) :
    interrupt (putIn d e1 e2) rx i = (putIn (interrupt d rx i).1 e1 e2, (interrupt d rx i).2) := by
  cases i with
  | busReset => exact absurd rfl hr
  | ep1In => exact absurd rfl h1
  | ep2In => exact absurd rfl h2
  | setup packet =>
    rw [interrupt_setup, interrupt_setup]
    have hraise : raise (putIn d e1 e2) (.setup packet) = putIn (raise d (.setup packet)) e1 e2 := rfl
    rw [hraise, handleEp0Setup_putIn]
    rfl
  | ep0In =>
    rw [interrupt_ep0In, interrupt_ep0In]
    have hraise : raise (putIn d e1 e2) .ep0In = putIn (raise d .ep0In) e1 e2 := rfl
    rw [hraise, handleEp0In_putIn]
    rfl
  | ep0Out data =>
    rw [interrupt_ep0Out, interrupt_ep0Out]
    rfl
  | ep3Out data pid =>
    rw [interrupt_ep3Out, interrupt_ep3Out]
    rfl

end

/-- Any interrupt but a reset and one of EP2 keeps EP2, and does the same whatever EP2 holds. -/
theorem interrupt_ep2 (d : Ctx) (rx : UsbRx.Ctx) {i : Irq} (hr : i ≠ .busReset) (h2 : i ≠ .ep2In) :
    ep2In (interrupt d rx i).1 = ep2In d ∧ ∀ e2, interrupt (putIn d (ep1In d) e2) rx i =
      (putIn (interrupt d rx i).1 (ep1In (interrupt d rx i).1) e2, (interrupt d rx i).2) := by
  by_cases h1 : i = .ep1In
  · rw [h1]
    refine ⟨(ep_ep1In d rx).2, fun e2 => ?_⟩
    rw [interrupt_ep1In, interrupt_ep1In]
    rfl
  · obtain ⟨hs1, hs2⟩ := sameIn_interrupt d rx hr h1 h2
    exact ⟨hs2, fun e2 => hs1.symm ▸ interrupt_putIn d (ep1In d) e2 rx hr h1 h2⟩

/-- And one of EP1 keeps EP1, and does the same whatever that holds. -/
theorem interrupt_ep1 (d : Ctx) (rx : UsbRx.Ctx) {i : Irq} (hr : i ≠ .busReset) (h1 : i ≠ .ep1In) :
    ep1In (interrupt d rx i).1 = ep1In d ∧ ∀ e1, interrupt (putIn d e1 (ep2In d)) rx i =
      (putIn (interrupt d rx i).1 e1 (ep2In (interrupt d rx i).1), (interrupt d rx i).2) := by
  by_cases h2 : i = .ep2In
  · have hin (d : Ctx) : ep1In (handleEp2In d) = ep1In d := by
      simp only [handleEp2In]
      split <;> rfl
    rw [h2]
    refine ⟨by rw [interrupt_ep2In]; exact hin (raise d .ep2In), fun e1 => ?_⟩
    rw [interrupt_ep2In, interrupt_ep2In]
    have hput : handleEp2In (raise (putIn d e1 (ep2In d)) .ep2In) =
        putIn (handleEp2In (raise d .ep2In)) e1 (ep2In (handleEp2In (raise d .ep2In))) := by
      have ho : (raise (putIn d e1 (ep2In d)) .ep2In).ep2TxOffset = (raise d .ep2In).ep2TxOffset := rfl
      have hl : (raise (putIn d e1 (ep2In d)) .ep2In).ep2TxLen = (raise d .ep2In).ep2TxLen := rfl
      simp only [handleEp2In, ho, hl]
      split <;> rfl
    rw [hput]
    rfl
  · obtain ⟨hs1, hs2⟩ := sameIn_interrupt d rx hr h1 h2
    exact ⟨hs1, fun e1 => hs2.symm ▸ interrupt_putIn d e1 (ep2In d) rx hr h1 h2⟩

/-! ## The pieces -/

/-- The driver and the receive path, the local `chunk_len` of
`USBDEV_LoadEp2Chunk` and the register `UEP2_TX_CTRL` goes through. -/
structure Cpu where
  dev : Ctx
  rx : UsbRx.Ctx
  chunkLen : UInt16
  ctrl : UInt8

inductive Call
  | frame (data : Ptr UInt8) (len : UInt16)
  | hint (hint : VpIrqHint)

/-- The statements of the two senders, in order. -/
inductive Piece
  | writeStage (data : List UInt8)
  | setLen (len : UInt16)
  | clearOffset
  | setActive
  | takeChunkLen
  | writeDma
  | moveOffset
  | setTxLen
  | readCtrl
  | writeCtrl
  | writeHint (hint : VpIrqHint)
  | setBusy
  | setHintLen
  | armHint
deriving DecidableEq

namespace Piece

/-- Of `USBDEV_SendHint`. -/
def isHint : Piece → Bool
  | .writeHint _ | .setBusy | .setHintLen | .armHint => true
  | _ => false

def run (s : Cpu) : Piece → Cpu
  | .writeStage data => { s with dev := { s.dev with ep2TxStage := s.dev.ep2TxStage.write 0 data } }
  | .setLen len => { s with dev := { s.dev with ep2TxLen := len } }
  | .clearOffset => { s with dev := { s.dev with ep2TxOffset := 0 } }
  | .setActive => { s with dev := { s.dev with ep2TxActive := 1 } }
  | .takeChunkLen =>
    let chunkLen := s.dev.ep2TxLen - s.dev.ep2TxOffset
    { s with chunkLen := if chunkLen > UInt16.ofNat ep2Size then UInt16.ofNat ep2Size else chunkLen }
  | .writeDma =>
    { s with dev := { s.dev with
      ep2Dma := s.dev.ep2Dma.write 0 (s.dev.ep2TxStage.slice s.dev.ep2TxOffset.toNat s.chunkLen.toNat) } }
  | .moveOffset => { s with dev := { s.dev with ep2TxOffset := s.dev.ep2TxOffset + s.chunkLen } }
  | .setTxLen => { s with dev := { s.dev with regs := { s.dev.regs with uep2TxLen := s.chunkLen } } }
  | .readCtrl => { s with ctrl := s.dev.regs.uep2TxCtrl }
  | .writeCtrl => { s with dev := { s.dev with
      regs := { s.dev.regs with uep2TxCtrl := (s.ctrl &&& ~~~uepTResMask) ||| uepTResAck } } }
  | .writeHint hint => { s with dev := { s.dev with ep1Dma := s.dev.ep1Dma.write 0 hint.bytes } }
  | .setBusy => { s with dev := { s.dev with ep1TxBusy := 1 } }
  | .setHintLen => { s with dev := { s.dev with regs := { s.dev.regs with uep1TxLen := 8 } } }
  | .armHint => { s with dev := { s.dev with regs := { s.dev.regs with uep1TxCtrl := uepTResAck } } }

end Piece

/-- `USBDEV_LoadEp2Chunk` in pieces. -/
def loadEp2ChunkPieces : List Piece := [.takeChunkLen, .writeDma, .moveOffset, .setTxLen, .readCtrl, .writeCtrl]

def framePieces (data : List UInt8) (len : UInt16) : List Piece :=
  [.writeStage data, .setLen len, .clearOffset, .setActive] ++ loadEp2ChunkPieces

def hintPieces (hint : VpIrqHint) : List Piece := [.writeHint hint, .setBusy, .setHintLen, .armHint]

/-- A call that is refused has no pieces. -/
def Call.pieces (s : Cpu) : Call → List Piece
  | .frame data len =>
    if data.isNone ∨ len = 0 ∨ len > UInt16.ofNat appUsbMaxFrameLen ∨ canSendFrame s.dev = false then []
    else framePieces (data.cells len.toNat) len
  | .hint h => if canSendHint s.dev = false then [] else hintPieces h

/-- The host can acknowledge a packet only where the endpoint is armed. -/
def acknowledges (d : Ctx) : Irq → Bool
  | .ep1In => armed d.regs.uep1TxCtrl
  | .ep2In => armed d.regs.uep2TxCtrl
  | _ => true

def sends : Atomic.System Cpu Irq Call Piece where
  interrupt s i :=
    if acknowledges s.dev i then
      let r := interrupt s.dev s.rx i
      { s with dev := r.1, rx := r.2 }
    else s
  pieces := Call.pieces
  piece := Piece.run

/-- The machine of interrupts and whole calls. -/
def callStep : Mealy.Step (Ctx × UsbRx.Ctx) (Atomic.Act Irq Call) Empty
  | (d, rx), .interrupt i => (if acknowledges d i then interrupt d rx i else (d, rx), [])
  | (d, rx), .call (.frame data len) => (((sendFrame d data len).1, rx), [])
  | (d, rx), .call (.hint hint) => (((sendHint d hint).1, rx), [])

theorem run_loadEp2ChunkPieces (s : Cpu) : (loadEp2ChunkPieces.foldl Piece.run s).dev = loadEp2Chunk s.dev ∧
    (loadEp2ChunkPieces.foldl Piece.run s).rx = s.rx := by
  simp only [loadEp2ChunkPieces, List.foldl_cons, List.foldl_nil, Piece.run, loadEp2Chunk, and_self]

theorem run_framePieces (s : Cpu) {data : Ptr UInt8} {len : UInt16}
    (h : ¬(data.isNone ∨ len = 0 ∨ len > UInt16.ofNat appUsbMaxFrameLen ∨ canSendFrame s.dev = false)) :
    let s' := (framePieces (data.cells len.toNat) len).foldl Piece.run s
    s'.dev = (sendFrame s.dev data len).1 ∧ s'.rx = s.rx := by
  dsimp only
  rw [framePieces, List.foldl_append, (run_loadEp2ChunkPieces _).1, (run_loadEp2ChunkPieces _).2, sendFrame, if_neg h]
  exact ⟨rfl, rfl⟩

theorem run_hintPieces (s : Cpu) (hint : VpIrqHint) (h : ¬canSendHint s.dev = false) :
    let s' := (hintPieces hint).foldl Piece.run s
    s'.dev = (sendHint s.dev hint).1 ∧ s'.rx = s.rx := by
  rw [sendHint, if_neg h]
  exact ⟨rfl, rfl⟩

/-- The pieces of a call together are the function they are pieces of. -/
theorem whole_step (s : Cpu) (a : Atomic.Act Irq Call) :
    let s' := (Atomic.whole sends s a).1
    (s'.dev, s'.rx) = (callStep (s.dev, s.rx) a).1 := by
  cases a with
  | interrupt i =>
    simp only [Atomic.whole, sends, callStep]
    split <;> rfl
  | call c =>
    cases c with
    | frame data len =>
      simp only [Atomic.whole, sends, callStep, Call.pieces]
      split
      · next hr =>
        rw [sendFrame, if_pos hr]
        rfl
      · next hr =>
        obtain ⟨hdev, hrx⟩ := run_framePieces s hr
        rw [hdev, hrx]
    | hint hint =>
      simp only [Atomic.whole, sends, callStep, Call.pieces]
      split
      · next hr =>
        rw [sendHint, if_pos hr]
        rfl
      · next hr =>
        obtain ⟨hdev, hrx⟩ := run_hintPieces s hint hr
        rw [hdev, hrx]

/-! ## Moving interrupts past pieces -/

/-- The interrupts that can come before or after a piece. -/
def moves : Irq → Piece → Bool
  | .busReset, _ => false
  | .ep1In, m => !m.isHint
  | .ep2In, m => m.isHint
  | _, _ => true

/-- A piece of `USBDEV_SendFrame` works on EP2 and the locals. -/
theorem run_frame {m : Piece} (hm : m.isHint = false) :
    ∃ f : Ep2In → UInt16 → UInt8 → Ep2In × UInt16 × UInt8, ∀ s : Cpu,
      let r := f (ep2In s.dev) s.chunkLen s.ctrl
      m.run s = ⟨putIn s.dev (ep1In s.dev) r.1, s.rx, r.2.1, r.2.2⟩ := by
  cases m with
  | writeHint | setBusy | setHintLen | armHint => cases hm
  | writeStage data => exact ⟨fun e c r => ({ e with stage := e.stage.write 0 data }, c, r), fun _ => rfl⟩
  | setLen len => exact ⟨fun e c r => ({ e with len := len }, c, r), fun _ => rfl⟩
  | clearOffset => exact ⟨fun e c r => ({ e with offset := 0 }, c, r), fun _ => rfl⟩
  | setActive => exact ⟨fun e c r => ({ e with active := 1 }, c, r), fun _ => rfl⟩
  | takeChunkLen =>
    refine ⟨fun e _ r => ?_, fun _ => ?_⟩
    · exact (e, if e.len - e.offset > UInt16.ofNat ep2Size then UInt16.ofNat ep2Size else e.len - e.offset, r)
    · rfl
  | writeDma =>
    exact ⟨fun e c r => ({ e with dma := e.dma.write 0 (e.stage.slice e.offset.toNat c.toNat) }, c, r), fun _ => rfl⟩
  | moveOffset => exact ⟨fun e c r => ({ e with offset := e.offset + c }, c, r), fun _ => rfl⟩
  | setTxLen => exact ⟨fun e c r => ({ e with txLen := c }, c, r), fun _ => rfl⟩
  | readCtrl => exact ⟨fun e c _ => (e, c, e.txCtrl), fun _ => rfl⟩
  | writeCtrl => exact ⟨fun e c r => ({ e with txCtrl := (r &&& ~~~uepTResMask) ||| uepTResAck }, c, r), fun _ => rfl⟩

theorem run_hint {m : Piece} (hm : m.isHint = true) :
    ∃ f : Ep1In → Ep1In, ∀ s : Cpu, m.run s = { s with dev := putIn s.dev (f (ep1In s.dev)) (ep2In s.dev) } := by
  cases m with
  | writeHint hint => exact ⟨fun e => { e with dma := e.dma.write 0 hint.bytes }, fun _ => rfl⟩
  | setBusy => exact ⟨fun e => { e with busy := 1 }, fun _ => rfl⟩
  | setHintLen => exact ⟨fun e => { e with txLen := 8 }, fun _ => rfl⟩
  | armHint => exact ⟨fun e => { e with txCtrl := uepTResAck }, fun _ => rfl⟩
  | writeStage | setLen | clearOffset | setActive | takeChunkLen | writeDma | moveOffset | setTxLen | readCtrl
  | writeCtrl => cases hm

theorem moves_frame {i : Irq} (hr : i ≠ .busReset) (h2 : i ≠ .ep2In) {m : Piece} (hm : m.isHint = false) :
    Atomic.Moves sends i m := by
  obtain ⟨f, hf⟩ := run_frame hm
  intro s
  obtain ⟨hkeep, hput⟩ := interrupt_ep2 s.dev s.rx hr h2
  have hack : acknowledges (m.run s).dev i = acknowledges s.dev i := by
    rw [hf s]
    cases i with
    | ep2In => exact absurd rfl h2
    | busReset | setup | ep0In | ep0Out | ep1In | ep3Out => rfl
  simp only [sends, hack]
  split
  · rw [hf s, hf]
    simp only [hput, hkeep]
  · rfl

theorem moves_hint {i : Irq} (hr : i ≠ .busReset) (h1 : i ≠ .ep1In) {m : Piece} (hm : m.isHint = true) :
    Atomic.Moves sends i m := by
  obtain ⟨f, hf⟩ := run_hint hm
  intro s
  obtain ⟨hkeep, hput⟩ := interrupt_ep1 s.dev s.rx hr h1
  have hack : acknowledges (m.run s).dev i = acknowledges s.dev i := by
    rw [hf s]
    cases i with
    | ep1In => exact absurd rfl h1
    | busReset | setup | ep0In | ep0Out | ep2In | ep3Out => rfl
  simp only [sends, hack]
  split
  · rw [hf s, hf]
    simp only [hput, hkeep]
  · rfl

theorem moves_sound (i : Irq) (m : Piece) (h : moves i m = true) : Atomic.Moves sends i m := by
  cases hm : m.isHint with
  | false =>
    refine moves_frame ?_ ?_ hm
    · rintro rfl
      cases h
    · rintro rfl
      exact absurd (h.symm.trans hm) (by decide)
  | true =>
    refine moves_hint ?_ ?_ hm
    · rintro rfl
      cases h
    · rintro rfl
      rw [moves, hm] at h
      cases h

/-! ## An endpoint is armed when its sender is done -/

/-- What is left of a call is the end of one of the senders. -/
def Shape (ms : List Piece) : Prop := (∃ data len, ms <:+ framePieces data len) ∨ ∃ hint, ms <:+ hintPieces hint

/-- An endpoint that is armed has its flag set, and no piece of its sender is
left; what is left of a sender that has its flag not set will set it. -/
structure Guarded (s : Cpu × List Piece) : Prop where
  shape : Shape s.2
  frame : armed s.1.dev.regs.uep2TxCtrl → s.1.dev.ep2TxActive ≠ 0 ∧ ∀ m ∈ s.2, m.isHint = true
  active : (∃ m ∈ s.2, m.isHint = false) → .setActive ∈ s.2 ∨ s.1.dev.ep2TxActive ≠ 0
  hint : armed s.1.dev.regs.uep1TxCtrl → s.1.dev.ep1TxBusy ≠ 0 ∧ ∀ m ∈ s.2, m.isHint = false
  busy : (∃ m ∈ s.2, m.isHint = true) → .setBusy ∈ s.2 ∨ s.1.dev.ep1TxBusy ≠ 0

/-- No reset of the bus falls into a call. -/
def NoResetInside (s : Cpu × List Piece) : Atomic.Input Irq Call → Prop
  | .interrupt .busReset => s.2 = []
  | _ => True

/-- An interrupt that does not move past what is left of the call does not come there. -/
theorem Guarded.quiet {s : Cpu × List Piece} (h : Guarded s) {i : Irq} (hp : NoResetInside s (.interrupt i))
    (hm : s.2.all (moves i) = false) : sends.interrupt s.1 i = s.1 := by
  obtain ⟨m, hmem, hmv⟩ := List.all_eq_false.mp hm
  have silent (ha : acknowledges s.1.dev i = false) : sends.interrupt s.1 i = s.1 := by
    simp only [sends, ha, Bool.false_eq_true, if_false]
  cases i with
  | busReset =>
    rw [show s.2 = [] from hp] at hmem
    cases hmem
  | ep1In =>
    refine silent ?_
    rw [acknowledges, Bool.eq_false_iff]
    intro ha
    have := (h.hint ha).2 m hmem
    simp [moves, this] at hmv
  | ep2In =>
    refine silent ?_
    rw [acknowledges, Bool.eq_false_iff]
    intro ha
    exact hmv ((h.frame ha).2 m hmem)
  | setup | ep0In | ep0Out | ep3Out => exact absurd rfl hmv

theorem Shape.tail {m : Piece} {ms : List Piece} (h : Shape (m :: ms)) : Shape ms := by
  have hms : ms <:+ m :: ms := List.suffix_cons m ms
  rcases h with ⟨data, len, h⟩ | ⟨hint, h⟩
  · exact .inl ⟨data, len, hms.trans h⟩
  · exact .inr ⟨hint, hms.trans h⟩

theorem Shape.last {m : Piece} {ms : List Piece} (h : Shape (m :: ms)) (hm : m = .writeCtrl ∨ m = .armHint) :
    ms = [] := by
  rcases h with ⟨data, len, h⟩ | ⟨hint, h⟩
  · rcases hm with rfl | rfl
    · simpa [framePieces, loadEp2ChunkPieces, List.suffix_cons_iff] using h
    · simp [framePieces, loadEp2ChunkPieces, List.suffix_cons_iff] at h
  · rcases hm with rfl | rfl
    · simp [hintPieces, List.suffix_cons_iff] at h
    · simpa [hintPieces, List.suffix_cons_iff] using h

theorem isHint_framePieces (data : List UInt8) (len : UInt16) : ∀ m ∈ framePieces data len, m.isHint = false := by
  simp [framePieces, loadEp2ChunkPieces, Piece.isHint]

theorem isHint_hintPieces (hint : VpIrqHint) : ∀ m ∈ hintPieces hint, m.isHint = true := by
  simp [hintPieces, Piece.isHint]

theorem Shape.isHint {m : Piece} {ms : List Piece} (h : Shape (m :: ms)) : ∀ m' ∈ ms, m'.isHint = m.isHint := by
  intro m' hm'
  rcases h with ⟨data, len, h⟩ | ⟨hint, h⟩
  · rw [isHint_framePieces data len m' (h.subset (List.mem_cons_of_mem _ hm')),
      isHint_framePieces data len m (h.subset List.mem_cons_self)]
  · rw [isHint_hintPieces hint m' (h.subset (List.mem_cons_of_mem _ hm')),
      isHint_hintPieces hint m (h.subset List.mem_cons_self)]

theorem Guarded.tick_frame {s : Cpu} {m : Piece} {ms : List Piece} (h : Guarded (s, m :: ms)) (hm : m.isHint = false) :
    Guarded (m.run s, ms) := by
  have hkind : ∀ m' ∈ ms, m'.isHint = false := fun m' hm' => (h.shape.isHint m' hm').trans hm
  have hunarmed : ¬ armed s.dev.regs.uep2TxCtrl := fun ha =>
    absurd ((h.frame ha).2 m List.mem_cons_self) (by rw [hm]; decide)
  have hep1 : ep1In (m.run s).dev = ep1In s.dev := by
    obtain ⟨f, hf⟩ := run_frame hm
    rw [hf s]
    rfl
  have hactive := h.active ⟨m, List.mem_cons_self, hm⟩
  refine ⟨h.shape.tail, fun ha => ?_, fun _ => ?_, fun ha => ?_, ?_⟩
  · -- only the last piece arms EP2, with the flag set by then
    have hlast : m = .writeCtrl := by
      cases m with
      | writeCtrl => rfl
      | writeHint | setBusy | setHintLen | armHint => cases hm
      | writeStage | setLen | clearOffset | setActive | takeChunkLen | writeDma | moveOffset | setTxLen | readCtrl =>
        exact absurd ha hunarmed
    have hnil : ms = [] := h.shape.last (.inl hlast)
    rw [hlast, hnil] at hactive ⊢
    refine ⟨?_, List.forall_mem_nil _⟩
    simpa [Piece.run] using hactive
  · cases m with
    | setActive => exact .inr (show (1 : UInt8) ≠ 0 by decide)
    | writeHint | setBusy | setHintLen | armHint => cases hm
    | writeStage | setLen | clearOffset | takeChunkLen | writeDma | moveOffset | setTxLen | readCtrl | writeCtrl =>
      simpa [Piece.run] using hactive
  · have h1 : (m.run s).dev.regs.uep1TxCtrl = s.dev.regs.uep1TxCtrl := congrArg Ep1In.txCtrl hep1
    have h2 : (m.run s).dev.ep1TxBusy = s.dev.ep1TxBusy := congrArg Ep1In.busy hep1
    rw [h1] at ha
    refine ⟨?_, hkind⟩
    rw [h2]
    exact (h.hint ha).1
  · rintro ⟨m', hm', hh⟩
    exact absurd (hh.symm.trans (hkind m' hm')) (by decide)

theorem Guarded.tick_hint {s : Cpu} {m : Piece} {ms : List Piece} (h : Guarded (s, m :: ms)) (hm : m.isHint = true) :
    Guarded (m.run s, ms) := by
  have hkind : ∀ m' ∈ ms, m'.isHint = true := fun m' hm' => (h.shape.isHint m' hm').trans hm
  have hunarmed : ¬ armed s.dev.regs.uep1TxCtrl := fun ha =>
    absurd ((h.hint ha).2 m List.mem_cons_self) (by rw [hm]; decide)
  have hep2 : ep2In (m.run s).dev = ep2In s.dev := by
    obtain ⟨f, hf⟩ := run_hint hm
    rw [hf s]
    rfl
  have hbusy := h.busy ⟨m, List.mem_cons_self, hm⟩
  refine ⟨h.shape.tail, fun ha => ?_, ?_, fun ha => ?_, fun _ => ?_⟩
  · have h1 : (m.run s).dev.regs.uep2TxCtrl = s.dev.regs.uep2TxCtrl := congrArg Ep2In.txCtrl hep2
    have h2 : (m.run s).dev.ep2TxActive = s.dev.ep2TxActive := congrArg Ep2In.active hep2
    rw [h1] at ha
    refine ⟨?_, hkind⟩
    rw [h2]
    exact (h.frame ha).1
  · rintro ⟨m', hm', hh⟩
    exact absurd (hh.symm.trans (hkind m' hm')) (by decide)
  · -- only the last piece arms EP1, with the flag set by then
    have hlast : m = .armHint := by
      cases m with
      | armHint => rfl
      | writeHint | setBusy | setHintLen => exact absurd ha hunarmed
      | writeStage | setLen | clearOffset | setActive | takeChunkLen | writeDma | moveOffset | setTxLen | readCtrl
      | writeCtrl => cases hm
    have hnil : ms = [] := h.shape.last (.inr hlast)
    rw [hlast, hnil] at hbusy ⊢
    refine ⟨?_, List.forall_mem_nil _⟩
    simpa [Piece.run] using hbusy
  · cases m with
    | setBusy => exact .inr (show (1 : UInt8) ≠ 0 by decide)
    | writeHint | setHintLen | armHint => simpa [Piece.run] using hbusy
    | writeStage | setLen | clearOffset | setActive | takeChunkLen | writeDma | moveOffset | setTxLen | readCtrl
    | writeCtrl => cases hm

theorem Guarded.call {s : Cpu} (h : Guarded (s, [])) (c : Call) : Guarded (s, c.pieces s) := by
  cases c with
  | frame data len =>
    simp only [Call.pieces]
    split
    · exact h
    · next hr =>
      -- accepted: EP2 was idle
      have hidle : s.dev.ep2TxActive = 0 := by
        simp only [not_or, Bool.not_eq_false, canSendFrame, Bool.and_eq_true, beq_iff_eq] at hr
        exact hr.2.2.2.2
      refine ⟨.inl ⟨_, _, List.suffix_refl _⟩, fun ha => absurd hidle (h.frame ha).1, fun _ => .inl ?_, fun ha => ?_,
        ?_⟩
      · simp [framePieces]
      · exact ⟨(h.hint ha).1, isHint_framePieces _ _⟩
      · rintro ⟨m, hm, hh⟩
        exact absurd (hh.symm.trans (isHint_framePieces _ _ m hm)) (by decide)
  | hint hint =>
    simp only [Call.pieces]
    split
    · exact h
    · next hr =>
      have hidle : s.dev.ep1TxBusy = 0 := by
        simp only [Bool.not_eq_false, canSendHint, Bool.and_eq_true, beq_iff_eq] at hr
        exact hr.2
      refine ⟨.inr ⟨_, List.suffix_refl _⟩, fun ha => ?_, ?_, fun ha => absurd hidle (h.hint ha).1, fun _ => .inl ?_⟩
      · exact ⟨(h.frame ha).1, isHint_hintPieces _⟩
      · rintro ⟨m, hm, hh⟩
        exact absurd (hh.symm.trans (isHint_hintPieces _ m hm)) (by decide)
      · simp [hintPieces]

/-- The two flags and the control registers after an interrupt. -/
theorem Guarded.interrupt {s : Cpu} {ms : List Piece} (h : Guarded (s, ms)) {i : Irq}
    (hp : NoResetInside (s, ms) (.interrupt i)) : Guarded (sends.interrupt s i, ms) := by
  simp only [sends]
  split
  · next ha =>
    -- an interrupt that leaves both endpoints alone
    have other (hr : i ≠ .busReset) (h1 : i ≠ .ep1In) (h2 : i ≠ .ep2In) :
        Guarded ({ s with dev := (UsbDev.interrupt s.dev s.rx i).1, rx := (UsbDev.interrupt s.dev s.rx i).2 }, ms) := by
      obtain ⟨hs1, hs2⟩ := sameIn_interrupt s.dev s.rx hr h1 h2
      have hc1 := congrArg Ep1In.txCtrl hs1
      have hb1 := congrArg Ep1In.busy hs1
      have hc2 := congrArg Ep2In.txCtrl hs2
      have ha2 := congrArg Ep2In.active hs2
      simp only [ep1In, ep2In] at hc1 hb1 hc2 ha2
      exact ⟨h.shape, by simpa only [hc2, ha2] using h.frame, by simpa only [ha2] using h.active,
        by simpa only [hc1, hb1] using h.hint, by simpa only [hb1] using h.busy⟩
    cases i with
    | setup | ep0In | ep0Out | ep3Out => exact other nofun nofun nofun
    | busReset =>
      rw [show ms = [] from hp] at h ⊢
      obtain ⟨h1, h2⟩ := ep_busReset s.dev s.rx
      have hc1 := congrArg Ep1In.txCtrl h1
      have hc2 := congrArg Ep2In.txCtrl h2
      simp only [ep1In, ep2In] at hc1 hc2
      refine ⟨h.shape, fun ha => ?_, by simp, fun ha => ?_, by simp⟩
      · rw [hc2] at ha
        exact absurd ha (by decide)
      · rw [hc1] at ha
        exact absurd ha (by decide)
    | ep1In =>
      obtain ⟨h1, h2⟩ := ep_ep1In s.dev s.rx
      have hc1 := congrArg Ep1In.txCtrl h1
      have hc2 := congrArg Ep2In.txCtrl h2
      have ha2 := congrArg Ep2In.active h2
      simp only [ep1In, ep2In] at hc1 hc2 ha2
      refine ⟨h.shape, by simpa only [hc2, ha2] using h.frame, by simpa only [ha2] using h.active, fun ha => ?_, ?_⟩
      · rw [hc1] at ha
        exact absurd ha (by decide)
      · rintro ⟨m, hm, hh⟩
        exact absurd (hh.symm.trans ((h.hint ha).2 m hm)) (by decide)
    | ep2In =>
      obtain ⟨h1, -⟩ := interrupt_ep1 s.dev s.rx (i := .ep2In) nofun nofun
      have hc1 := congrArg Ep1In.txCtrl h1
      have hb1 := congrArg Ep1In.busy h1
      simp only [ep1In] at hc1 hb1
      obtain ⟨hact, hhint⟩ := h.frame ha
      refine ⟨h.shape, fun ha' => ⟨?_, hhint⟩, ?_, by simpa only [hc1, hb1] using h.hint,
        by simpa only [hb1] using h.busy⟩
      · rcases ep_ep2In s.dev s.rx with ⟨-, d', -, -, -, hd', he⟩ | ⟨-, hidle, -⟩
        · have := congrArg Ep2In.active he
          simp only [ep2In] at this
          rw [this]
          exact hd'.symm ▸ hact
        · exact absurd (ha'.symm.trans hidle) (by decide)
      · rintro ⟨m, hm, hh⟩
        exact absurd (hh.symm.trans (hhint m hm)) (by decide)
  · exact h

/-- **Every input** but a reset inside a call keeps the endpoints guarded. -/
theorem guarded_step (s : Cpu × List Piece) (i : Atomic.Input Irq Call) (hp : NoResetInside s i) (h : Guarded s) :
    Guarded (Atomic.step sends s i).1 := by
  obtain ⟨s, ms⟩ := s
  cases i with
  | interrupt j => exact h.interrupt hp
  | call c =>
    cases ms with
    | nil => exact h.call c
    | cons m ms => exact h
  | tick =>
    cases ms with
    | nil => exact h
    | cons m ms =>
      cases hm : m.isHint with
      | false => exact h.tick_frame hm
      | true => exact h.tick_hint hm

/-- After initialisation, whatever the locals hold. -/
def Cpu.start (rx : UsbRx.Ctx) (chunkLen : UInt16) (ctrl : UInt8) : Cpu := ⟨UsbDev.init, rx, chunkLen, ctrl⟩

theorem guarded_start (rx : UsbRx.Ctx) (chunkLen : UInt16) (ctrl : UInt8) :
    Guarded (Cpu.start rx chunkLen ctrl, []) where
  shape := .inl ⟨[], 0, List.nil_suffix⟩
  frame ha := absurd ha (show ¬ armed UsbDev.init.regs.uep2TxCtrl = true by decide)
  active := by simp
  hint ha := absurd ha (show ¬ armed UsbDev.init.regs.uep1TxCtrl = true by decide)
  busy := by simp

/-- The inputs of the machine of whole calls: the calls that are made, where they are
made, and the interrupts, but those of an endpoint whose sender is under way. -/
def acts (s : Cpu × List Piece) (is : List (Atomic.Input Irq Call)) : List (Atomic.Act Irq Call) :=
  Mealy.readings (Atomic.step sends) (fun s i => (Atomic.taken moves s i).toList) s is

/-- **Sending is one step.** Over every run of the senders piece by piece, with
interrupts between any two pieces and no reset of the bus inside a call:
driver and receive path are, once the call under way is brought to its end, where the
machine of whole calls is after the same calls and interrupts. -/
theorem sends_atomic (rx : UsbRx.Ctx) (chunkLen : UInt16) (ctrl : UInt8) (is : List (Atomic.Input Irq Call))
    (h : Mealy.Along (Atomic.step sends) NoResetInside (Cpu.start rx chunkLen ctrl, []) is) :
    let s := Atomic.finish sends (Mealy.run (Atomic.step sends) (Cpu.start rx chunkLen ctrl, []) is)
    (s.dev, s.rx) = Mealy.run callStep (UsbDev.init, rx) (acts (Cpu.start rx chunkLen ctrl, []) is) := by
  intro s
  have hfinish : s = Mealy.run (Atomic.whole sends) (Cpu.start rx chunkLen ctrl)
      (acts (Cpu.start rx chunkLen ctrl, []) is) :=
    Atomic.finish_run moves_sound (I := Guarded) guarded_step (fun _ _ hp hg hm => hg.quiet hp hm)
      (guarded_start rx chunkLen ctrl) h
  have hone (s : Cpu) (t : Ctx × UsbRx.Ctx) (a : Atomic.Act Irq Call) (hst : (s.dev, s.rx) = t) :
      ((Atomic.whole sends s a).1.dev, (Atomic.whole sends s a).1.rx) = (callStep t (id a)).1 ∧
        (Atomic.whole sends s a).2 = (callStep t (id a)).2 := by
    rw [← hst]
    exact ⟨whole_step s a, Subsingleton.elim _ _⟩
  have hsim := (Mealy.sim_run (R := fun (s : Cpu) t => (s.dev, s.rx) = t) hone
    (s := Cpu.start rx chunkLen ctrl) rfl (acts (Cpu.start rx chunkLen ctrl, []) is)).1
  rw [List.map_id] at hsim
  rw [hfinish]
  exact hsim

theorem sends_atomic_interrupted :
    let is : List (Atomic.Input Irq Call) :=
      [.interrupt (.setup [0x00, 0x09, 0x01, 0x00, 0x00, 0x00, 0x00, 0x00]), .call (.frame (some [7, 8]) 2), .tick,
        .interrupt (.ep3Out ⟨[5], by decide⟩ false), .tick]
    let s := Atomic.finish sends (Mealy.run (Atomic.step sends) (Cpu.start UsbRx.init 0 0, []) is)
    (s.dev, s.rx) = Mealy.run callStep (UsbDev.init, UsbRx.init) (acts (Cpu.start UsbRx.init 0 0, []) is) :=
  sends_atomic UsbRx.init 0 0 _ ⟨trivial, trivial, trivial, trivial, trivial, trivial⟩

theorem configured_run (s : Cpu) (ms : List Piece) : (ms.foldl Piece.run s).dev.configured = s.dev.configured := by
  induction ms generalizing s with
  | nil => rfl
  | cons m ms ih =>
    rw [List.foldl_cons, ih]
    cases m <;> rfl

/-- A reset inside `USBDEV_SendFrame` does not stop it: it ends with EP2 armed
on a device that is not configured. A whole call before the reset leaves EP2
not armed (`ep_busReset`), and after it the call is refused. -/
theorem reset_inside (s : Cpu) {data : List UInt8} {len : UInt16} {ms : List Piece} (h : ms <:+ framePieces data len)
    (hne : ms ≠ []) :
    let s' := Atomic.finish sends (sends.interrupt s .busReset, ms)
    armed s'.dev.regs.uep2TxCtrl = true ∧ isConfigured s'.dev = false := by
  obtain ⟨pre, rfl⟩ : ∃ pre, ms = pre ++ [.writeCtrl] := by
    obtain ⟨t, ht⟩ := h
    obtain ⟨pre, last, rfl⟩ := List.eq_nil_or_concat ms |>.resolve_left hne
    have hlast : (framePieces data len).getLast? = some last := by rw [← ht]; simp
    exact ⟨pre, by rw [← Option.some.inj hlast]; simp [List.concat_eq_append]; rfl⟩
  have hreset : (sends.interrupt s .busReset).dev = (interrupt s.dev s.rx .busReset).1 := rfl
  constructor
  · have hfin : Atomic.finish sends (sends.interrupt s .busReset, pre ++ [.writeCtrl]) =
        Piece.run (pre.foldl Piece.run (sends.interrupt s .busReset)) .writeCtrl := List.foldl_append ..
    rw [hfin]
    change armed (((pre.foldl Piece.run (sends.interrupt s .busReset)).ctrl &&& ~~~uepTResMask) ||| uepTResAck) = true
    generalize (pre.foldl Piece.run (sends.interrupt s .busReset)).ctrl = ctrl
    obtain ⟨v⟩ := ctrl
    revert v
    decide
  · have hconf : (Atomic.finish sends (sends.interrupt s .busReset, pre ++ [.writeCtrl])).dev.configured = 0 := by
      rw [Atomic.finish]
      refine (configured_run _ _).trans ?_
      rw [hreset, interrupt_busReset]
      rfl
    rw [isConfigured, hconf]
    rfl

end UsbMux.UsbDev
