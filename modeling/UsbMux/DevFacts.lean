/-
What each interrupt does to the parts of the driver's state the data paths
use: one equation for each cause (`interrupt_*`), from which the receive ring
and the two IN endpoints are read off.
-/
import UsbMux.DevLl

namespace UsbMux.UsbDev

/-! ## One equation for each cause -/

theorem interrupt_busReset (d : Ctx) (rx : UsbRx.Ctx) :
    interrupt d rx .busReset = (clearFlag (resetDataEndpoints (raise d .busReset)) uifBusRst, rx) := by
  have h : (raise d .busReset).regs.intFg = uifBusRst := rfl
  simp +decide only [interrupt, irqHandler, h, if_true, if_false]

theorem irqHandler_transfer {d : Ctx} {rx : UsbRx.Ctx} (h : d.regs.intFg = uifTransfer) :
    irqHandler d rx = (clearFlag (handleTransfer d rx).1 uifTransfer, (handleTransfer d rx).2) := by
  simp +decide only [irqHandler, h, if_true, if_false]

theorem interrupt_transfer {d : Ctx} {i : Irq} (rx : UsbRx.Ctx) (h : (raise d i).regs.intFg = uifTransfer) :
    interrupt d rx i = (clearFlag (handleTransfer (raise d i) rx).1 uifTransfer,
      (handleTransfer (raise d i) rx).2) := by
  rw [interrupt, irqHandler_transfer h]

theorem interrupt_setup (d : Ctx) (rx : UsbRx.Ctx) (packet : List UInt8) :
    interrupt d rx (.setup packet) =
      (clearFlag (handleEp0Setup (raise d (.setup packet))) uifTransfer, rx) := by
  rw [interrupt_transfer rx rfl]
  simp +decide only [handleTransfer, raise, Regs.transfer, if_true, if_false]

theorem interrupt_ep0In (d : Ctx) (rx : UsbRx.Ctx) :
    interrupt d rx .ep0In = (clearFlag (handleEp0In (raise d .ep0In)) uifTransfer, rx) := by
  rw [interrupt_transfer rx rfl]
  simp +decide only [handleTransfer, raise, Regs.transfer, if_true, if_false]

theorem interrupt_ep0Out (d : Ctx) (rx : UsbRx.Ctx) (data : List UInt8) :
    interrupt d rx (.ep0Out data) = (clearFlag { raise d (.ep0Out data) with
      regs := { (raise d (.ep0Out data)).regs with uep0RxCtrl := uepRResAck } } uifTransfer, rx) := by
  rw [interrupt_transfer rx rfl]
  simp +decide only [handleTransfer, raise, Regs.transfer, if_true, if_false]

theorem interrupt_ep1In (d : Ctx) (rx : UsbRx.Ctx) :
    interrupt d rx .ep1In = (clearFlag (handleEp1In (raise d .ep1In)) uifTransfer, rx) := by
  rw [interrupt_transfer rx rfl]
  simp +decide only [handleTransfer, raise, Regs.transfer, if_true, if_false]

theorem interrupt_ep2In (d : Ctx) (rx : UsbRx.Ctx) :
    interrupt d rx .ep2In = (clearFlag (handleEp2In (raise d .ep2In)) uifTransfer, rx) := by
  rw [interrupt_transfer rx rfl]
  simp +decide only [handleTransfer, raise, Regs.transfer, if_true, if_false]

theorem interrupt_ep3Out (d : Ctx) (rx : UsbRx.Ctx) (data : Packet) (pid : Bool) :
    interrupt d rx (.ep3Out data pid) =
      (clearFlag (handleEp3Out (raise d (.ep3Out data pid)) rx).1 uifTransfer,
        (handleEp3Out (raise d (.ep3Out data pid)) rx).2) := by
  have hst : (raise d (.ep3Out data pid)).regs.intSt =
      (if pidOf d.regs.uep3RxCtrl == pid then uisTogOk else 0) ||| uisTokenOut ||| 3 := rfl
  -- with `TOG_OK` or without it, token and endpoint are the same
  have ht : handleTransfer (raise d (.ep3Out data pid)) rx = handleEp3Out (raise d (.ep3Out data pid)) rx := by
    cases hok : pidOf d.regs.uep3RxCtrl == pid <;> rw [hok] at hst <;>
      simp +decide only [handleTransfer, hst, if_true, if_false]
  rw [interrupt_transfer rx rfl, ht]

/-! ## The receive ring -/

/-- The bytes an interrupt delivers to the receive ring. -/
def Irq.bytes : Irq → List UInt8
  | .ep3Out data _ => data.1
  | _ => []

theorem Irq.length_bytes (i : Irq) : i.bytes.length ≤ 64 := by
  cases i with
  | ep3Out data pid => exact data.2
  | _ => exact Nat.zero_le _

/-- What an interrupt does to the receive path: it pushes the packet an EP3
OUT transfer delivered, whatever its PID, and nothing otherwise. -/
theorem interrupt_rx (d : Ctx) (rx : UsbRx.Ctx) (i : Irq) :
    (interrupt d rx i).2 = UsbRx.pushBytes rx (some i.bytes) (UInt16.ofNat i.bytes.length) := by
  have quiet : UsbRx.pushBytes rx (some []) (UInt16.ofNat ([] : List UInt8).length) = rx := by
    simp [UsbRx.pushBytes]
  cases i with
  | ep3Out data pid =>
    obtain ⟨data, hl⟩ := data
    have h64 : data.length ≤ 64 := hl
    have hn : (UInt16.ofNat data.length).toNat = data.length := by simp; omega
    have hrx : ep3RxLen (raise d (.ep3Out ⟨data, hl⟩ pid)) = UInt16.ofNat data.length := by
      have h32 : (UInt32.ofNat data.length).toUInt16 = UInt16.ofNat data.length := by
        rw [← UInt16.toNat_inj]; simp
      simp only [ep3RxLen, raise, Regs.transfer, h32]
      refine if_neg ?_
      rw [gt_iff_lt, UInt16.lt_iff_toNat_lt, hn]
      exact Nat.not_lt.mpr hl
    have hdma : (raise d (.ep3Out ⟨data, hl⟩ pid)).ep3Dma.toList.take data.length = data :=
      d.ep3Dma.take_write rfl hl
    rw [interrupt_ep3Out]
    simp only [handleEp3Out, hrx, Irq.bytes, UsbRx.pushBytes, RingBuffer.write, Option.isNone_some, hn]
    rw [Ptr.cells_some (by simpa using hl), Ptr.cells_some le_rfl, hdma, List.take_length]
  | busReset => rw [interrupt_busReset]; exact quiet.symm
  | setup packet => rw [interrupt_setup]; exact quiet.symm
  | ep0In => rw [interrupt_ep0In]; exact quiet.symm
  | ep0Out data => rw [interrupt_ep0Out]; exact quiet.symm
  | ep1In => rw [interrupt_ep1In]; exact quiet.symm
  | ep2In => rw [interrupt_ep2In]; exact quiet.symm

/-! ## The IN data endpoints -/

/-- What the driver and the controller keep about EP1. -/
structure Ep1In where
  busy : UInt8
  dma : Block UInt8 ep1Size
  txLen : UInt16
  txCtrl : UInt8

/-- What the driver and the controller keep about EP2. -/
structure Ep2In where
  active : UInt8
  len : UInt16
  offset : UInt16
  stage : Block UInt8 appUsbMaxFrameLen
  dma : Block UInt8 ep2Size
  txLen : UInt16
  txCtrl : UInt8

def ep1In (d : Ctx) : Ep1In := ⟨d.ep1TxBusy, d.ep1Dma, d.regs.uep1TxLen, d.regs.uep1TxCtrl⟩

def ep2In (d : Ctx) : Ep2In :=
  ⟨d.ep2TxActive, d.ep2TxLen, d.ep2TxOffset, d.ep2TxStage, d.ep2Dma, d.regs.uep2TxLen, d.regs.uep2TxCtrl⟩

/-- `d'` differs from `d` in nothing the two IN data endpoints use. -/
def SameIn (d' d : Ctx) : Prop := ep1In d' = ep1In d ∧ ep2In d' = ep2In d

theorem SameIn.refl (d : Ctx) : SameIn d d := ⟨rfl, rfl⟩

theorem SameIn.trans {d d' d'' : Ctx} (h : SameIn d'' d') (h' : SameIn d' d) : SameIn d'' d :=
  ⟨h.1.trans h'.1, h.2.trans h'.2⟩

theorem sameIn_clearFlag (d : Ctx) (flag : UInt8) : SameIn (clearFlag d flag) d := ⟨rfl, rfl⟩

theorem sameIn_loadEp0Tx (d : Ctx) (data : Ptr UInt8) (len : UInt16) : SameIn (loadEp0Tx d data len) d := by
  simp only [loadEp0Tx]
  split <;> exact ⟨rfl, rfl⟩

theorem sameIn_continueEp0Tx (d : Ctx) : SameIn (continueEp0Tx d) d := by
  simp only [continueEp0Tx]
  split
  · exact sameIn_loadEp0Tx ..
  · exact SameIn.trans ⟨rfl, rfl⟩ (sameIn_loadEp0Tx ..)

theorem sameIn_startEp0Data (d : Ctx) (data : Ptr UInt8) (len : UInt16) :
    SameIn (startEp0Data d data len) d :=
  (sameIn_continueEp0Tx _).trans ⟨rfl, rfl⟩

theorem sameIn_handleStandardRequest (d : Ctx) (setup : SetupPkt) : SameIn (handleStandardRequest d setup) d := by
  simp only [handleStandardRequest]
  split
  · split
    · exact ⟨rfl, rfl⟩
    · exact sameIn_startEp0Data ..
  split
  · exact (sameIn_loadEp0Tx ..).trans ⟨rfl, rfl⟩
  split
  · exact (sameIn_loadEp0Tx ..).trans ⟨rfl, rfl⟩
  split
  · exact (sameIn_startEp0Data ..).trans ⟨rfl, rfl⟩
  split
  · exact (sameIn_startEp0Data ..).trans ⟨rfl, rfl⟩
  · exact ⟨rfl, rfl⟩

theorem sameIn_handleEp0Setup (d : Ctx) : SameIn (handleEp0Setup d) d := by
  simp only [handleEp0Setup]
  split
  · exact ⟨rfl, rfl⟩
  · exact (sameIn_handleStandardRequest ..).trans ⟨rfl, rfl⟩

theorem sameIn_handleEp0In (d : Ctx) : SameIn (handleEp0In d) d := by
  simp only [handleEp0In]
  split <;> split
  · exact (sameIn_continueEp0Tx _).trans ⟨rfl, rfl⟩
  · exact ⟨rfl, rfl⟩
  · exact (sameIn_continueEp0Tx _).trans ⟨rfl, rfl⟩
  · exact ⟨rfl, rfl⟩

/-- Control transfers and OUT packets leave the IN data endpoints alone. -/
theorem sameIn_interrupt (d : Ctx) (rx : UsbRx.Ctx) {i : Irq} (hr : i ≠ .busReset) (h1 : i ≠ .ep1In)
    (h2 : i ≠ .ep2In) : SameIn (interrupt d rx i).1 d := by
  cases i with
  | setup packet =>
    rw [interrupt_setup]
    exact (sameIn_clearFlag _ _).trans ((sameIn_handleEp0Setup _).trans ⟨rfl, rfl⟩)
  | ep0In =>
    rw [interrupt_ep0In]
    exact (sameIn_clearFlag _ _).trans ((sameIn_handleEp0In _).trans ⟨rfl, rfl⟩)
  | ep0Out data => rw [interrupt_ep0Out]; exact ⟨rfl, rfl⟩
  | ep3Out data pid => rw [interrupt_ep3Out]; exact (sameIn_clearFlag _ _).trans ⟨rfl, rfl⟩
  | busReset => exact absurd rfl hr
  | ep1In => exact absurd rfl h1
  | ep2In => exact absurd rfl h2

/-- A reset of the bus: both endpoints idle, without automatic toggle on EP1. -/
theorem ep_busReset (d : Ctx) (rx : UsbRx.Ctx) :
    ep1In (interrupt d rx .busReset).1 = ⟨0, d.ep1Dma, 0, uepTResNak⟩ ∧
      ep2In (interrupt d rx .busReset).1 = ⟨0, 0, 0, d.ep2TxStage, d.ep2Dma, 0, uepTAutoTog ||| uepTResNak⟩ := by
  rw [interrupt_busReset]
  exact ⟨rfl, rfl⟩

theorem ep_ep1In (d : Ctx) (rx : UsbRx.Ctx) :
    ep1In (interrupt d rx .ep1In).1 = ⟨0, d.ep1Dma, d.regs.uep1TxLen, uepTResNak⟩ ∧
      ep2In (interrupt d rx .ep1In).1 = ep2In d := by
  rw [interrupt_ep1In]
  exact ⟨rfl, rfl⟩

theorem sendHint_cases (d : Ctx) (hint : VpIrqHint) :
    sendHint d hint = (d, false) ∨
      (ep1In (sendHint d hint).1 = ⟨1, d.ep1Dma.write 0 hint.bytes, 8, uepTResAck⟩ ∧
        ep2In (sendHint d hint).1 = ep2In d) := by
  simp only [sendHint]
  split
  · exact .inl rfl
  · exact .inr ⟨rfl, rfl⟩

/-! ## Packets on EP2 -/

/-- The packet the controller answers with on EP2. -/
def ep2Packet (d : Ctx) : List UInt8 := d.ep2Dma.toList.take d.regs.uep2TxLen.toNat

/-- Loading a chunk arms EP2 with the next 64 bytes of the staged frame, or
with what is left of it. -/
theorem loadEp2Chunk_spec {d : Ctx} (hlt : d.ep2TxOffset < d.ep2TxLen) (hle : d.ep2TxLen.toNat ≤ 512) :
    let n := min 64 (d.ep2TxLen.toNat - d.ep2TxOffset.toNat)
    (loadEp2Chunk d).ep2TxOffset.toNat = d.ep2TxOffset.toNat + n ∧
      ep2Packet (loadEp2Chunk d) = d.ep2TxStage.slice d.ep2TxOffset.toNat n ∧
      armed (loadEp2Chunk d).regs.uep2TxCtrl = true := by
  intro n
  rw [UInt16.lt_iff_toNat_lt] at hlt
  have hsub : (d.ep2TxLen - d.ep2TxOffset).toNat = d.ep2TxLen.toNat - d.ep2TxOffset.toNat :=
    UInt16.toNat_sub_of_le _ _ (UInt16.le_iff_toNat_le.mpr hlt.le)
  obtain ⟨chunk, hchunk⟩ : ∃ c, c = if d.ep2TxLen - d.ep2TxOffset > UInt16.ofNat ep2Size then UInt16.ofNat ep2Size
      else d.ep2TxLen - d.ep2TxOffset := ⟨_, rfl⟩
  have hn : chunk.toNat = n := by
    have h64 : (UInt16.ofNat ep2Size).toNat = 64 := rfl
    rw [hchunk]
    split
    · next h =>
      rw [gt_iff_lt, UInt16.lt_iff_toNat_lt, h64, hsub] at h
      omega
    · next h =>
      rw [gt_iff_lt, UInt16.lt_iff_toNat_lt, h64, hsub] at h
      omega
  have hslice : (d.ep2TxStage.slice d.ep2TxOffset.toNat n).length = n :=
    d.ep2TxStage.length_slice (show _ ≤ 512 by omega)
  simp only [loadEp2Chunk, ← hchunk, ep2Packet, hn]
  refine ⟨?_, ?_, ?_⟩
  · rw [UInt16.toNat_add, hn]
    omega
  · exact d.ep2Dma.take_write hslice (show n ≤ 64 by omega)
  · generalize d.regs.uep2TxCtrl = ctrl
    obtain ⟨v⟩ := ctrl
    revert v
    decide

/-- The driver with a frame staged, before the first chunk is loaded. -/
def stageFrame (d : Ctx) (data : Ptr UInt8) (len : UInt16) : Ctx :=
  { d with
    ep2TxStage := d.ep2TxStage.write 0 (data.cells len.toNat)
    ep2TxLen := len
    ep2TxOffset := 0
    ep2TxActive := 1 }

/-- A frame is refused, or it is staged while EP2 is idle and its first chunk loaded. -/
theorem sendFrame_cases (d : Ctx) (data : Ptr UInt8) (len : UInt16) :
    sendFrame d data len = (d, false) ∨
      (d.ep2TxActive = 0 ∧ 0 < len.toNat ∧ len.toNat ≤ 512 ∧
        sendFrame d data len = (loadEp2Chunk (stageFrame d data len), true)) := by
  simp only [sendFrame]
  split
  · exact .inl rfl
  · next h =>
    simp only [not_or, Bool.not_eq_true, canSendFrame, Bool.and_eq_false_iff, not_or, Bool.not_eq_false,
      beq_iff_eq] at h
    obtain ⟨-, h0, hmax, -, hact⟩ := h
    refine .inr ⟨hact, ?_, ?_, rfl⟩
    · exact Nat.pos_of_ne_zero fun h => h0 (UInt16.toNat_inj.mp h)
    · exact UInt16.le_iff_toNat_le.mp (UInt16.not_lt.mp hmax)

/-- A packet acknowledged on EP2: the next chunk is loaded, or EP2 goes idle. -/
theorem ep_ep2In (d : Ctx) (rx : UsbRx.Ctx) :
    (d.ep2TxOffset < d.ep2TxLen ∧ ∃ d', d'.ep2TxOffset = d.ep2TxOffset ∧ d'.ep2TxLen = d.ep2TxLen ∧
        d'.ep2TxStage = d.ep2TxStage ∧ d'.ep2TxActive = d.ep2TxActive ∧
        ep2In (interrupt d rx .ep2In).1 = ep2In (loadEp2Chunk d')) ∨
      (¬ d.ep2TxOffset < d.ep2TxLen ∧ armed (interrupt d rx .ep2In).1.regs.uep2TxCtrl = false ∧
        (interrupt d rx .ep2In).1.ep2TxStage = d.ep2TxStage) := by
  rw [interrupt_ep2In]
  simp only [handleEp2In]
  split
  · next h => exact .inl ⟨h, raise d .ep2In, rfl, rfl, rfl, rfl, rfl⟩
  · next h =>
    refine .inr ⟨h, ?_, rfl⟩
    change armed ((autoToggle d.regs.uep2TxCtrl &&& uepTTog) ||| uepTAutoTog ||| uepTResNak) = false
    generalize d.regs.uep2TxCtrl = ctrl
    obtain ⟨v⟩ := ctrl
    revert v
    decide

end UsbMux.UsbDev
