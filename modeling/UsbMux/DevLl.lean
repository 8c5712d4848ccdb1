/-
The USB device layer of `usb/usb_dev_ll.c` on the registers of the USBFS
controller: endpoint 0, the interrupt endpoint EP1, the bulk endpoints EP2 IN
and EP3 OUT, and the interrupt handler.

The controller's own part (`UsbDev.raise`) is what `ch32v20x_usb.h` says it
does before it raises an interrupt: it stores what was received, answers an
IN token with the endpoint's buffer and toggle, and flips a toggle bit only
where the endpoint's automatic toggle is on. Setting events for the task
loop has no counterpart here, since every order of steps is considered.
`USBDEV_X` of the source is `x` here.
-/
import UsbMux.RxFsm
import UsbMux.TxSched

namespace UsbMux.UsbDev

open Endian

/-! ## Registers -/

/-! Bits of the endpoint control registers (`USBFS_UEP_*`). -/

abbrev uepTAutoTog : UInt8 := 0x08
abbrev uepTTog : UInt8 := 0x04
abbrev uepTResMask : UInt8 := 0x03
abbrev uepTResAck : UInt8 := 0x00
abbrev uepTResNak : UInt8 := 0x02
abbrev uepTResStall : UInt8 := 0x03
abbrev uepRAutoTog : UInt8 := 0x08
abbrev uepRTog : UInt8 := 0x04
abbrev uepRResAck : UInt8 := 0x00
abbrev uepRResStall : UInt8 := 0x03

/-! Bits of `INT_FG` and `INT_ST` (`USBFS_UIF_*`, `USBFS_UIS_*`). -/

abbrev uifFifoOv : UInt8 := 0x10
abbrev uifSuspend : UInt8 := 0x04
abbrev uifTransfer : UInt8 := 0x02
abbrev uifBusRst : UInt8 := 0x01
abbrev uisTogOk : UInt8 := 0x40
abbrev uisTokenMask : UInt8 := 0x30
abbrev uisTokenOut : UInt8 := 0x00
abbrev uisTokenIn : UInt8 := 0x20
abbrev uisTokenSetup : UInt8 := 0x30
abbrev uisEndpMask : UInt8 := 0x0F
abbrev usbAddrMask : UInt8 := 0x7F

/-- The registers of `USBFSD` the driver reads or writes after initialisation. -/
structure Regs where
  intFg : UInt8
  intSt : UInt8
  rxLen : UInt32
  devAddr : UInt8
  uep0TxLen : UInt16
  uep0TxCtrl : UInt8
  uep0RxCtrl : UInt8
  uep1TxLen : UInt16
  uep1TxCtrl : UInt8
  uep2TxLen : UInt16
  uep2TxCtrl : UInt8
  uep3RxCtrl : UInt8
deriving DecidableEq

/-! ## The driver's state -/

/-- `USBDEV_EP0_SIZE` and its three siblings. -/
abbrev ep0Size : Nat := 64
abbrev ep1Size : Nat := 8
abbrev ep2Size : Nat := 64
abbrev ep3Size : Nat := 64

abbrev addressPendingNone : UInt8 := 0xFF

/-- `usbdev_ctrl_ep0_t`. -/
structure Ep0 where
  data : Ptr UInt8
  remaining : UInt16
  pendingAddress : UInt8
deriving DecidableEq

/-- `usbdev_ctx_t`, the four DMA buffers and the controller's registers. -/
structure Ctx where
  configured : UInt8
  ep1TxBusy : UInt8
  ep2TxActive : UInt8
  ep0 : Ep0
  ep2TxLen : UInt16
  ep2TxOffset : UInt16
  ep2TxStage : Block UInt8 appUsbMaxFrameLen
  ep0Dma : Block UInt8 ep0Size
  ep1Dma : Block UInt8 ep1Size
  ep2Dma : Block UInt8 ep2Size
  ep3Dma : Block UInt8 ep3Size
  regs : Regs
deriving DecidableEq

def resetDataEndpoints (d : Ctx) : Ctx :=
  { d with
    configured := 0
    ep1TxBusy := 0
    ep2TxActive := 0
    ep2TxLen := 0
    ep2TxOffset := 0
    ep0 := ⟨none, 0, addressPendingNone⟩
    regs := { d.regs with
      devAddr := 0
      uep0TxLen := 0
      uep0TxCtrl := uepTResNak
      uep0RxCtrl := uepRResAck
      uep1TxLen := 0
      uep1TxCtrl := uepTResNak
      uep2TxLen := 0
      uep2TxCtrl := uepTAutoTog ||| uepTResNak
      uep3RxCtrl := uepRAutoTog ||| uepRResAck } }

/-! ## Endpoint 0 -/

def devDesc : List UInt8 :=
  [0x12, 0x01, 0x10, 0x01, 0xFF, 0x00, 0x00, 64, 0x86, 0x1A, 0x80, 0x20, 0x00, 0x01, 0x01, 0x02, 0x03, 0x01]

def cfgDesc : List UInt8 :=
  [0x09, 0x02, 0x27, 0x00, 0x01, 0x01, 0x00, 0x80, 0x32,
    0x09, 0x04, 0x00, 0x00, 0x03, 0xFF, 0x00, 0x00, 0x00,
    0x07, 0x05, 0x81, 0x03, 8, 0x00, 0x01,
    0x07, 0x05, 0x03, 0x02, 64, 0x00, 0x00,
    0x07, 0x05, 0x82, 0x02, 64, 0x00, 0x00]

def langDesc : List UInt8 := [0x04, 0x03, 0x09, 0x04]

def manuDesc : List UInt8 :=
  [0x14, 0x03, 0x43, 0x00, 0x6F, 0x00, 0x64, 0x00, 0x65, 0x00, 0x78, 0x00, 0x20, 0x00, 0x4C, 0x00, 0x61, 0x00,
    0x62, 0x00]

def prodDesc : List UInt8 :=
  [0x22, 0x03, 0x43, 0x00, 0x48, 0x00, 0x33, 0x00, 0x32, 0x00, 0x56, 0x00, 0x32, 0x00, 0x30, 0x00, 0x38, 0x00,
    0x20, 0x00, 0x4D, 0x00, 0x75, 0x00, 0x78, 0x00, 0x20, 0x00, 0x44, 0x00, 0x65, 0x00, 0x76, 0x00]

def serialDesc : List UInt8 :=
  [0x12, 0x03, 0x30, 0x00, 0x30, 0x00, 0x30, 0x00, 0x31, 0x00, 0x54, 0x00, 0x33, 0x00, 0x30, 0x00, 0x30, 0x00]

def loadEp0Tx (d : Ctx) (data : Ptr UInt8) (len : UInt16) : Ctx :=
  let d := if data.isSome ∧ len > 0 then { d with ep0Dma := d.ep0Dma.write 0 (data.cells len.toNat) } else d
  { d with regs := { d.regs with
    uep0TxLen := len
    uep0TxCtrl := (d.regs.uep0TxCtrl &&& uepTTog) ||| uepTResAck
    uep0RxCtrl := (d.regs.uep0RxCtrl &&& uepRTog) ||| uepRResAck } }

def continueEp0Tx (d : Ctx) : Ctx :=
  if d.ep0.remaining = 0 then loadEp0Tx d none 0
  else
    let chunkLen := if d.ep0.remaining > UInt16.ofNat ep0Size then UInt16.ofNat ep0Size else d.ep0.remaining
    let d := loadEp0Tx d d.ep0.data chunkLen
    { d with ep0 := { d.ep0 with
      data := d.ep0.data.shift chunkLen.toNat
      remaining := d.ep0.remaining - chunkLen } }

/-- The write of both control registers that opens a data or status stage,
`USBFS_UEP_T_TOG | tRes` and `USBFS_UEP_R_TOG | rRes`. -/
def setEp0Ctrl (d : Ctx) (tRes rRes : UInt8) : Ctx :=
  { d with regs := { d.regs with uep0TxCtrl := uepTTog ||| tRes, uep0RxCtrl := uepRTog ||| rRes } }

def startEp0Data (d : Ctx) (data : Ptr UInt8) (len : UInt16) : Ctx :=
  let d := { d with ep0 := { d.ep0 with data := data, remaining := len } }
  continueEp0Tx (setEp0Ctrl d uepTResNak uepRResAck)

def stallEp0 (d : Ctx) : Ctx := setEp0Ctrl d uepTResStall uepRResStall

/-- `usb_setup_pkt_t`. -/
structure SetupPkt where
  bmRequestType : UInt8
  bRequest : UInt8
  wValue : UInt16
  wIndex : UInt16
  wLength : UInt16
deriving DecidableEq, Repr

/-- The packed structure at the start of the EP0 buffer. -/
def setupPkt (d : Ctx) : SetupPkt where
  bmRequestType := d.ep0Dma.toList.getD 0 0
  bRequest := d.ep0Dma.toList.getD 1 0
  wValue := readLe16 d.ep0Dma.toList 2
  wIndex := readLe16 d.ep0Dma.toList 4
  wLength := readLe16 d.ep0Dma.toList 6

/-- The descriptor a `GET_DESCRIPTOR` request names; `none` is stalled. -/
def findDescriptor (wValue : UInt16) : Option (List UInt8) :=
  let type := (wValue >>> 8).toUInt8
  if type = 0x01 then some devDesc
  else if type = 0x02 then some cfgDesc
  else if type = 0x03 then
    let index := (wValue &&& 0xFF).toUInt8
    if index = 0 then some langDesc
    else if index = 1 then some manuDesc
    else if index = 2 then some prodDesc
    else if index = 3 then some serialDesc
    else none
  else none

def handleStandardRequest (d : Ctx) (setup : SetupPkt) : Ctx :=
  if setup.bRequest = 0x06 then
    match findDescriptor setup.wValue with
    | none => stallEp0 d
    | some desc =>
      let descLen := UInt16.ofNat desc.length
      startEp0Data d (some desc) (if descLen > setup.wLength then setup.wLength else descLen)
  else if setup.bRequest = 0x05 then
    loadEp0Tx { d with ep0 := { d.ep0 with pendingAddress := (setup.wValue &&& usbAddrMask.toUInt16).toUInt8 } }
      none 0
  else if setup.bRequest = 0x09 then
    loadEp0Tx { d with configured := (setup.wValue &&& 0xFF).toUInt8 } none 0
  else if setup.bRequest = 0x08 then
    let d := { d with ep0Dma := d.ep0Dma.put 0 d.configured }
    startEp0Data d (some d.ep0Dma.toList) 1
  else if setup.bRequest = 0x00 then
    let d := { d with ep0Dma := (d.ep0Dma.put 0 0).put 1 0 }
    startEp0Data d (some d.ep0Dma.toList) 2
  else stallEp0 d

def handleEp0Setup (d : Ctx) : Ctx :=
  let setup := setupPkt d
  let d := { d with ep0 := { d.ep0 with data := none, remaining := 0 } }
  let d := setEp0Ctrl d uepTResNak uepRResAck
  if setup.bmRequestType &&& 0x60 ≠ 0x00 then stallEp0 d else handleStandardRequest d setup

def handleEp0In (d : Ctx) : Ctx :=
  let d := if d.ep0.pendingAddress ≠ addressPendingNone then
      { d with
        regs := { d.regs with devAddr := d.ep0.pendingAddress }
        ep0 := { d.ep0 with pendingAddress := addressPendingNone } }
    else d
  if d.ep0.remaining > 0 then
    continueEp0Tx { d with regs := { d.regs with uep0TxCtrl := d.regs.uep0TxCtrl ^^^ uepTTog } }
  else { d with regs := { d.regs with uep0TxLen := 0, uep0TxCtrl := uepTResNak, uep0RxCtrl := uepRResAck } }

/-! ## The data endpoints -/

def loadEp2Chunk (d : Ctx) : Ctx :=
  let chunkLen := d.ep2TxLen - d.ep2TxOffset
  let chunkLen := if chunkLen > UInt16.ofNat ep2Size then UInt16.ofNat ep2Size else chunkLen
  { d with
    ep2Dma := d.ep2Dma.write 0 (d.ep2TxStage.slice d.ep2TxOffset.toNat chunkLen.toNat)
    ep2TxOffset := d.ep2TxOffset + chunkLen
    regs := { d.regs with
      uep2TxLen := chunkLen
      uep2TxCtrl := (d.regs.uep2TxCtrl &&& ~~~uepTResMask) ||| uepTResAck } }

/-- The EP1 IN branch of `USBDEV_HandleTransfer`. -/
def handleEp1In (d : Ctx) : Ctx :=
  { d with ep1TxBusy := 0, regs := { d.regs with uep1TxCtrl := uepTResNak } }

/-- The EP2 IN branch of `USBDEV_HandleTransfer`. -/
def handleEp2In (d : Ctx) : Ctx :=
  if d.ep2TxOffset < d.ep2TxLen then loadEp2Chunk d
  else { d with
    ep2TxActive := 0
    regs := { d.regs with
      uep2TxLen := 0
      uep2TxCtrl := (d.regs.uep2TxCtrl &&& uepTTog) ||| uepTAutoTog ||| uepTResNak } }

/-- The length the EP3 OUT branch passes on. -/
def ep3RxLen (d : Ctx) : UInt16 :=
  let rxLen := d.regs.rxLen.toUInt16
  if rxLen > UInt16.ofNat ep3Size then UInt16.ofNat ep3Size else rxLen

/-- The EP3 OUT branch of `USBDEV_HandleTransfer`: the endpoint is armed again
whatever the receive ring took. -/
def handleEp3Out (d : Ctx) (rx : UsbRx.Ctx) : Ctx × UsbRx.Ctx :=
  ({ d with regs := { d.regs with
      uep3RxCtrl := (d.regs.uep3RxCtrl &&& uepRTog) ||| uepRAutoTog ||| uepRResAck } },
    UsbRx.pushBytes rx (some d.ep3Dma.toList) (ep3RxLen d))

def handleTransfer (d : Ctx) (rx : UsbRx.Ctx) : Ctx × UsbRx.Ctx :=
  let token := d.regs.intSt &&& uisTokenMask
  let endpoint := d.regs.intSt &&& uisEndpMask
  if token = uisTokenSetup then (handleEp0Setup d, rx)
  else if endpoint = 0 ∧ token = uisTokenIn then (handleEp0In d, rx)
  else if endpoint = 0 ∧ token = uisTokenOut then
    ({ d with regs := { d.regs with uep0RxCtrl := uepRResAck } }, rx)
  else if endpoint = 1 ∧ token = uisTokenIn then (handleEp1In d, rx)
  else if endpoint = 3 ∧ token = uisTokenOut then handleEp3Out d rx
  else if endpoint = 2 ∧ token = uisTokenIn then (handleEp2In d, rx)
  else (d, rx)

/-- `USBFSD->INT_FG = flag`: the controller clears the flags written as ones. -/
def clearFlag (d : Ctx) (flag : UInt8) : Ctx :=
  { d with regs := { d.regs with intFg := d.regs.intFg &&& ~~~flag } }

/-- `USBHD_IRQHandler`. -/
def irqHandler (d : Ctx) (rx : UsbRx.Ctx) : Ctx × UsbRx.Ctx :=
  let intFlag := d.regs.intFg
  let d := if intFlag &&& uifBusRst ≠ 0 then clearFlag (resetDataEndpoints d) uifBusRst else d
  let r := if intFlag &&& uifTransfer ≠ 0 then
      let t := handleTransfer d rx
      (clearFlag t.1 uifTransfer, t.2)
    else (d, rx)
  let d := if intFlag &&& uifSuspend ≠ 0 then clearFlag r.1 uifSuspend else r.1
  let d := if intFlag &&& uifFifoOv ≠ 0 then clearFlag d uifFifoOv else d
  (d, r.2)

/-! ## The interface to the other modules -/

/-- `USBMUX_DeviceInit`, as far as it concerns the modelled state. -/
def deviceInit (d : Ctx) : Ctx :=
  let d := { d with
    configured := 0
    ep1TxBusy := 0
    ep2TxActive := 0
    ep0 := ⟨none, 0, addressPendingNone⟩
    ep2TxLen := 0
    ep2TxOffset := 0
    ep2TxStage := Block.fill _ 0 }
  let d := clearFlag (resetDataEndpoints d) 0xFF
  { d with regs := { d.regs with devAddr := 0 } }

/-- The driver's memory before initialisation. -/
def zero : Ctx where
  configured := 0
  ep1TxBusy := 0
  ep2TxActive := 0
  ep0 := ⟨none, 0, 0⟩
  ep2TxLen := 0
  ep2TxOffset := 0
  ep2TxStage := Block.fill _ 0
  ep0Dma := Block.fill _ 0
  ep1Dma := Block.fill _ 0
  ep2Dma := Block.fill _ 0
  ep3Dma := Block.fill _ 0
  regs := ⟨0, 0, 0, 0, 0, 0, 0, 0, 0, 0, 0, 0⟩

/-- The state after `USBMUX_DeviceInit`. -/
def init : Ctx := deviceInit zero

def isConfigured (d : Ctx) : Bool := d.configured != 0

def canSendHint (d : Ctx) : Bool := isConfigured d && d.ep1TxBusy == 0

def canSendFrame (d : Ctx) : Bool := isConfigured d && d.ep2TxActive == 0

/-- `USBDEV_SendHint` of a hint that is there; `true` is the answer 0. -/
def sendHint (d : Ctx) (hint : VpIrqHint) : Ctx × Bool :=
  if canSendHint d = false then (d, false)
  else
    ({ d with
      ep1Dma := d.ep1Dma.write 0 hint.bytes
      ep1TxBusy := 1
      regs := { d.regs with uep1TxLen := UInt16.ofNat hint.bytes.length, uep1TxCtrl := uepTResAck } }, true)

/-- `USBDEV_SendFrame`; `true` is the answer 0. -/
def sendFrame (d : Ctx) (data : Ptr UInt8) (len : UInt16) : Ctx × Bool :=
  if data.isNone ∨ len = 0 ∨ len > UInt16.ofNat appUsbMaxFrameLen ∨ canSendFrame d = false then (d, false)
  else
    let d := { d with
      ep2TxStage := d.ep2TxStage.write 0 (data.cells len.toNat)
      ep2TxLen := len
      ep2TxOffset := 0
      ep2TxActive := 1 }
    (loadEp2Chunk d, true)

/-- The driver as the scheduler's device layer. -/
def device : UsbTx.UsbDevice Ctx where
  isConfigured := isConfigured
  canSendHint := canSendHint
  canSendFrame := canSendFrame
  sendHint := sendHint
  sendFrame := sendFrame

/-! ## The controller -/

/-- The data of an OUT packet on EP3, 64 bytes at most. -/
abbrev Packet := { data : List UInt8 // data.length ≤ ep3Size }

/-- What makes the controller raise an interrupt, with the endpoints that
`USBMUX_DeviceInit` enables: a reset of the bus, a SETUP packet, an IN packet
the host has acknowledged, or an OUT packet. EP3 packets come with their data
PID (`true` is DATA1). -/
inductive Irq
  | busReset
  | setup (packet : List UInt8)
  | ep0In
  | ep0Out (data : List UInt8)
  | ep1In
  | ep2In
  | ep3Out (data : Packet) (pid : Bool)
deriving DecidableEq

/-- The flip of a toggle bit after a packet, where the automatic toggle is on. -/
def autoToggle (ctrl : UInt8) : UInt8 := if ctrl &&& uepTAutoTog ≠ 0 then ctrl ^^^ uepTTog else ctrl

/-- The data PID an endpoint's control register asks for. -/
def pidOf (ctrl : UInt8) : Bool := ctrl &&& uepTTog != 0

/-- The endpoint answers an IN token with its packet, and not with NAK. -/
def armed (ctrl : UInt8) : Bool := ctrl &&& uepTResMask == uepTResAck

/-- `INT_FG` and `INT_ST` of a transfer. -/
def Regs.transfer (r : Regs) (intSt : UInt8) : Regs := { r with intFg := uifTransfer, intSt := intSt }

/-- The controller's part of an interrupt. An OUT packet on EP3 with the
expected PID sets `USBFS_UIS_TOG_OK` and moves the expectation on; with the
other PID it is stored and reported all the same. -/
def raise (d : Ctx) : Irq → Ctx
  | .busReset => { d with regs := { d.regs with intFg := uifBusRst } }
  | .setup packet =>
    { d with ep0Dma := d.ep0Dma.write 0 packet, regs := d.regs.transfer (uisTogOk ||| uisTokenSetup) }
  | .ep0In =>
    { d with regs := { d.regs with uep0TxCtrl := autoToggle d.regs.uep0TxCtrl }.transfer uisTokenIn }
  | .ep0Out data =>
    { d with
      ep0Dma := d.ep0Dma.write 0 data
      regs := { d.regs with rxLen := UInt32.ofNat data.length }.transfer (uisTogOk ||| uisTokenOut) }
  | .ep1In =>
    { d with regs := { d.regs with uep1TxCtrl := autoToggle d.regs.uep1TxCtrl }.transfer (uisTokenIn ||| 1) }
  | .ep2In =>
    { d with regs := { d.regs with uep2TxCtrl := autoToggle d.regs.uep2TxCtrl }.transfer (uisTokenIn ||| 2) }
  | .ep3Out data pid =>
    let ok := pidOf d.regs.uep3RxCtrl == pid
    { d with
      ep3Dma := d.ep3Dma.write 0 data.1
      regs := { d.regs with
        rxLen := UInt32.ofNat data.1.length
        uep3RxCtrl := if ok then autoToggle d.regs.uep3RxCtrl else d.regs.uep3RxCtrl }.transfer
          ((if ok then uisTogOk else 0) ||| uisTokenOut ||| 3) }

/-- An interrupt from its cause to the end of the handler. -/
def interrupt (d : Ctx) (rx : UsbRx.Ctx) (i : Irq) : Ctx × UsbRx.Ctx := irqHandler (raise d i) rx

end UsbMux.UsbDev
