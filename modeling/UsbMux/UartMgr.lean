/-
The UART manager of `uart/uart_manager.c`: the four port contexts, the control
commands, the writes from the host, the foreground loop and the two interrupt
callbacks. The port driver under it is a parameter (`UartPort`), the transmit
scheduler above it another (`Usb`), and the port map a table.

A handler does not look at what `USBTX_QueueRsp` answers, so it returns the
enqueue calls it makes, in order, and its caller makes them. `UartMgr_X` of
the source is `x` here.
-/
import Mathlib.Logic.Function.Basic
import UsbMux.RingBuffer
import UsbMux.TxFacts

namespace UsbMux.UartMgr

open Endian UsbTx

/-! ## The port map -/

abbrev uartPortCount : Nat := 4

/-! `GPIOA`, `GPIOB`, `GPIOC` and `GPIOD` as addresses. -/

abbrev gpioA : UInt32 := 0x40010800
abbrev gpioB : UInt32 := 0x40010C00
abbrev gpioC : UInt32 := 0x40011000
abbrev gpioD : UInt32 := 0x40011400

/-- `uart_map_cfg_t`. -/
structure MapCfg where
  enable : UInt8
  phyUartId : UInt8
  txPort : UInt32
  txPin : UInt16
  rxPort : UInt32
  rxPin : UInt16
deriving DecidableEq

/-- The table `g_uart_map_cfg`. -/
abbrev Map := Fin uartPortCount → MapCfg

/-- `g_uart_map_cfg` as it is configured. -/
def uartMapCfg : Map
  | 0 => ⟨1, 1, gpioA, 0x0200, gpioA, 0x0400⟩
  | 1 => ⟨1, 2, gpioA, 0x0004, gpioA, 0x0008⟩
  | 2 => ⟨1, 3, gpioB, 0x0400, gpioB, 0x0800⟩
  | 3 => ⟨1, 4, gpioC, 0x0400, gpioC, 0x0800⟩

/-! ## The manager's state -/

/-- `uart_port_state_t`. -/
inductive PortState
  | disabled | closed | opening | opened | draining | error
deriving DecidableEq, Repr

def PortState.code : PortState → UInt8
  | .disabled => 0
  | .closed => 1
  | .opening => 2
  | .opened => 3
  | .draining => 4
  | .error => 5

/-- `UART_RX_RB_SIZE`, `UART_TX_RB_SIZE` and `UART_USB_CHUNK_SIZE`. -/
abbrev uartRxRbSize : UInt16 := 256
abbrev uartTxRbSize : UInt16 := 256
abbrev uartUsbChunkSize : UInt16 := 64

/-- `uart_port_ctx_t`; the two storage arrays are in the rings. -/
structure PortCtx where
  logicPort : UInt8
  phyUartId : UInt8
  state : PortState
  rxRb : RingBuffer
  txRb : RingBuffer
  baudrate : UInt32
  rxBytes : UInt32
  txBytes : UInt32
  dropRxBytes : UInt32
  dropTxBytes : UInt32
  dataBits : UInt8
  parity : UInt8
  stopBits : UInt8
deriving DecidableEq

/-- `uart_port_ch32v20x.h` over a state `η` of the hardware. -/
structure UartPort (η : Type) where
  openPort : η → UInt8 → UInt32 → UInt8 → UInt8 → UInt8 → η × VpStatus
  close : η → UInt8 → η
  tryKickTx : η → UInt8 → η

/-- `g_uart_ports` and the hardware under them. -/
structure State (η : Type) where
  ports : Fin uartPortCount → PortCtx
  hw : η

variable {η : Type}

/-- One port context changed. -/
def State.modify (s : State η) (p : Fin uartPortCount) (f : PortCtx → PortCtx) : State η :=
  { s with ports := Function.update s.ports p (f (s.ports p)) }

/-- The state `UartMgr_Init` leaves a port in. -/
def initPort (map : Map) (p : Fin uartPortCount) : PortCtx where
  logicPort := UInt8.ofNat p
  phyUartId := (map p).phyUartId
  state := if (map p).enable ≠ 0 then .closed else .disabled
  rxRb := RingBuffer.init (List.replicate 256 0) uartRxRbSize (by decide) List.length_replicate
  txRb := RingBuffer.init (List.replicate 256 0) uartTxRbSize (by decide) List.length_replicate
  baudrate := 115200
  rxBytes := 0
  txBytes := 0
  dropRxBytes := 0
  dropTxBytes := 0
  dataBits := 8
  parity := 0
  stopBits := 1

def init (map : Map) (hw : η) : State η := ⟨initPort map, hw⟩

/-! ## Replies -/

def portCode (gpioAddr : UInt32) : UInt8 :=
  if gpioAddr = gpioA then 0
  else if gpioAddr = gpioB then 1
  else if gpioAddr = gpioC then 2
  else if gpioAddr = gpioD then 3
  else 0xFF

def getPort (logicPort : UInt8) : Option (Fin uartPortCount) :=
  if h : logicPort.toNat < uartPortCount then some ⟨logicPort.toNat, h⟩ else none

def validateCtrlPort (s : State η) (hdr : VpHdr) : Except VpStatus (Fin uartPortCount) :=
  match getPort hdr.chId with
  | none => .error .errInvalidParam
  | some p => if (s.ports p).state = .disabled then .error .errUartMapInvalid else .ok p

def queueStatusRsp (hdr : VpHdr) (status : VpStatus) : List Enqueue := statusRsp hdr status

def replyPortCap (hdr : VpHdr) (port : PortCtx) : List Enqueue :=
  [.rsp hdr .ok (some ([port.logicPort, port.phyUartId, port.state.code, 0] ++ le16 (uartRxRbSize - 1) ++
    le16 (uartTxRbSize - 1) ++ [1, 1, 0, 0])) 12]

/-- `g_uart_map_cfg[logic_port]`; no port context has an index past the table. -/
def mapCfgAt (map : Map) (logicPort : UInt8) : MapCfg :=
  match getPort logicPort with
  | some p => map p
  | none => ⟨0, 0, 0, 0, 0, 0⟩

def replyPortMap (map : Map) (hdr : VpHdr) (port : PortCtx) : List Enqueue :=
  let cfg := mapCfgAt map port.logicPort
  [.rsp hdr .ok (some ([cfg.enable, cfg.phyUartId, portCode cfg.txPort, portCode cfg.rxPort] ++
    le16 cfg.txPin ++ le16 cfg.rxPin ++ le32 port.baudrate)) 12]

def replyStats (hdr : VpHdr) (port : PortCtx) : List Enqueue :=
  [.rsp hdr .ok (some (le32 port.rxBytes ++ le32 port.txBytes ++ le32 port.dropRxBytes ++ le32 port.dropTxBytes ++
    [port.state.code, port.dataBits, port.parity, port.stopBits])) 20]

/-! ## Commands -/

/-- What `UartMgr_ParseLineCoding` fills in. -/
structure LineCoding where
  baudrate : UInt32
  dataBits : UInt8
  parity : UInt8
  stopBits : UInt8
deriving DecidableEq

def readLe32 (src : Ptr UInt8) : UInt32 := ofBytes32 (src.cell 0) (src.cell 1) (src.cell 2) (src.cell 3)

def parseLineCoding (payload : Ptr UInt8) (payloadLen : UInt16) : Except VpStatus LineCoding :=
  if payload.isNone ∨ payloadLen < 4 then .error .errInvalidParam
  else
    let c : LineCoding :=
      { baudrate := readLe32 payload
        dataBits := if payloadLen ≥ 5 then payload.cell 4 else 8
        parity := if payloadLen ≥ 6 then payload.cell 5 else 0
        stopBits := if payloadLen ≥ 7 then payload.cell 6 else 1 }
    if c.baudrate = 0 ∨ c.dataBits < 8 ∨ c.dataBits > 9 ∨ c.parity > 2 then .error .errInvalidParam
    else if c.stopBits ≠ 1 ∧ c.stopBits ≠ 2 then .error .errInvalidParam
    else if payloadLen ≥ 8 ∧ payload.cell 7 ≠ 0 then .error .errUnsupportedOpcode
    else .ok c

/-- The line coding stored in a port context. -/
def PortCtx.setLineCoding (port : PortCtx) (c : LineCoding) : PortCtx :=
  { port with baudrate := c.baudrate, dataBits := c.dataBits, parity := c.parity, stopBits := c.stopBits }

variable (drv : UartPort η)

/-- `UARTPort_Open` for the port at index `p`. -/
def callOpen (s : State η) (p : Fin uartPortCount) (c : LineCoding) : State η × VpStatus :=
  let r := drv.openPort s.hw (s.ports p).logicPort c.baudrate c.dataBits c.parity c.stopBits
  ({ s with hw := r.1 }, r.2)

/-- `UartMgr_Open`. -/
def openPort (s : State η) (p : Fin uartPortCount) (c : LineCoding) : State η × VpStatus :=
  let r := callOpen drv (s.modify p ({ · with state := .opening })) p c
  if r.2 ≠ .ok then (r.1.modify p ({ · with state := .error }), r.2)
  else (r.1.modify p fun port => { port.setLineCoding c with state := .opened }, .ok)

def handleCtrl (map : Map) (s : State η) (hdr : VpHdr) (payload : Ptr UInt8) (payloadLen : UInt16) :
    State η × List Enqueue :=
  match validateCtrlPort s hdr with
  | .error status => (s, queueStatusRsp hdr status)
  | .ok p =>
    match VpUartOpcode.ofCode hdr.opcode with
    | some .getPortCap =>
      if payloadLen ≠ 0 then (s, queueStatusRsp hdr .errInvalidParam) else (s, replyPortCap hdr (s.ports p))
    | some .getPortMap =>
      if payloadLen ≠ 0 then (s, queueStatusRsp hdr .errInvalidParam)
      else (s, replyPortMap map hdr (s.ports p))
    | some .openPort =>
      match parseLineCoding payload payloadLen with
      | .error status => (s, queueStatusRsp hdr status)
      | .ok c =>
        if (s.ports p).state ≠ .closed ∧ (s.ports p).state ≠ .error then
          (s, queueStatusRsp hdr .errInvalidState)
        else
          let r := openPort drv s p c
          (r.1, queueStatusRsp hdr r.2)
    | some .close =>
      let s := { s with hw := drv.close s.hw (s.ports p).logicPort }
      (s.modify p fun port => { port with rxRb := port.rxRb.reset, txRb := port.txRb.reset, state := .closed },
        queueStatusRsp hdr .ok)
    | some .setLineCoding =>
      match parseLineCoding payload payloadLen with
      | .error status => (s, queueStatusRsp hdr status)
      | .ok c =>
        if (s.ports p).state ≠ .opened then (s, queueStatusRsp hdr .errUartNotOpen)
        else
          let r := callOpen drv s p c
          (if r.2 = .ok then r.1.modify p (·.setLineCoding c) else r.1, queueStatusRsp hdr r.2)
    | some .getStats =>
      if payloadLen ≠ 0 then (s, queueStatusRsp hdr .errInvalidParam) else (s, replyStats hdr (s.ports p))
    | some .flushRx =>
      (s.modify p fun port => { port with rxRb := port.rxRb.reset }, queueStatusRsp hdr .ok)
    | some .flushTx =>
      (s.modify p fun port => { port with txRb := port.txRb.reset }, queueStatusRsp hdr .ok)
    | _ => (s, queueStatusRsp hdr .errUnsupportedOpcode)

def writeFromHost (s : State η) (logicPort : UInt8) (payload : Ptr UInt8) (payloadLen : UInt16) :
    State η × VpStatus :=
  match getPort logicPort with
  | none => (s, .errUartMapInvalid)
  | some p =>
    if (s.ports p).state = .disabled then (s, .errUartMapInvalid)
    else if (s.ports p).state ≠ .opened then (s, .errUartNotOpen)
    else
      let w := (s.ports p).txRb.write payload payloadLen
      let s := s.modify p fun port =>
        { port with
          txRb := w.1
          dropTxBytes := if w.2 < payloadLen then port.dropTxBytes + (payloadLen - w.2).toUInt32
            else port.dropTxBytes }
      ({ s with hw := drv.tryKickTx s.hw logicPort }, if w.2 = payloadLen then .ok else .errOverflow)

/-! ## Foreground and interrupts -/

/-- `usb_tx_sched.h` over a state `τ` of the transmit scheduler: what a call
leaves, and whether it is answered 0. -/
abbrev Usb (τ : Type) := τ → Enqueue → τ × Bool

/-- A call of `USBTX_QueueData` and whether it was answered 0. -/
structure DataCall where
  port : Fin uartPortCount
  data : List UInt8
  accepted : Bool
deriving DecidableEq

variable {τ : Type} (usb : Usb τ)

/-- The loop body of `UartMgr_Process`. -/
def processPort (s : State η) (t : τ) (p : Fin uartPortCount) : State η × τ × List DataCall :=
  if (s.ports p).state ≠ .opened then (s, t, [])
  else
    let r := (s.ports p).rxRb.read uartUsbChunkSize
    let s := s.modify p ({ · with rxRb := r.1 })
    let readLen := UInt16.ofNat r.2.length
    if readLen = 0 then (s, t, [])
    else
      let a := usb t (.data VpChannelType.uartData.code (UInt8.ofNat p) (some r.2) readLen)
      if a.2 then (s, a.1, [⟨p, r.2, true⟩])
      else
        (s.modify p fun port => { port with dropRxBytes := port.dropRxBytes + readLen.toUInt32 }, a.1,
          [⟨p, r.2, false⟩])

/-- The loop of `UartMgr_Process` over the ports still to come. -/
def processPorts (s : State η) (t : τ) : List (Fin uartPortCount) → State η × τ × List DataCall
  | [] => (s, t, [])
  | p :: ps =>
    let r := processPort usb s t p
    let r' := processPorts r.1 r.2.1 ps
    (r'.1, r'.2.1, r.2.2 ++ r'.2.2)

def process (s : State η) (t : τ) : State η × τ × List DataCall :=
  processPorts usb s t (List.finRange uartPortCount)

def irqRxByte (s : State η) (logicPort data : UInt8) : State η :=
  match getPort logicPort with
  | none => s
  | some p =>
    if (s.ports p).state ≠ .opened then s
    else match (s.ports p).rxRb.pushByte data with
      | none => s.modify p fun port => { port with dropRxBytes := port.dropRxBytes + 1 }
      | some rb => s.modify p fun port => { port with rxRb := rb, rxBytes := port.rxBytes + 1 }

/-- `UartMgr_IrqTxNextByte` with a place for the byte; `none` is the answer -1. -/
def irqTxNextByte (s : State η) (logicPort : UInt8) : State η × Option UInt8 :=
  match getPort logicPort with
  | none => (s, none)
  | some p =>
    if (s.ports p).state ≠ .opened then (s, none)
    else match (s.ports p).txRb.popByte with
      | none => (s, none)
      | some (b, rb) => (s.modify p fun port => { port with txRb := rb, txBytes := port.txBytes + 1 }, some b)

/-! ## Answers -/

theorem handleCtrl_answers (map : Map) (s : State η) (hdr : VpHdr) (payload : Ptr UInt8) (payloadLen : UInt16) :
    Answers hdr 488 (handleCtrl drv map s hdr payload payloadLen).2 := by
  have status := answers_status hdr
  simp only [handleCtrl]
  split
  · exact status _
  split
  · split
    · exact status _
    · exact answers_single hdr _ _ (by decide)
  · split
    · exact status _
    · exact answers_single hdr _ _ (by decide)
  · split
    · exact status _
    · split <;> exact status _
  · exact status _
  · split
    · exact status _
    · split <;> exact status _
  · split
    · exact status _
    · exact answers_single hdr _ _ (by decide)
  · exact status _
  · exact status _
  · exact status _

end UsbMux.UartMgr
