/-
The port driver of `uart/uart_port_ch32v20x.c`: the registers of the four
USARTs, the functions of the peripheral library that the driver calls
(`ch32v20x_usart.c`), the three functions the UART manager calls, and the
interrupt handlers that call back into the manager. `UARTPort_X` of the
source is `x` here, `USART_X` is `usartX`.

Clocks, pins and interrupt channels are set up by the driver and read by
nothing here, so they are left out.
-/
import UsbMux.Lib.Bits
import UsbMux.UartFacts

namespace UsbMux.UartHw

open UartMgr

/-! ## The peripheral -/

/-- The registers of `USART_TypeDef` that are written here; reading the status
and the data register is part of an interrupt. -/
structure Usart where
  datar : UInt16
  brr : UInt16
  ctlr1 : UInt16
  ctlr2 : UInt16
  ctlr3 : UInt16
deriving DecidableEq

/-- `USART_InitTypeDef`. -/
structure UsartInit where
  baudRate : UInt32
  wordLength : UInt16
  stopBits : UInt16
  parity : UInt16
  mode : UInt16
  hardwareFlowControl : UInt16
deriving DecidableEq

abbrev usartWordLength8b : UInt16 := 0x0000
abbrev usartWordLength9b : UInt16 := 0x1000
abbrev usartStopBits1 : UInt16 := 0x0000
abbrev usartStopBits2 : UInt16 := 0x2000
abbrev usartParityNo : UInt16 := 0x0000
abbrev usartParityEven : UInt16 := 0x0400
abbrev usartParityOdd : UInt16 := 0x0600
abbrev usartModeRx : UInt16 := 0x0004
abbrev usartModeTx : UInt16 := 0x0008
abbrev usartHardwareFlowControlNone : UInt16 := 0x0000
abbrev usartItTxe : UInt16 := 0x0727
abbrev usartItRxne : UInt16 := 0x0525

/-- The value `USART_Init` writes to BRR. The divisor is a 32-bit product. -/
def brrValue (baudRate : UInt32) (apbclock : UInt64) : UInt16 :=
  let integerdivider := ((25 * apbclock) / (4 * baudRate).toUInt64).toUInt32
  let tmpreg : UInt64 := ((integerdivider / 100) <<< 4).toUInt64
  let fractionaldivider : UInt32 := (integerdivider.toUInt64 - (100 : UInt64) * (tmpreg >>> 4)).toUInt32
  let fractionaldivider := (fractionaldivider * 16 + 50) / 100
  let tmpreg := if fractionaldivider > 0xF then tmpreg + 16 else tmpreg ||| (fractionaldivider &&& 0x0F).toUInt64
  tmpreg.toUInt16

def usartInit (u : Usart) (cfg : UsartInit) (apbclock : UInt64) : Usart :=
  { u with
    ctlr2 := (u.ctlr2 &&& 0xCFFF) ||| cfg.stopBits
    ctlr1 := (u.ctlr1 &&& 0xE9F3) ||| (cfg.wordLength ||| cfg.parity ||| cfg.mode)
    ctlr3 := (u.ctlr3 &&& 0xFCFF) ||| cfg.hardwareFlowControl
    brr := brrValue cfg.baudRate apbclock }

def usartCmd (u : Usart) (enable : Bool) : Usart :=
  { u with ctlr1 := if enable then u.ctlr1 ||| 0x2000 else u.ctlr1 &&& 0xDFFF }

/-- The bit of an interrupt in its control register. -/
def itMask (it : UInt16) : UInt16 := 1 <<< (it &&& 0x1F)

/-- `USART_ITConfig`; the interrupt names the register its bit is in. -/
def usartITConfig (u : Usart) (it : UInt16) (enable : Bool) : Usart :=
  let set (r : UInt16) := if enable then r ||| itMask it else r &&& ~~~ itMask it
  let usartreg := it.toUInt8 >>> 5
  if usartreg = 1 then { u with ctlr1 := set u.ctlr1 }
  else if usartreg = 2 then { u with ctlr2 := set u.ctlr2 }
  else { u with ctlr3 := set u.ctlr3 }

/-- `USART_GetITStatus` with `statr` read from the status register. -/
def usartGetITStatus (u : Usart) (statr it : UInt16) : Bool :=
  let usartreg := it.toUInt8 >>> 5
  let enabled := itMask it &&& (if usartreg = 1 then u.ctlr1 else if usartreg = 2 then u.ctlr2 else u.ctlr3)
  let pending := ((1 : UInt16) <<< (it >>> 8)) &&& statr
  enabled ≠ 0 && pending ≠ 0

def usartSendData (u : Usart) (data : UInt16) : Usart := { u with datar := data &&& 0x01FF }

/-- `USART_ReceiveData` with `datar` read from the data register. -/
def usartReceiveData (datar : UInt16) : UInt16 := datar &&& 0x01FF

/-! ## The driver -/

/-- The four USARTs and the bus clocks `RCC_GetClocksFreq` reports. Two logs
are kept beside them, latest first: `opens` of the calls of `UARTPort_Open`
that were answered OK, `written` of the USARTs whose registers were written. -/
structure Hw where
  usart : Fin 4 → Usart
  pclk1 : UInt32
  pclk2 : UInt32
  opens : List (UInt8 × LineCoding)
  written : List (Fin 4)

/-- The registers of one USART written. -/
def Hw.modify (h : Hw) (u : Fin 4) (f : Usart → Usart) : Hw :=
  { h with usart := Function.update h.usart u (f (h.usart u)), written := u :: h.written }

/-- The clock of a USART's bus; USART1 is on the second one. -/
def Hw.apbclock (h : Hw) (u : Fin 4) : UInt64 := (if u.val = 0 then h.pclk2 else h.pclk1).toUInt64

variable (map : Map)

/-- `UARTPort_FindLogicPortByPhy`. -/
def findLogicPortByPhy (phyUartId : UInt8) : Option (Fin uartPortCount) :=
  (List.finRange uartPortCount).find? fun p => (map p).enable ≠ 0 ∧ (map p).phyUartId = phyUartId

/-- `g_uart_hw_desc`: the USART of each descriptor. -/
abbrev uartHwDesc : List (Fin 4) := List.finRange 4

/-- `UARTPort_GetHwDesc`. -/
def getHwDesc (logicPort : UInt8) : Option (Fin 4) :=
  match getPort logicPort with
  | none => none
  | some p =>
    if (map p).phyUartId = 0 ∨ (map p).phyUartId > 4 then none else uartHwDesc[(map p).phyUartId.toNat - 1]?

/-- What `UARTPort_ApplyConfig` hands to `USART_Init`. -/
def usartCfg (c : LineCoding) : UsartInit where
  baudRate := c.baudrate
  mode := usartModeRx ||| usartModeTx
  hardwareFlowControl := usartHardwareFlowControlNone
  wordLength := if c.dataBits = 9 then usartWordLength9b else usartWordLength8b
  stopBits := if c.stopBits = 2 then usartStopBits2 else usartStopBits1
  parity := if c.parity = 1 then usartParityOdd else if c.parity = 2 then usartParityEven else usartParityNo

/-- The register writes of `UARTPort_ApplyConfig`. -/
def configure (u : Usart) (c : LineCoding) (apbclock : UInt64) : Usart :=
  let u := usartCmd u false
  let u := usartInit u (usartCfg c) apbclock
  let u := usartITConfig u usartItRxne true
  let u := usartITConfig u usartItTxe false
  usartCmd u true

def applyConfig (h : Hw) (hw : Option (Fin 4)) (cfg : MapCfg) (c : LineCoding) : Hw × VpStatus :=
  match hw with
  | none => (h, .errUartMapInvalid)
  | some u =>
    if cfg.enable = 0 ∨ cfg.txPort = 0 ∨ cfg.rxPort = 0 then (h, .errUartMapInvalid)
    else (h.modify u fun r => configure r c (h.apbclock u), .ok)

def openPort (h : Hw) (logicPort : UInt8) (baudrate : UInt32) (dataBits parity stopBits : UInt8) : Hw × VpStatus :=
  match getPort logicPort with
  | none => (h, .errInvalidParam)
  | some p =>
    let c : LineCoding := ⟨baudrate, dataBits, parity, stopBits⟩
    let r := applyConfig h (getHwDesc map logicPort) (map p) c
    (if r.2 = .ok then { r.1 with opens := (logicPort, c) :: r.1.opens } else r.1, r.2)

def close (h : Hw) (logicPort : UInt8) : Hw :=
  match getHwDesc map logicPort with
  | none => h
  | some u => h.modify u fun r => usartCmd (usartITConfig (usartITConfig r usartItRxne false) usartItTxe false) false

def tryKickTx (h : Hw) (logicPort : UInt8) : Hw :=
  match getHwDesc map logicPort with
  | none => h
  | some u => h.modify u fun r => usartITConfig r usartItTxe true

/-- The driver under the UART manager. -/
def uartPort : UartPort Hw := ⟨openPort map, close map, tryKickTx map⟩

/-! ## The interrupt handlers -/

/-- The receive half of `UARTPort_CommonIrq`. -/
def rxIrq (s : State Hw) (p : Fin uartPortCount) (u : Fin 4) (statr datar : UInt16) : State Hw :=
  if usartGetITStatus (s.hw.usart u) statr usartItRxne then
    irqRxByte s (UInt8.ofNat p) (usartReceiveData datar).toUInt8
  else s

/-- The transmit half of `UARTPort_CommonIrq`. -/
def txIrq (s : State Hw) (p : Fin uartPortCount) (u : Fin 4) (statr : UInt16) : State Hw :=
  if usartGetITStatus (s.hw.usart u) statr usartItTxe then
    match irqTxNextByte s (UInt8.ofNat p) with
    | (s, some data) => { s with hw := s.hw.modify u (usartSendData · data.toUInt16) }
    | (s, none) => { s with hw := s.hw.modify u (usartITConfig · usartItTxe false) }
  else s

/-- `UARTPort_CommonIrq` with what is read from the status and the data register. -/
def commonIrq (s : State Hw) (phyUartId : UInt8) (statr datar : UInt16) : State Hw :=
  match findLogicPortByPhy map phyUartId with
  | none => s
  | some p =>
    match getHwDesc map (UInt8.ofNat p) with
    | none => s
    | some u => txIrq (rxIrq s p u statr datar) p u statr

def usart1IrqHandler (s : State Hw) (statr datar : UInt16) : State Hw := commonIrq map s 1 statr datar
def usart2IrqHandler (s : State Hw) (statr datar : UInt16) : State Hw := commonIrq map s 2 statr datar
def usart3IrqHandler (s : State Hw) (statr datar : UInt16) : State Hw := commonIrq map s 3 statr datar
def uart4IrqHandler (s : State Hw) (statr datar : UInt16) : State Hw := commonIrq map s 4 statr datar

/-- The handler of a USART. -/
def irqHandler (s : State Hw) (u : Fin 4) (statr datar : UInt16) : State Hw :=
  commonIrq map s (UInt8.ofNat (u + 1)) statr datar

theorem irqHandler_eq (s : State Hw) (statr datar : UInt16) :
    irqHandler map s 0 statr datar = usart1IrqHandler map s statr datar ∧
      irqHandler map s 1 statr datar = usart2IrqHandler map s statr datar ∧
      irqHandler map s 2 statr datar = usart3IrqHandler map s statr datar ∧
      irqHandler map s 3 statr datar = uart4IrqHandler map s statr datar := ⟨rfl, rfl, rfl, rfl⟩

/-! ## The TXE bit -/

/-- The TXE interrupt of a USART is enabled. -/
def Usart.txeEnabled (u : Usart) : Bool := u.ctlr1 &&& itMask usartItTxe ≠ 0

theorem txeEnabled_iff (u : Usart) : u.txeEnabled = true ↔ u.ctlr1 &&& 0x80 ≠ 0 := by
  simp only [Usart.txeEnabled, decide_eq_true_eq]
  exact Iff.rfl

theorem usartITConfig_txe_enable (u : Usart) : (usartITConfig u usartItTxe true).txeEnabled = true := by
  have h : (u.ctlr1 ||| 0x80) &&& 0x80 = 0x80 := Bits.set_self (by decide) u.ctlr1
  rw [txeEnabled_iff]
  change (u.ctlr1 ||| 0x80) &&& 0x80 ≠ 0
  rw [h]
  decide

theorem configure_txeEnabled (u : Usart) (c : LineCoding) (apbclock : UInt64) :
    (configure u c apbclock).txeEnabled = false := by
  rw [← Bool.not_eq_true, txeEnabled_iff, not_not]
  unfold configure
  -- the last write that touches the bit clears it, the enable bit is another one
  have hlast (v : Usart) : (usartCmd v true).ctlr1 &&& 0x80 = v.ctlr1 &&& 0x80 := Bits.set_other (by decide) v.ctlr1
  rw [hlast]
  exact Bits.keep_none (by decide) _

@[simp] theorem usartSendData_txeEnabled (u : Usart) (data : UInt16) :
    (usartSendData u data).txeEnabled = u.txeEnabled := rfl

end UsbMux.UartHw
