/-
The message router of `proto/vendor_router.c`: it sends a frame's message to
the UART manager, to the BLE manager or answers it itself, by channel type,
message type and opcode. `VendorRouter_X` of the source is `x` here.
-/
import UsbMux.UartMgr
import UsbMux.BleHost

namespace UsbMux.Router

open Endian UsbTx

/-! ## The firmware behind the router -/

/-- What the managers rest on: the port driver, the BLE library and the port map. -/
structure Platform (η β : Type) where
  drv : UartMgr.UartPort η
  lib : BleLib β
  map : UartMgr.Map

/-- The two managers. -/
structure Fw (η β : Type) where
  uart : UartMgr.State η
  ble : BleHost.State β

variable {η β : Type}

/-- After `UartMgr_Init` and `BleHostMgr_Init`. -/
def init (P : Platform η β) (hw : η) (taskId : UInt8) (lib : β) : Fw η β :=
  ⟨UartMgr.init P.map hw, BleHost.init taskId lib⟩

/-! ## The system channel -/

/-- `vp_sys_opcode_t`. -/
inductive VpSysOpcode
  | getDevInfo | getCaps | getStats | clearStats | setLogLevel | getLogLevel | heartbeat | softReset
deriving DecidableEq, Repr

def VpSysOpcode.code : VpSysOpcode → UInt8
  | .getDevInfo => 0x01
  | .getCaps => 0x02
  | .getStats => 0x03
  | .clearStats => 0x04
  | .setLogLevel => 0x05
  | .getLogLevel => 0x06
  | .heartbeat => 0x07
  | .softReset => 0x08

/-- The opcode a byte stands for. -/
def VpSysOpcode.ofCode (c : UInt8) : Option VpSysOpcode :=
  [getDevInfo, getCaps, getStats, clearStats, setLogLevel, getLogLevel, heartbeat, softReset].find? (·.code == c)

/-- `g_dev_info_rsp` as `VendorRouter_Init` fills it in. -/
def devInfoRsp : List UInt8 :=
  [VP.version, 0, 1, 0, UInt8.ofNat UartMgr.uartPortCount, UInt8.ofNat BleLink.bleMaxLinks, 0, 0]

abbrev capNetReserved : UInt8 := 1

/-- `VENDOR_SYS_CAP_*` as `VendorRouter_Init` joins them. -/
def capsBitmap : UInt32 :=
  let caps := (UInt32.ofNat UartMgr.uartPortCount &&& 0x0F) ||| 0x10 ||| 0x20 ||| 0x40
  if capNetReserved ≠ 0 then caps ||| 0x100 else caps

def capsRsp : List UInt8 :=
  le32 capsBitmap ++ [UInt8.ofNat UartMgr.uartPortCount, UInt8.ofNat BleLink.bleMaxLinks, capNetReserved, 0]

/-! ## Dispatch -/

def queueStatusRsp (hdr : VpHdr) (status : VpStatus) : List Enqueue := statusRsp hdr status

/-- The opcodes of the system channel. -/
def handleSys (hdr : VpHdr) (payload : Ptr UInt8) (payloadLen : UInt16) : List Enqueue :=
  match VpSysOpcode.ofCode hdr.opcode with
  | some .getDevInfo =>
    if payloadLen ≠ 0 then queueStatusRsp hdr .errInvalidParam else [.rsp hdr .ok (some devInfoRsp) 8]
  | some .getCaps =>
    if payloadLen ≠ 0 then queueStatusRsp hdr .errInvalidParam else [.rsp hdr .ok (some capsRsp) 8]
  | some .heartbeat => [.rsp hdr .ok payload payloadLen]
  | _ => queueStatusRsp hdr .errUnsupportedOpcode

/-- `VendorRouter_Dispatch` of a header that is there: the managers after it
and the enqueue calls made. -/
def dispatch (P : Platform η β) (s : Fw η β) (hdr : VpHdr) (payload : Ptr UInt8) (payloadLen : UInt16) :
    Fw η β × List Enqueue :=
  if hdr.chType = VpChannelType.uartCtrl.code then
    if hdr.msgType ≠ VpMsgType.cmd.code then (s, queueStatusRsp hdr .errInvalidParam)
    else
      let r := UartMgr.handleCtrl P.drv P.map s.uart hdr payload payloadLen
      ({ s with uart := r.1 }, r.2)
  else if hdr.chType = VpChannelType.uartData.code then
    if hdr.msgType ≠ VpMsgType.data.code then (s, queueStatusRsp hdr .errInvalidParam)
    else ({ s with uart := (UartMgr.writeFromHost P.drv s.uart hdr.chId payload payloadLen).1 }, [])
  else if hdr.chType = VpChannelType.bleMgmt.code then
    if hdr.msgType ≠ VpMsgType.cmd.code then (s, queueStatusRsp hdr .errInvalidParam)
    else
      let r := BleHost.handleMgmt P.lib s.ble hdr payload payloadLen
      ({ s with ble := r.1 }, r.2)
  else if hdr.chType ≠ VpChannelType.sys.code ∨ hdr.chId ≠ 0 then (s, queueStatusRsp hdr .errUnsupportedCh)
  else if hdr.msgType ≠ VpMsgType.cmd.code then (s, queueStatusRsp hdr .errInvalidParam)
  else (s, handleSys hdr payload payloadLen)

/-! ## Answers -/

/-- A `DATA` message on the UART data channel, the one kind of message that
gets no response. -/
def IsUartData (hdr : VpHdr) : Prop :=
  hdr.chType = VpChannelType.uartData.code ∧ hdr.msgType = VpMsgType.data.code

instance (hdr : VpHdr) : Decidable (IsUartData hdr) := inferInstanceAs (Decidable (_ ∧ _))

/-- A heartbeat on the system channel, the one command whose response is as
long as the command. -/
def Echoes (hdr : VpHdr) : Prop :=
  hdr.chType = VpChannelType.sys.code ∧ hdr.chId = 0 ∧ hdr.msgType = VpMsgType.cmd.code ∧
    VpSysOpcode.ofCode hdr.opcode = some .heartbeat

instance (hdr : VpHdr) : Decidable (Echoes hdr) := inferInstanceAs (Decidable (_ ∧ _))

theorem dispatch_echo (P : Platform η β) (s : Fw η β) {hdr : VpHdr} (payload : Ptr UInt8) (payloadLen : UInt16)
    (h : Echoes hdr) : (dispatch P s hdr payload payloadLen).2 = [.rsp hdr .ok payload payloadLen] := by
  obtain ⟨hch, hid, hmsg, hop⟩ := h
  have hne {t : VpChannelType} (ht : t ≠ .sys) : VpChannelType.sys.code ≠ t.code := by
    revert ht; cases t <;> decide
  have h1 := hne (show VpChannelType.uartCtrl ≠ .sys by decide)
  have h2 := hne (show VpChannelType.uartData ≠ .sys by decide)
  have h3 := hne (show VpChannelType.bleMgmt ≠ .sys by decide)
  simp only [dispatch, hch, hid, hmsg, h1, h2, h3, ne_eq, not_true_eq_false, or_self, if_false, handleSys, hop]

theorem handleSys_answers {hdr : VpHdr} (payload : Ptr UInt8) (payloadLen : UInt16)
    (h : VpSysOpcode.ofCode hdr.opcode ≠ some .heartbeat) : Answers hdr 488 (handleSys hdr payload payloadLen) := by
  simp only [handleSys]
  split
  · split
    · exact answers_status hdr _
    · exact answers_single hdr _ _ (by decide)
  · split
    · exact answers_status hdr _
    · exact answers_single hdr _ _ (by decide)
  · next hop => exact absurd hop h
  · exact answers_status hdr _

/-- One dispatch: a UART data message makes no enqueue call; any other message
is answered, and within a frame unless it is a heartbeat. -/
theorem dispatch_calls (P : Platform η β) (s : Fw η β) (hdr : VpHdr) (payload : Ptr UInt8) (payloadLen : UInt16) :
    (IsUartData hdr → (dispatch P s hdr payload payloadLen).2 = []) ∧
      (¬ IsUartData hdr → ¬ Echoes hdr → Answers hdr 488 (dispatch P s hdr payload payloadLen).2) := by
  simp only [dispatch, IsUartData]
  split
  · next h =>
    refine ⟨fun hd => absurd (h.symm.trans hd.1) (by decide), ?_⟩
    intro _ _
    split
    · exact answers_status hdr _
    · exact UartMgr.handleCtrl_answers P.drv P.map s.uart hdr payload payloadLen
  split
  · next h =>
    split
    · next hm => exact ⟨fun hd => absurd hd.2 hm, fun _ _ => answers_status hdr _⟩
    · next hm => exact ⟨fun _ => rfl, fun hd => absurd ⟨h, not_not.mp hm⟩ hd⟩
  next hdata =>
  refine ⟨fun hd => absurd hd.1 hdata, ?_⟩
  intro _ hecho
  split
  · split
    · exact answers_status hdr _
    · exact BleHost.handleMgmt_answers P.lib s.ble hdr payload payloadLen
  split
  · exact answers_status hdr _
  next hch =>
  split
  · exact answers_status hdr _
  next hmsg =>
  rw [not_or, not_not, not_not] at hch
  exact handleSys_answers payload payloadLen fun hop => hecho ⟨hch.1, hch.2, not_not.mp hmsg, hop⟩

theorem dispatch_rspCalls (P : Platform η β) (s : Fw η β) {hdr : VpHdr} (payload : Ptr UInt8) (payloadLen : UInt16)
    (h : ¬ IsUartData hdr) :
    ∃ status rsp rspLen, rspCalls (dispatch P s hdr payload payloadLen).2 = [.rsp hdr status rsp rspLen] := by
  by_cases he : Echoes hdr
  · exact ⟨.ok, payload, payloadLen, by rw [dispatch_echo P s payload payloadLen he]; rfl⟩
  · exact ((dispatch_calls P s hdr payload payloadLen).2 h he).rspCalls

theorem not_isUartData_of_cmd {hdr : VpHdr} (h : hdr.msgType = VpMsgType.cmd.code) : ¬ IsUartData hdr :=
  fun hd => absurd (h.symm.trans hd.2) (by decide)

/-- **Dispatch answers once.** Whatever the state of the managers, the payload
and the answers of the port driver and the BLE library: a command, and any
other message but UART data, makes exactly one call of `USBTX_QueueRsp`, with
its header as the request; UART data makes none; and a response accepted while
the calls are made carries channel, opcode and sequence number of the request. -/
theorem dispatch_answers_once (P : Platform η β) (s : Fw η β) (hdr : VpHdr) (payload : Ptr UInt8)
    (payloadLen : UInt16) :
    let calls := (dispatch P s hdr payload payloadLen).2
    (hdr.msgType = VpMsgType.cmd.code → ∃ status rsp rspLen, rspCalls calls = [.rsp hdr status rsp rspLen]) ∧
    (IsUartData hdr → rspCalls calls = []) ∧
    (hdr.msgType ≠ VpMsgType.cmd.code → ¬ IsUartData hdr →
      ∃ status rsp rspLen, rspCalls calls = [.rsp hdr status rsp rspLen]) ∧
    ∀ c f, .queued .rsp f ∈ (enqueueAll c calls).2 → RespondsTo hdr f := by
  have hdata := (dispatch_calls P s hdr payload payloadLen).1
  have hans (h : ¬ IsUartData hdr) := dispatch_rspCalls P s payload payloadLen h
  refine ⟨fun h => hans (not_isUartData_of_cmd h), fun h => by rw [hdata h]; rfl, fun _ h => hans h,
    fun c f hf => enqueueAll_respondsTo ?_ c hf⟩
  intro call hc
  by_cases hd : IsUartData hdr
  · rw [hdata hd] at hc; cases hc
  · obtain ⟨status, rsp, rspLen, h⟩ := hans hd
    rw [h, List.mem_singleton] at hc
    exact ⟨status, rsp, rspLen, hc⟩

end UsbMux.Router
