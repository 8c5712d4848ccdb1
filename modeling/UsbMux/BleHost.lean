/-
The BLE host manager of `ble/ble_host_manager.c`, as far as the host reaches
it: the three slots, the scan parameters and the management commands.

As in the UART manager, a handler returns the enqueue calls it makes. The
commands on a connected slot share their checks (`withConnectedSlot`), and
those with a longer branch have a definition under the name of their opcode
(`VP_BLE_SCAN_START` is `scanStart`). `BleHostMgr_X` of the source is `x` here.
-/
import UsbMux.BleLink

namespace UsbMux.BleHost

open Endian UsbTx BleLink

/-! ## The manager's state -/

/-- `BLE_SLOT_STATE_*`. -/
inductive SlotState
  | idle | connecting | connected
deriving DecidableEq, Repr

def SlotState.code : SlotState → UInt8
  | .idle => 0
  | .connecting => 1
  | .connected => 2

/-- `ble_global_state_t`. -/
inductive GlobalState
  | idle | ready | scanning | connecting | mixed | stopping
deriving DecidableEq, Repr

abbrev bAddrLen : Nat := 6

/-- `ble_link_slot_t`. -/
structure Slot where
  connHandle : UInt16
  state : SlotState
  addrType : UInt8
  addr : Block UInt8 bAddrLen
deriving DecidableEq

/-- `ble_host_mgr_t`. The task is that of the link contexts. -/
structure Mgr where
  state : GlobalState
  pendingConnectSlot : UInt8
  activeScan : UInt8
  scanMode : UInt8
  scanActive : UInt8
  scanWhiteList : UInt8
  scanInterval : UInt16
  scanWindow : UInt16
  scanDuration : UInt16
  slots : Fin bleMaxLinks → Slot

/-- `g_ble_mgr`, and the link contexts with the library. -/
structure State (β : Type) where
  mgr : Mgr
  link : BleLink.State β

variable {β : Type}

/-- The state after `BleHostMgr_Init`; `lib` is that of the library once the
calls made there have returned. -/
def init (taskId : UInt8) (lib : β) : State β where
  mgr :=
    { state := .idle
      pendingConnectSlot := 0xFF
      activeScan := 0
      scanMode := 0x03
      scanActive := 1
      scanWhiteList := 0
      scanInterval := 16
      scanWindow := 16
      scanDuration := 0
      slots := fun _ => ⟨gapConnhandleInit, .idle, 0, Block.fill _ 0⟩ }
  link := BleLink.init taskId lib

/-- One slot changed. -/
def Mgr.modify (m : Mgr) (i : Fin bleMaxLinks) (f : Slot → Slot) : Mgr :=
  { m with slots := Function.update m.slots i (f (m.slots i)) }

/-- A slot's index as the commands and the link contexts carry it. -/
def slotByte (i : Fin bleMaxLinks) : UInt8 := UInt8.ofNat i

def updateState (m : Mgr) : Mgr :=
  let connected := (m.slots 0).state = .connected ∨ (m.slots 1).state = .connected ∨ (m.slots 2).state = .connected
  { m with state :=
    if m.activeScan ≠ 0 then (if connected then .mixed else .scanning)
    else if m.pendingConnectSlot < UInt8.ofNat bleMaxLinks then .connecting
    else if connected then .mixed
    else .ready }

/-! ## Replies and checks -/

def queueStatusRsp (hdr : VpHdr) (status : VpStatus) : List Enqueue := statusRsp hdr status

/-- `BleHostMgr_MapBleStatus`, the same as `BleLink_MapBleStatus`. -/
def mapBleStatus (status : UInt8) : VpStatus := BleLink.mapBleStatus status

def readLe16 (src : Ptr UInt8) : UInt16 := ofBytes (src.cell 0) (src.cell 1)

def validateSlotPayload (payload : Ptr UInt8) (payloadLen : UInt16) : Except VpStatus (Fin bleMaxLinks) :=
  if payload.isNone ∨ payloadLen < 1 then .error .errInvalidParam
  else match getCtx (payload.cell 0) with
    | none => .error .errBleSlotInvalid
    | some i => .ok i

def validateConnectedSlot (s : State β) (payload : Ptr UInt8) (payloadLen : UInt16) :
    Except VpStatus (Fin bleMaxLinks) :=
  match validateSlotPayload payload payloadLen with
  | .error status => .error status
  | .ok i => if (s.mgr.slots i).state ≠ .connected then .error .errBleNotConnected else .ok i

def replyCap (m : Mgr) (hdr : VpHdr) : List Enqueue :=
  [.rsp hdr .ok (some ([UInt8.ofNat bleMaxLinks, 1, 1, 1] ++ le16 m.scanInterval ++ le16 m.scanWindow)) 8]

/-- The payload `BleHostMgr_ReplyConnState` sends. -/
def connStatePayload (s : State β) (i : Fin bleMaxLinks) : List UInt8 :=
  let slot := s.mgr.slots i
  [slotByte i, slot.state.code, slot.addrType, (getState s.link (slotByte i)).code] ++ le16 slot.connHandle ++
    le16 0 ++ slot.addr.toList

def replyConnState (s : State β) (hdr : VpHdr) (i : Fin bleMaxLinks) : List Enqueue :=
  [.rsp hdr .ok (some (connStatePayload s i)) 14]

variable (lib : BleLib β)

/-- A library call. -/
def callLib (s : State β) (c : LibCall) : State β × UInt8 :=
  let r := lib.call s.link.lib c
  ({ s with link := { s.link with lib := r.1 } }, r.2)

/-- What the commands on a connected slot share: the checks of the slot and of
the payload's length, and the response with the status of `op`. -/
def withConnectedSlot (s : State β) (hdr : VpHdr) (payload : Ptr UInt8) (payloadLen minLen : UInt16)
    (op : Fin bleMaxLinks → State β × VpStatus × List Enqueue) : State β × List Enqueue :=
  match validateConnectedSlot s payload payloadLen with
  | .error status => (s, queueStatusRsp hdr status)
  | .ok i =>
    if payloadLen ≥ minLen then
      let r := op i
      (r.1, r.2.2 ++ queueStatusRsp hdr r.2.1)
    else (s, queueStatusRsp hdr .errInvalidParam)

/-- An operation of the link contexts as the operation of a command. -/
def linkOp (s : State β) (r : BleLink.State β × VpStatus) : State β × VpStatus × List Enqueue :=
  ({ s with link := r.1 }, r.2, [])

/-- A library call as the operation of a command. -/
def libOp (r : State β × UInt8) : State β × VpStatus × List Enqueue := (r.1, mapBleStatus r.2, [])

/-! ## Commands -/

def setScanParam (s : State β) (hdr : VpHdr) (payload : Ptr UInt8) (payloadLen : UInt16) :
    State β × List Enqueue :=
  if payload.isNone ∨ payloadLen < 8 then (s, queueStatusRsp hdr .errInvalidParam)
  else
    let m :=
      { s.mgr with
        scanInterval := readLe16 payload
        scanWindow := readLe16 (payload.shift 2)
        scanDuration := readLe16 (payload.shift 4)
        scanMode := payload.cell 6
        scanActive := payload.cell 7
        scanWhiteList := if payloadLen ≥ 9 then payload.cell 8 else 0 }
    let s := { s with mgr := m }
    -- `TGAP_DISC_SCAN_INT`, `TGAP_DISC_SCAN_WIND`, `TGAP_DISC_SCAN`
    let s := (callLib lib s (.setParamValue 5 m.scanInterval)).1
    let s := (callLib lib s (.setParamValue 6 m.scanWindow)).1
    let s := (callLib lib s (.setParamValue 2 m.scanDuration)).1
    (s, queueStatusRsp hdr .ok)

def scanStart (s : State β) (hdr : VpHdr) : State β × List Enqueue :=
  if s.mgr.activeScan ≠ 0 then (s, queueStatusRsp hdr .errBusy)
  else
    let r := callLib lib s (.centralStartDiscovery s.mgr.scanMode s.mgr.scanActive s.mgr.scanWhiteList)
    if r.2 ≠ bleSuccess then (r.1, queueStatusRsp hdr .errBusy)
    else ({ r.1 with mgr := updateState { r.1.mgr with activeScan := 1 } }, queueStatusRsp hdr .ok)

def scanStop (s : State β) (hdr : VpHdr) : State β × List Enqueue :=
  let r := callLib lib s .centralCancelDiscovery
  if r.2 ≠ bleSuccess then (r.1, queueStatusRsp hdr .errInvalidState)
  else ({ r.1 with mgr := updateState { r.1.mgr with activeScan := 0 } }, queueStatusRsp hdr .ok)

def connect (s : State β) (hdr : VpHdr) (payload : Ptr UInt8) (payloadLen : UInt16) : State β × List Enqueue :=
  if payload.isNone ∨ payloadLen < 8 then (s, queueStatusRsp hdr .errInvalidParam)
  else match getCtx (payload.cell 0) with
    | none => (s, queueStatusRsp hdr .errBleSlotInvalid)
    | some i =>
      if s.mgr.pendingConnectSlot < UInt8.ofNat bleMaxLinks ∨ (s.mgr.slots i).state ≠ .idle then
        (s, queueStatusRsp hdr .errBusy)
      else
        let addr := (s.mgr.slots i).addr.write 0 ((payload.shift 2).cells bAddrLen)
        let s : State β :=
          { link := BleLink.reset s.link (slotByte i)
            mgr := { s.mgr with pendingConnectSlot := slotByte i }.modify i
              ({ · with state := .connecting, addrType := payload.cell 1, addr := addr }) }
        let r := callLib lib s (.centralEstablishLink 0 0 (payload.cell 1) addr.toList)
        if r.2 ≠ bleSuccess then
          ({ r.1 with mgr := { r.1.mgr with pendingConnectSlot := 0xFF }.modify i ({ · with state := .idle }) },
            queueStatusRsp hdr .errBusy)
        else ({ r.1 with mgr := updateState r.1.mgr }, queueStatusRsp hdr .ok)

/-- `BleHostMgr_HandleMgmt` of a header that is there. -/
def handleMgmt (s : State β) (hdr : VpHdr) (payload : Ptr UInt8) (payloadLen : UInt16) :
    State β × List Enqueue :=
  -- the connection handle of a slot, and the little-endian arguments after the slot's index
  let handleOf := fun i => (s.mgr.slots i).connHandle
  let arg := fun k => readLe16 (payload.shift k)
  match VpBleOpcode.ofCode hdr.opcode with
  | some .getCap => (s, replyCap s.mgr hdr)
  | some .setScanParam => setScanParam lib s hdr payload payloadLen
  | some .scanStart => scanStart lib s hdr
  | some .scanStop => scanStop lib s hdr
  | some .connect => connect lib s hdr payload payloadLen
  | some .disconnect =>
    withConnectedSlot s hdr payload payloadLen 0 fun i => libOp (callLib lib s (.terminateLink (handleOf i)))
  | some .getConnState =>
    match validateSlotPayload payload payloadLen with
    | .error status => (s, queueStatusRsp hdr status)
    | .ok i => (s, replyConnState s hdr i)
  | some .discoverServices =>
    withConnectedSlot s hdr payload payloadLen 0 fun i =>
      linkOp s (startDiscoverServices lib s.link (slotByte i))
  | some .discoverCharacteristics =>
    withConnectedSlot s hdr payload payloadLen 5 fun i =>
      linkOp s (startDiscoverChars lib s.link (slotByte i) (arg 1) (arg 3))
  | some .discoverDescriptors =>
    withConnectedSlot s hdr payload payloadLen 5 fun i =>
      linkOp s (startDiscoverDescs lib s.link (slotByte i) (arg 1) (arg 3))
  | some .read =>
    withConnectedSlot s hdr payload payloadLen 3 fun i =>
      linkOp s (BleLink.read lib s.link (slotByte i) (arg 1))
  | some .writeReq =>
    withConnectedSlot s hdr payload payloadLen 3 fun i =>
      linkOp s (BleLink.writeReq lib s.link (slotByte i) (arg 1) (payload.shift 3) (payloadLen - 3))
  | some .writeCmd =>
    withConnectedSlot s hdr payload payloadLen 3 fun i =>
      let r := BleLink.writeCmd lib s.link (slotByte i) (arg 1) (payload.shift 3) (payloadLen - 3)
      ({ s with link := r.1 }, r.2)
  | some .subscribe =>
    withConnectedSlot s hdr payload payloadLen 3 fun i =>
      linkOp s (BleLink.subscribe lib s.link (slotByte i) (arg 1))
  | some .unsubscribe =>
    withConnectedSlot s hdr payload payloadLen 3 fun i =>
      linkOp s (BleLink.unsubscribe lib s.link (slotByte i) (arg 1))
  | some .exchangeMtu =>
    withConnectedSlot s hdr payload payloadLen 3 fun i =>
      linkOp s (BleLink.exchangeMtu lib s.link (slotByte i) (arg 1))
  | some .readRssi =>
    withConnectedSlot s hdr payload payloadLen 0 fun i => libOp (callLib lib s (.readRssiCmd (handleOf i)))
  | some .updateConnParam =>
    withConnectedSlot s hdr payload payloadLen 9 fun i =>
      libOp (callLib lib s (.updateLink (handleOf i) (arg 1) (arg 3) (arg 5) (arg 7)))
  | _ => (s, queueStatusRsp hdr .errUnsupportedOpcode)

/-! ## Answers -/

theorem withConnectedSlot_answers (s : State β) (hdr : VpHdr) (payload : Ptr UInt8) (payloadLen minLen : UInt16)
    {op : Fin bleMaxLinks → State β × VpStatus × List Enqueue}
    (hop : ∀ i, ∀ call ∈ (op i).2.2, call.queue = .evt) :
    Answers hdr 488 (withConnectedSlot s hdr payload payloadLen minLen op).2 := by
  simp only [withConnectedSlot]
  split
  · exact answers_status hdr _
  · next i _ =>
    split
    · exact ⟨(op i).2.2, (op i).2.1, none, 0, hop i, by decide, rfl⟩
    · exact answers_status hdr _

/-- Every management command is answered by one response, with its own header,
whatever the library answers. -/
theorem handleMgmt_answers (s : State β) (hdr : VpHdr) (payload : Ptr UInt8) (payloadLen : UInt16) :
    Answers hdr 488 (handleMgmt lib s hdr payload payloadLen).2 := by
  have onSlot (minLen : UInt16) {op : Fin bleMaxLinks → State β × VpStatus × List Enqueue}
      (hop : ∀ i, ∀ call ∈ (op i).2.2, call.queue = .evt) :=
    withConnectedSlot_answers s hdr payload payloadLen minLen hop
  have noEvents {call : Enqueue} (h : call ∈ ([] : List Enqueue)) : call.queue = .evt := by cases h
  simp only [handleMgmt]
  split
  · exact answers_single hdr _ _ (by decide)
  · simp only [setScanParam]
    split <;> exact answers_status hdr _
  · simp only [scanStart]
    split
    · exact answers_status hdr _
    · split <;> exact answers_status hdr _
  · simp only [scanStop]
    split <;> exact answers_status hdr _
  · simp only [connect]
    split
    · exact answers_status hdr _
    split
    · exact answers_status hdr _
    split
    · exact answers_status hdr _
    split <;> exact answers_status hdr _
  · exact onSlot 0 fun _ _ => noEvents
  · split
    · exact answers_status hdr _
    · exact answers_single hdr _ _ (by decide)
  · exact onSlot 0 fun _ _ => noEvents
  · exact onSlot 5 fun _ _ => noEvents
  · exact onSlot 5 fun _ _ => noEvents
  · exact onSlot 3 fun _ _ => noEvents
  · exact onSlot 3 fun _ _ => noEvents
  · exact onSlot 3 fun i => writeCmd_events lib s.link (slotByte i) _ _ _
  · exact onSlot 3 fun _ _ => noEvents
  · exact onSlot 3 fun _ _ => noEvents
  · exact onSlot 3 fun _ _ => noEvents
  · exact onSlot 0 fun _ _ => noEvents
  · exact onSlot 9 fun _ _ => noEvents
  · exact answers_status hdr _

end UsbMux.BleHost
