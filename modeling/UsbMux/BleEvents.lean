/-
The events of the BLE library in `ble/ble_host_manager.c`: what the library
reports of devices and links, its GATT messages and its RSSI readings, each
brought to the slot it is for. With the management commands they make up the
manager's machine (`step`).

`AttLib.traced` is a library that writes down the calls made to it;
`tracedStep` is the machine with such a library and the reports of links
written down too. `BleHostMgr_X` of the source is `x` here.
-/
import UsbMux.BleGatt
import UsbMux.BleHost

namespace UsbMux

/-- What `gapRoleEvent_t` says of an advertiser; `rssi` is the byte of the signed value. -/
structure DeviceInfo where
  eventType : UInt8
  addrType : UInt8
  addr : Block UInt8 BleHost.bAddrLen
  rssi : UInt8
  dataLen : UInt8
  pEvtData : Ptr UInt8
deriving DecidableEq

/-- `gapRoleEvent_t` by opcode, with the members read under it. -/
inductive GapEvent
  | deviceInitDone
  | deviceInfo (info : DeviceInfo)
  | extAdvDeviceInfo (info : DeviceInfo)
  | deviceDiscovery
  | linkEstablished (status : UInt8) (connectionHandle : UInt16) (devAddrType : UInt8)
      (devAddr : Block UInt8 BleHost.bAddrLen)
  | linkTerminated (connectionHandle : UInt16) (reason : UInt8)
  | other
deriving DecidableEq

namespace BleHost

open Endian UsbTx BleLink

variable {β : Type}

def findSlotByConnHandle (m : Mgr) (connHandle : UInt16) : Option (Fin bleMaxLinks) :=
  (List.finRange bleMaxLinks).find? fun i => (m.slots i).connHandle == connHandle

/-! ## Reports -/

def reportConnState (link : BleLink.State β) (slot : UInt8) (connHandle : UInt16) (state : SlotState)
    (status : UInt16) (addr : Block UInt8 bAddrLen) (addrType : UInt8) : List Enqueue :=
  [.evt VpChannelType.bleConn.code slot VpBleOpcode.evtConnState.code
    (some ([slot, state.code, addrType, (getState link slot).code] ++ le16 connHandle ++ le16 status ++
      addr.toList)) 14]

def reportScanResult (info : DeviceInfo) : List Enqueue :=
  let copyLen := if info.pEvtData.isSome ∧ info.dataLen > 0 then min info.dataLen.toNat 6 else 0
  [.evt VpChannelType.bleMgmt.code 0 VpBleOpcode.evtScanRsp.code
    (some ([info.addrType, info.eventType, info.rssi, info.dataLen] ++ info.addr.toList ++
      info.pEvtData.cells copyLen ++ List.replicate (6 - copyLen) 0)) 16]

def reportRssiResult (slot : UInt8) (connHandle : UInt16) (rssi : UInt8) : List Enqueue :=
  [.evt VpChannelType.bleConn.code slot VpBleOpcode.evtRssiResult.code (some (le16 connHandle ++ [rssi, 0])) 4]

/-! ## Events -/

variable (lib : AttLib β)

def processGattMsg (s : State β) (msg : GattMsgEvent) : State β × List Enqueue :=
  match findSlotByConnHandle s.mgr msg.connHandle with
  | none => (s, [])
  | some i =>
    let r := handleGattMsg lib s.link (slotByte i) msg
    ({ s with link := r.1 }, r.2)

/-- `GAP_LINK_ESTABLISHED_EVENT` with status SUCCESS for the pending slot. -/
def linkUp (s : State β) (i : Fin bleMaxLinks) (connectionHandle : UInt16) (devAddrType : UInt8)
    (devAddr : Block UInt8 bAddrLen) : State β × List Enqueue :=
  let s : State β :=
    { mgr := s.mgr.modify i fun _ => ⟨connectionHandle, .connected, devAddrType, devAddr⟩
      link := attach lib s.link (slotByte i) connectionHandle }
  (s, reportConnState s.link (slotByte i) connectionHandle .connected bleSuccess.toUInt16 devAddr devAddrType)

/-- `GAP_LINK_ESTABLISHED_EVENT` with another status for the pending slot. -/
def linkFailed (s : State β) (i : Fin bleMaxLinks) (status : UInt8) : State β × List Enqueue :=
  let s : State β :=
    { mgr := s.mgr.modify i ({ · with state := .idle })
      link := BleLink.reset s.link (slotByte i) }
  (s, reportConnState s.link (slotByte i) gapConnhandleInit .idle status.toUInt16 (s.mgr.slots i).addr
    (s.mgr.slots i).addrType)

/-- `GAP_LINK_TERMINATED_EVENT` for the slot with the handle. The cache that is
reset with it is never read. -/
def linkDown (s : State β) (i : Fin bleMaxLinks) (connectionHandle : UInt16) (reason : UInt8) :
    State β × List Enqueue :=
  let slot := s.mgr.slots i
  let s : State β :=
    { mgr := updateState (s.mgr.modify i fun _ => ⟨gapConnhandleInit, .idle, 0, Block.fill _ 0⟩)
      link := BleLink.reset s.link (slotByte i) }
  (s, reportConnState s.link (slotByte i) connectionHandle .idle reason.toUInt16 slot.addr slot.addrType)

/-- `BleHostMgr_EventCb`; the event is there. -/
def eventCb (s : State β) : GapEvent → State β × List Enqueue
  | .deviceInitDone => ({ s with mgr := { s.mgr with state := .ready } }, [])
  | .deviceInfo info | .extAdvDeviceInfo info => (s, reportScanResult info)
  | .deviceDiscovery => ({ s with mgr := updateState { s.mgr with activeScan := 0 } }, [])
  | .linkEstablished status connectionHandle devAddrType devAddr =>
    let r := match getCtx s.mgr.pendingConnectSlot with
      | none => (s, [])
      | some i =>
        if status = bleSuccess then linkUp lib s i connectionHandle devAddrType devAddr else linkFailed s i status
    ({ r.1 with mgr := updateState { r.1.mgr with pendingConnectSlot := 0xFF } }, r.2)
  | .linkTerminated connectionHandle reason =>
    match findSlotByConnHandle s.mgr connectionHandle with
    | none => (s, [])
    | some i => linkDown s i connectionHandle reason
  | .other => (s, [])

def rssiCb (s : State β) (connHandle : UInt16) (rssi : UInt8) : List Enqueue :=
  match findSlotByConnHandle s.mgr connHandle with
  | none => []
  | some i => reportRssiResult (slotByte i) connHandle rssi

/-! ## The machine -/

/-- What reaches the manager: a management command, an event of a link or a
device, a GATT message, an RSSI reading. -/
inductive Input
  | mgmt (hdr : VpHdr) (payload : Ptr UInt8) (payloadLen : UInt16)
  | gap (evt : GapEvent)
  | gattMsg (msg : GattMsgEvent)
  | rssi (connHandle : UInt16) (rssi : UInt8)

def step : Mealy.Step (State β) Input Enqueue
  | s, .mgmt hdr payload payloadLen => handleMgmt lib.toBleLib s hdr payload payloadLen
  | s, .gap evt => eventCb lib s evt
  | s, .gattMsg msg => processGattMsg lib s msg
  | s, .rssi connHandle rssi => (s, rssiCb s connHandle rssi)

end BleHost

/-! ## The library's side written down -/

/-- The connection a call is for. -/
def LibCall.connHandle : LibCall → Option UInt16
  | .discAllPrimaryServices connHandle _ => some connHandle
  | .discAllChars connHandle .. => some connHandle
  | .discAllCharDescs connHandle .. => some connHandle
  | .readCharValue connHandle .. => some connHandle
  | .writeCharValue connHandle .. => some connHandle
  | .writeCharDesc connHandle .. => some connHandle
  | .writeNoRsp connHandle _ => some connHandle
  | .exchangeMtu connHandle .. => some connHandle
  | .setParamValue .. => none
  | .centralStartDiscovery .. => none
  | .centralCancelDiscovery => none
  | .centralEstablishLink .. => none
  | .terminateLink connHandle => some connHandle
  | .readRssiCmd connHandle => some connHandle
  | .updateLink connHandle .. => some connHandle

/-- A call with its answer, one of the three other functions that are given a
connection, or a report. -/
inductive LibEvent
  | called (c : LibCall) (status : UInt8)
  | bmAlloc (connHandle : UInt16)
  | getMtu (connHandle : UInt16)
  | handleValueCfm (connHandle : UInt16)
  | reported (evt : GapEvent)
deriving DecidableEq

/-- The connection the firmware named in it. -/
def LibEvent.connHandle : LibEvent → Option UInt16
  | .called c _ => c.connHandle
  | .bmAlloc connHandle => some connHandle
  | .getMtu connHandle => some connHandle
  | .handleValueCfm connHandle => some connHandle
  | .reported _ => none

/-- `lib`, with every call that is given a connection or answers with a status written down. -/
def AttLib.traced {β : Type} (lib : AttLib β) : AttLib (β × List LibEvent) where
  call b c := let r := lib.call b.1 c; ((r.1, b.2 ++ [.called c r.2]), r.2)
  bmAlloc b connHandle opcode len :=
    let r := lib.bmAlloc b.1 connHandle opcode len; ((r.1, b.2 ++ [.bmAlloc connHandle]), r.2)
  bmWrite b addr bytes := (lib.bmWrite b.1 addr bytes, b.2)
  bmFree b req opcode := (lib.bmFree b.1 req opcode, b.2)
  getMtu b connHandle := let r := lib.getMtu b.1 connHandle; ((r.1, b.2 ++ [.getMtu connHandle]), r.2)
  handleValueCfm b connHandle :=
    let r := lib.handleValueCfm b.1 connHandle; ((r.1, b.2 ++ [.handleValueCfm connHandle]), r.2)

namespace BleHost

open UsbTx

variable {β : Type}

/-- What has been written down. -/
def State.log (s : State (β × List LibEvent)) : List LibEvent := s.link.lib.2

/-- A report written down before the manager takes it. -/
def State.note (s : State (β × List LibEvent)) : Input → State (β × List LibEvent)
  | .gap evt => { s with link := { s.link with lib := (s.link.lib.1, s.link.lib.2 ++ [.reported evt]) } }
  | _ => s

/-- The machine over a library that writes its calls down. -/
def tracedStep (lib : AttLib β) : Mealy.Step (State (β × List LibEvent)) Input Enqueue :=
  fun s input => step lib.traced (s.note input) input

end BleHost

end UsbMux
