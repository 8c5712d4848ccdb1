/-
The GATT operations of `ble/ble_link_fsm.c` on the three link contexts, and
the part of the BLE library of `wchble.h` they call.

The library is a parameter (`BleLib`): a call changes the library's state and
answers what it likes. Eight of the nine operations start a procedure in the
same way (`startProc`); a write without response starts none. `BleLink_X` of
the source is `x` here.
-/
import Mathlib.Logic.Function.Basic
import UsbMux.TxFacts

namespace UsbMux

/-! ## The library -/

/-! Values of `bStatus_t`. -/

abbrev bleSuccess : UInt8 := 0x00
abbrev invalidParameter : UInt8 := 0x02
abbrev msgBufferNotAvail : UInt8 := 0x04
abbrev bleMemAllocError : UInt8 := 0x13
abbrev bleNotConnected : UInt8 := 0x14
abbrev blePending : UInt8 := 0x16
abbrev bleTimeout : UInt8 := 0x17

/-- `GAP_CONNHANDLE_INIT`: no connection. -/
abbrev gapConnhandleInit : UInt16 := 0xFFFE

abbrev attMtuSize : UInt16 := 23

abbrev attWriteReq : UInt8 := 0x12

/-- `attWriteReq_t`; `pValue` is the address of a buffer of the library. -/
structure WriteReq where
  handle : UInt16
  len : UInt16
  pValue : Option Nat
  sig : UInt8
  cmd : UInt8
deriving DecidableEq

/-- The library calls that answer with a `bStatus_t`. -/
inductive LibCall
  | discAllPrimaryServices (connHandle : UInt16) (taskId : UInt8)
  | discAllChars (connHandle startHandle endHandle : UInt16) (taskId : UInt8)
  | discAllCharDescs (connHandle startHandle endHandle : UInt16) (taskId : UInt8)
  | readCharValue (connHandle handle : UInt16) (taskId : UInt8)
  | writeCharValue (connHandle : UInt16) (req : WriteReq) (taskId : UInt8)
  | writeCharDesc (connHandle : UInt16) (req : WriteReq) (taskId : UInt8)
  | writeNoRsp (connHandle : UInt16) (req : WriteReq)
  | exchangeMtu (connHandle clientRxMtu : UInt16) (taskId : UInt8)
  | setParamValue (paramId paramValue : UInt16)
  | centralStartDiscovery (mode activeScan whiteList : UInt8)
  | centralCancelDiscovery
  | centralEstablishLink (highDutyCycle whiteList addrTypePeer : UInt8) (peerAddr : List UInt8)
  | terminateLink (connHandle : UInt16)
  | readRssiCmd (connHandle : UInt16)
  | updateLink (connHandle connIntervalMin connIntervalMax connLatency connTimeout : UInt16)
deriving DecidableEq

/-- The library over a state `β` of its own: calls with a status, and the
buffers of `GATT_bm_alloc`, which the firmware writes and gives back. -/
structure BleLib (β : Type) where
  call : β → LibCall → β × UInt8
  bmAlloc : β → UInt16 → UInt8 → UInt16 → β × Option Nat
  bmWrite : β → Nat → List UInt8 → β
  bmFree : β → WriteReq → UInt8 → β

namespace BleLink

open Endian UsbTx

/-! ## Link contexts -/

abbrev bleMaxLinks : Nat := 3

/-- `ble_link_state_t`. -/
inductive LinkState
  | idle | connectPending | connecting | connected | mtuExchanging | discService | discChar | discDesc
  | ready | reading | writingReq | subscribing | unsubscribing | disconnecting | error
deriving DecidableEq, Repr

def LinkState.code : LinkState → UInt8
  | .idle => 0
  | .connectPending => 1
  | .connecting => 2
  | .connected => 3
  | .mtuExchanging => 4
  | .discService => 5
  | .discChar => 6
  | .discDesc => 7
  | .ready => 8
  | .reading => 9
  | .writingReq => 10
  | .subscribing => 11
  | .unsubscribing => 12
  | .disconnecting => 13
  | .error => 14

/-- `ble_link_proc_t`. -/
inductive LinkProc
  | none | discService | discChar | discDesc | read | writeReq | subscribe | unsubscribe | exchangeMtu
deriving DecidableEq, Repr

/-- `ble_link_ctx_t`. -/
structure LinkCtx where
  slotId : UInt8
  state : LinkState
  connHandle : UInt16
  mtu : UInt16
  procBusy : UInt8
  proc : LinkProc
  procHandle : UInt16
  rangeStart : UInt16
  rangeEnd : UInt16
deriving DecidableEq

/-- `g_ble_link_ctx`, `g_ble_link_task_id` and the library. -/
structure State (β : Type) where
  links : Fin bleMaxLinks → LinkCtx
  taskId : UInt8
  lib : β

variable {β : Type}

/-- One link context changed. -/
def State.modify (s : State β) (i : Fin bleMaxLinks) (f : LinkCtx → LinkCtx) : State β :=
  { s with links := Function.update s.links i (f (s.links i)) }

def init (taskId : UInt8) (lib : β) : State β where
  links i := ⟨UInt8.ofNat i, .idle, gapConnhandleInit, attMtuSize, 0, .none, 0, 0, 0⟩
  taskId := taskId
  lib := lib

def getCtx (slot : UInt8) : Option (Fin bleMaxLinks) :=
  if h : slot.toNat < bleMaxLinks then some ⟨slot.toNat, h⟩ else none

def mapOpToState : LinkProc → LinkState
  | .discService => .discService
  | .discChar => .discChar
  | .discDesc => .discDesc
  | .read => .reading
  | .writeReq => .writingReq
  | .subscribe => .subscribing
  | .unsubscribe => .unsubscribing
  | .exchangeMtu => .mtuExchanging
  | .none => .connected

/-- `BleLink_RequireReadyCtx` of the context of a slot. -/
def requireReadyCtx (s : State β) (slot : UInt8) : Except VpStatus (Fin bleMaxLinks) :=
  match getCtx slot with
  | none => .error .errBleNotConnected
  | some i => if (s.links i).connHandle = gapConnhandleInit then .error .errBleNotConnected else .ok i

def requireIdleProc (s : State β) (i : Fin bleMaxLinks) : Except VpStatus (State β) :=
  if (s.links i).procBusy ≠ 0 then .error .errBusy else .ok (s.modify i ({ · with procBusy := 1 }))

def mapBleStatus (status : UInt8) : VpStatus :=
  if status = bleSuccess then .ok
  else if status = invalidParameter then .errInvalidParam
  else if status = bleNotConnected then .errBleNotConnected
  else if status = blePending then .errBusy
  else if status = msgBufferNotAvail ∨ status = bleMemAllocError then .errNoResource
  else if status = bleTimeout then .errTimeout
  else .errBleAtt

def beginProc (s : State β) (i : Fin bleMaxLinks) (proc : LinkProc) (procHandle rangeStart rangeEnd : UInt16) :
    State β :=
  s.modify i ({ · with
    proc := proc
    procHandle := procHandle
    rangeStart := rangeStart
    rangeEnd := rangeEnd
    state := mapOpToState proc })

def reset (s : State β) (slot : UInt8) : State β :=
  match getCtx slot with
  | none => s
  | some i => s.modify i ({ · with
      connHandle := gapConnhandleInit
      mtu := attMtuSize
      procBusy := 0
      proc := .none
      procHandle := 0
      rangeStart := 0
      rangeEnd := 0
      state := .idle })

def getState (s : State β) (slot : UInt8) : LinkState :=
  match getCtx slot with
  | none => .idle
  | some i => (s.links i).state

/-! ## Requests to the library -/

def reportWriteResult (slot : UInt8) (handle status : UInt16) (op : UInt8) : List Enqueue :=
  [.evt VpChannelType.bleConn.code slot VpBleOpcode.evtWriteResult.code
    (some (le16 handle ++ le16 status ++ [op, 0])) 6]

variable (lib : BleLib β)

def allocWriteReq (b : β) (connHandle : UInt16) (opcode : UInt8) (attrHandle : UInt16) (buf : Ptr UInt8)
    (len : UInt16) (cmd : UInt8) : β × WriteReq × UInt8 :=
  let r := lib.bmAlloc b connHandle opcode len
  let req : WriteReq := { handle := attrHandle, len := len, pValue := r.2, sig := 0, cmd := cmd }
  match r.2 with
  | none => (r.1, req, if len > 0 then bleMemAllocError else bleSuccess)
  | some addr =>
    (if buf.isSome ∧ len > 0 then lib.bmWrite r.1 addr (buf.cells len.toNat) else r.1, req, bleSuccess)

/-- The request of an operation, made once its context is known to be free:
given a connection handle and a task, it answers as the library does. -/
abbrev Submit (β : Type) := β → UInt16 → UInt8 → β × UInt8

/-- A single library call. -/
def submitCall (call : UInt16 → UInt8 → LibCall) : Submit β :=
  fun b connHandle taskId => lib.call b (call connHandle taskId)

/-- A write request: its buffer is given back if the library does not take it. -/
def submitWrite (call : UInt16 → WriteReq → UInt8 → LibCall) (attrHandle : UInt16) (buf : Ptr UInt8)
    (len : UInt16) (cmd : UInt8) : Submit β :=
  fun b connHandle taskId =>
    let a := allocWriteReq lib b connHandle attWriteReq attrHandle buf len cmd
    if a.2.2 ≠ bleSuccess then (a.1, a.2.2)
    else
      let r := lib.call a.1 (call connHandle a.2.1 taskId)
      if r.2 ≠ bleSuccess then (lib.bmFree r.1 a.2.1 attWriteReq, r.2) else r

/-! ## Operations -/

/-- The body the operations that start a procedure share: `invalid` is the
check of their own arguments, made before the procedure is claimed. -/
def startProc (s : State β) (slot : UInt8) (invalid : Prop) [Decidable invalid] (submit : Submit β)
    (proc : LinkProc) (procHandle rangeStart rangeEnd : UInt16) : State β × VpStatus :=
  match requireReadyCtx s slot with
  | .error status => (s, status)
  | .ok i =>
    if invalid then (s, .errInvalidParam)
    else match requireIdleProc s i with
      | .error status => (s, status)
      | .ok s =>
        let r := submit s.lib (s.links i).connHandle s.taskId
        let s := { s with lib := r.1 }
        if r.2 ≠ bleSuccess then (s.modify i ({ · with procBusy := 0 }), mapBleStatus r.2)
        else (beginProc s i proc procHandle rangeStart rangeEnd, .ok)

def startDiscoverServices (s : State β) (slot : UInt8) : State β × VpStatus :=
  startProc s slot False (submitCall lib .discAllPrimaryServices) .discService 0 0 0

def startDiscoverChars (s : State β) (slot : UInt8) (startHdl endHdl : UInt16) : State β × VpStatus :=
  startProc s slot (startHdl = 0 ∨ endHdl < startHdl)
    (submitCall lib fun connHandle taskId => .discAllChars connHandle startHdl endHdl taskId)
    .discChar 0 startHdl endHdl

def startDiscoverDescs (s : State β) (slot : UInt8) (startHdl endHdl : UInt16) : State β × VpStatus :=
  startProc s slot (startHdl = 0 ∨ endHdl < startHdl)
    (submitCall lib fun connHandle taskId => .discAllCharDescs connHandle startHdl endHdl taskId)
    .discDesc 0 startHdl endHdl

def read (s : State β) (slot : UInt8) (attrHandle : UInt16) : State β × VpStatus :=
  startProc s slot (attrHandle = 0)
    (submitCall lib fun connHandle taskId => .readCharValue connHandle attrHandle taskId) .read attrHandle 0 0

def writeReq (s : State β) (slot : UInt8) (attrHandle : UInt16) (buf : Ptr UInt8) (len : UInt16) :
    State β × VpStatus :=
  startProc s slot (attrHandle = 0) (submitWrite lib .writeCharValue attrHandle buf len 0) .writeReq attrHandle 0 0

/-- `cfg_notify`: `GATT_CLIENT_CFG_NOTIFY`, low byte first. -/
def cfgNotify : List UInt8 := le16 0x0001

def cfgOff : List UInt8 := [0, 0]

def subscribe (s : State β) (slot : UInt8) (cccdHandle : UInt16) : State β × VpStatus :=
  startProc s slot (cccdHandle = 0) (submitWrite lib .writeCharDesc cccdHandle (some cfgNotify) 2 0)
    .subscribe cccdHandle 0 0

def unsubscribe (s : State β) (slot : UInt8) (cccdHandle : UInt16) : State β × VpStatus :=
  startProc s slot (cccdHandle = 0) (submitWrite lib .writeCharDesc cccdHandle (some cfgOff) 2 0)
    .unsubscribe cccdHandle 0 0

def exchangeMtu (s : State β) (slot : UInt8) (mtu : UInt16) : State β × VpStatus :=
  startProc s slot (mtu < attMtuSize) (submitCall lib fun connHandle taskId => .exchangeMtu connHandle mtu taskId)
    .exchangeMtu 0 0 0

/-- `BleLink_WriteCmd`: it claims no procedure, and reports its own success. -/
def writeCmd (s : State β) (slot : UInt8) (attrHandle : UInt16) (buf : Ptr UInt8) (len : UInt16) :
    State β × VpStatus × List Enqueue :=
  match requireReadyCtx s slot with
  | .error status => (s, status, [])
  | .ok i =>
    if attrHandle = 0 then (s, .errInvalidParam, [])
    else if (s.links i).procBusy ≠ 0 then (s, .errBusy, [])
    else
      let r := submitWrite lib (fun connHandle req _ => .writeNoRsp connHandle req) attrHandle buf len 1 s.lib
        (s.links i).connHandle s.taskId
      let s := { s with lib := r.1 }
      if r.2 ≠ bleSuccess then (s, mapBleStatus r.2, [])
      else (s, .ok, reportWriteResult slot attrHandle 0 VpBleOpcode.writeCmd.code)

theorem writeCmd_events (s : State β) (slot : UInt8) (attrHandle : UInt16) (buf : Ptr UInt8) (len : UInt16) :
    ∀ call ∈ (writeCmd lib s slot attrHandle buf len).2.2, call.queue = .evt := by
  simp only [writeCmd]
  split
  · simp
  split
  · simp
  split
  · simp
  split
  · simp
  · intro call hc
    rw [List.mem_singleton.mp hc]
    rfl

end BleLink

end UsbMux
