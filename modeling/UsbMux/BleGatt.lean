/-
The GATT side of `ble/ble_link_fsm.c`: what attaches and resets a link, the
messages of the library that report results and end procedures, and over all
of it and the nine operations the invariant of a link context (`LinkOk`). A
procedure claims the context before its library call, so an operation that
fails has to give it back, and a message that ends a procedure has to be
recognised as its end; the second does not always happen.
-/
import UsbMux.Lib.Mealy
import UsbMux.BleLink

namespace UsbMux

/-! ## Messages of the library -/

abbrev bleProcedureComplete : UInt8 := 0x1A

abbrev attErrorRsp : UInt8 := 0x01
abbrev attExchangeMtuReq : UInt8 := 0x02
abbrev attExchangeMtuRsp : UInt8 := 0x03
abbrev attFindInfoReq : UInt8 := 0x04
abbrev attFindInfoRsp : UInt8 := 0x05
abbrev attReadByTypeReq : UInt8 := 0x08
abbrev attReadByTypeRsp : UInt8 := 0x09
abbrev attReadReq : UInt8 := 0x0A
abbrev attReadRsp : UInt8 := 0x0B
abbrev attReadByGrpTypeReq : UInt8 := 0x10
abbrev attReadByGrpTypeRsp : UInt8 := 0x11
abbrev attWriteRsp : UInt8 := 0x13
abbrev attHandleValueNoti : UInt8 := 0x1B
abbrev attHandleValueInd : UInt8 := 0x1D
abbrev attMtuUpdatedEvent : UInt8 := 0x7F

structure ErrorRsp where
  reqOpcode : UInt8
  handle : UInt16
  errCode : UInt8
deriving DecidableEq

structure FindInfoRsp where
  numInfo : UInt16
  format : UInt8
  pInfo : Ptr UInt8
deriving DecidableEq

structure ReadByTypeRsp where
  numPairs : UInt16
  len : UInt16
  pDataList : Ptr UInt8
deriving DecidableEq

structure ReadRsp where
  len : UInt16
  pValue : Ptr UInt8
deriving DecidableEq

structure ReadByGrpTypeRsp where
  numGrps : UInt16
  len : UInt16
  pDataList : Ptr UInt8
deriving DecidableEq

/-- `attHandleValueNoti_t` and `attHandleValueInd_t`. -/
structure HandleValue where
  handle : UInt16
  len : UInt16
  pValue : Ptr UInt8
deriving DecidableEq

/-- `gattMsgEvent_t` with the members of its union that are read here; each is
read under its own method only, so they are kept side by side. -/
structure GattMsgEvent where
  status : UInt8
  connHandle : UInt16
  method : UInt8
  errorRsp : ErrorRsp
  exchangeMtuRsp : UInt16
  findInfoRsp : FindInfoRsp
  readByTypeRsp : ReadByTypeRsp
  readRsp : ReadRsp
  readByGrpTypeRsp : ReadByGrpTypeRsp
  handleValueNoti : HandleValue
  handleValueInd : HandleValue
  mtuEvt : UInt16
deriving DecidableEq

/-- The library with the two functions of its ATT layer. -/
structure AttLib (β : Type) extends BleLib β where
  getMtu : β → UInt16 → β × UInt16
  handleValueCfm : β → UInt16 → β × UInt8

namespace BleLink

open Endian UsbTx

variable {β : Type}

/-! ## Events to the host -/

abbrev bleLinkUuidMaxLen : Nat := 16

def mapProcToOpcode : LinkProc → UInt8
  | .writeReq => VpBleOpcode.writeReq.code
  | .subscribe => VpBleOpcode.subscribe.code
  | .unsubscribe => VpBleOpcode.unsubscribe.code
  | _ => 0

/-- `BleLink_CopyUuid`: the sixteen bytes and the number of them that were copied. -/
def copyUuid (src : Ptr UInt8) (len : UInt16) : List UInt8 × UInt16 :=
  let copyLen := min len (UInt16.ofNat bleLinkUuidMaxLen)
  let copied := if src.isSome ∧ copyLen > 0 then src.cells copyLen.toNat else []
  (copied ++ List.replicate (bleLinkUuidMaxLen - copied.length) 0, copyLen)

def reportServiceFound (slot : UInt8) (startHandle endHandle status : UInt16) (uuid : Ptr UInt8) (uuidLen : UInt16) :
    List Enqueue :=
  let u := copyUuid uuid uuidLen
  [.evt VpChannelType.bleConn.code slot VpBleOpcode.evtServiceFound.code
    (some (le16 startHandle ++ le16 endHandle ++ le16 status ++ [u.2.toUInt8, 0] ++ u.1)) 24]

def reportCharFound (slot : UInt8) (declHandle valueHandle status : UInt16) (properties : UInt8) (uuid : Ptr UInt8)
    (uuidLen : UInt16) : List Enqueue :=
  let u := copyUuid uuid uuidLen
  [.evt VpChannelType.bleConn.code slot VpBleOpcode.evtCharFound.code
    (some (le16 declHandle ++ le16 valueHandle ++ le16 status ++ [properties, u.2.toUInt8] ++ u.1)) 24]

def reportDescFound (slot : UInt8) (handle status : UInt16) (uuid : Ptr UInt8) (uuidLen : UInt16) : List Enqueue :=
  let u := copyUuid uuid uuidLen
  [.evt VpChannelType.bleConn.code slot VpBleOpcode.evtDescFound.code
    (some (le16 handle ++ le16 status ++ [u.2.toUInt8, 0] ++ u.1)) 22]

/-- `BleLink_ReportReadResult`; the source leaves the bytes of a value that is
not there unset, here they are 0. -/
def reportReadResult (slot : UInt8) (handle status : UInt16) (buf : Ptr UInt8) (len : UInt16) : List Enqueue :=
  let copyLen := min len 482
  [.evt VpChannelType.bleConn.code slot VpBleOpcode.evtReadResult.code
    (some (le16 handle ++ le16 status ++ le16 copyLen ++ buf.cells copyLen.toNat)) (6 + copyLen)]

def reportValueEvent (slot opcode : UInt8) (valueHandle : UInt16) (buf : Ptr UInt8) (len : UInt16) : List Enqueue :=
  let copyLen := min len 484
  [.evt VpChannelType.bleConn.code slot opcode
    (some (le16 valueHandle ++ le16 copyLen ++ buf.cells copyLen.toNat)) (4 + copyLen)]

/-! ## Links -/

/-- `BleLink_EndProc`. -/
def endProc (s : State β) (i : Fin bleMaxLinks) (nextState : LinkState) : State β :=
  s.modify i ({ · with
    procBusy := 0
    proc := .none
    procHandle := 0
    rangeStart := 0
    rangeEnd := 0
    state := nextState })

variable (lib : AttLib β)

def attach (s : State β) (slot : UInt8) (connHandle : UInt16) : State β :=
  match getCtx slot with
  | none => s
  | some i =>
    let r := lib.getMtu s.lib connHandle
    { s with lib := r.1 }.modify i ({ · with
      connHandle := connHandle
      mtu := if r.2 = 0 then attMtuSize else r.2
      procBusy := 0
      proc := .none
      procHandle := 0
      rangeStart := 0
      rangeEnd := 0
      state := .connected })

def getMtu (s : State β) (slot : UInt8) : UInt16 :=
  match getCtx slot with
  | none => attMtuSize
  | some i => (s.links i).mtu

/-! ## Handlers of a running procedure -/

/-- `BUILD_UINT16(data[k], data[k + 1])`. -/
def buildUint16 (data : Ptr UInt8) (k : Nat) : UInt16 := ofBytes (data.cell k) (data.cell (k + 1))

/-- The loop of `BleLink_HandleDiscoverServices` over the groups still to come. -/
def reportServices (slot : UInt8) (status pairLen uuidLen : UInt16) : Nat → Ptr UInt8 → List Enqueue
  | 0, _ => []
  | n + 1, data =>
    reportServiceFound slot (buildUint16 data 0) (buildUint16 data 2) status (data.shift 4) uuidLen ++
      reportServices slot status pairLen uuidLen n (data.shift pairLen.toNat)

def handleDiscoverServices (s : State β) (i : Fin bleMaxLinks) (msg : GattMsgEvent) : State β × List Enqueue :=
  let slot := (s.links i).slotId
  let rsp := msg.readByGrpTypeRsp
  if msg.method = attReadByGrpTypeRsp ∧ rsp.numGrps > 0 ∧ rsp.len ≥ 4 then
    let uuidLen := if rsp.len > 4 then rsp.len - 4 else 0
    let evts := reportServices slot msg.status.toUInt16 rsp.len uuidLen rsp.numGrps.toNat rsp.pDataList
    (if msg.status = bleProcedureComplete ∨ msg.status = bleTimeout then endProc s i .ready else s, evts)
  else if msg.method = attErrorRsp ∧ msg.errorRsp.reqOpcode = attReadByGrpTypeReq then
    (endProc s i .ready, reportServiceFound slot 0 0 msg.errorRsp.errCode.toUInt16 none 0)
  else (s, [])

/-- The loop of `BleLink_HandleDiscoverChars`, with `last_value_handle` at its end. -/
def reportChars (slot : UInt8) (status pairLen uuidLen : UInt16) : Nat → Ptr UInt8 → UInt16 → UInt16 × List Enqueue
  | 0, _, last => (last, [])
  | n + 1, data, _ =>
    let valueHandle := buildUint16 data 3
    let r := reportChars slot status pairLen uuidLen n (data.shift pairLen.toNat) valueHandle
    (r.1, reportCharFound slot (buildUint16 data 0) valueHandle status (data.cell 2) (data.shift 5) uuidLen ++ r.2)

/-- What the two range discoveries do after their loop: they go on behind the
last handle, or end. -/
def continueRange (s : State β) (i : Fin bleMaxLinks) (msg : GattMsgEvent) (last : UInt16)
    (call : UInt16 → UInt16 → UInt16 → UInt8 → LibCall) : State β :=
  let ctx := s.links i
  if msg.status = bleSuccess ∧ last ≠ 0 ∧ last < ctx.rangeEnd then
    let r := lib.call s.lib (call ctx.connHandle (last + 1) ctx.rangeEnd s.taskId)
    let s := { s with lib := r.1 }
    if r.2 ≠ bleSuccess then endProc s i .ready else s
  else if msg.status = bleProcedureComplete ∨ msg.status = bleTimeout ∨ last ≥ ctx.rangeEnd then endProc s i .ready
  else s

def handleDiscoverChars (s : State β) (i : Fin bleMaxLinks) (msg : GattMsgEvent) : State β × List Enqueue :=
  let slot := (s.links i).slotId
  let rsp := msg.readByTypeRsp
  if msg.method = attReadByTypeRsp ∧ rsp.numPairs > 0 ∧ rsp.len ≥ 5 then
    let uuidLen := if rsp.len > 5 then rsp.len - 5 else 0
    let r := reportChars slot msg.status.toUInt16 rsp.len uuidLen rsp.numPairs.toNat rsp.pDataList 0
    (continueRange lib s i msg r.1 .discAllChars, r.2)
  else if msg.method = attErrorRsp ∧ msg.errorRsp.reqOpcode = attReadByTypeReq then
    (endProc s i .ready, reportCharFound slot 0 0 msg.errorRsp.errCode.toUInt16 0 none 0)
  else (s, [])

/-- The loop of `BleLink_HandleDiscoverDescs`, with `last_handle` at its end. -/
def reportDescs (slot : UInt8) (status pairLen : UInt16) : Nat → Ptr UInt8 → UInt16 → UInt16 × List Enqueue
  | 0, _, last => (last, [])
  | n + 1, data, _ =>
    let handle := buildUint16 data 0
    let r := reportDescs slot status pairLen n (data.shift pairLen.toNat) handle
    (r.1, reportDescFound slot handle status (data.shift 2) (pairLen - 2) ++ r.2)

def handleDiscoverDescs (s : State β) (i : Fin bleMaxLinks) (msg : GattMsgEvent) : State β × List Enqueue :=
  let slot := (s.links i).slotId
  let rsp := msg.findInfoRsp
  if msg.method = attFindInfoRsp ∧ rsp.numInfo > 0 then
    if rsp.format ≠ 0x01 ∧ rsp.format ≠ 0x02 then (endProc s i .ready, [])
    else
      let pairLen := if rsp.format = 0x01 then 4 else 18
      let r := reportDescs slot msg.status.toUInt16 pairLen rsp.numInfo.toNat rsp.pInfo 0
      (continueRange lib s i msg r.1 .discAllCharDescs, r.2)
  else if msg.method = attErrorRsp ∧ msg.errorRsp.reqOpcode = attFindInfoReq then
    (endProc s i .ready, reportDescFound slot 0 msg.errorRsp.errCode.toUInt16 none 0)
  else (s, [])

def handleReadProc (s : State β) (i : Fin bleMaxLinks) (msg : GattMsgEvent) : State β × List Enqueue :=
  let ctx := s.links i
  if msg.method = attReadRsp then
    (endProc s i .ready,
      reportReadResult ctx.slotId ctx.procHandle msg.status.toUInt16 msg.readRsp.pValue msg.readRsp.len)
  else if msg.method = attErrorRsp ∧ msg.errorRsp.reqOpcode = attReadReq then
    (endProc s i .ready, reportReadResult ctx.slotId msg.errorRsp.handle msg.errorRsp.errCode.toUInt16 none 0)
  else (s, [])

def handleWriteProc (s : State β) (i : Fin bleMaxLinks) (msg : GattMsgEvent) : State β × List Enqueue :=
  let ctx := s.links i
  if msg.method = attWriteRsp then
    (endProc s i .ready,
      reportWriteResult ctx.slotId ctx.procHandle msg.status.toUInt16 (mapProcToOpcode ctx.proc))
  else if msg.method = attErrorRsp ∧ msg.errorRsp.reqOpcode = attWriteReq then
    (endProc s i .ready, reportWriteResult ctx.slotId msg.errorRsp.handle msg.errorRsp.errCode.toUInt16
      (mapProcToOpcode ctx.proc))
  else (s, [])

def handleMtuProc (s : State β) (i : Fin bleMaxLinks) (msg : GattMsgEvent) : State β × List Enqueue :=
  if msg.method = attExchangeMtuRsp then
    (endProc (s.modify i ({ · with mtu := msg.exchangeMtuRsp })) i .ready, [])
  else if msg.method = attErrorRsp ∧ msg.errorRsp.reqOpcode = attExchangeMtuReq then (endProc s i .ready, [])
  else (s, [])

/-- `BleLink_HandleGattMsg`; the message is there. -/
def handleGattMsg (s : State β) (slot : UInt8) (msg : GattMsgEvent) : State β × List Enqueue :=
  match getCtx slot with
  | none => (s, [])
  | some i =>
    if msg.method = attMtuUpdatedEvent then (s.modify i ({ · with mtu := msg.mtuEvt }), [])
    else if msg.method = attHandleValueNoti then
      let v := msg.handleValueNoti
      (s, reportValueEvent slot VpBleOpcode.evtNotifyData.code v.handle v.pValue v.len)
    else if msg.method = attHandleValueInd then
      let v := msg.handleValueInd
      ({ s with lib := (lib.handleValueCfm s.lib msg.connHandle).1 },
        reportValueEvent slot VpBleOpcode.evtIndicateData.code v.handle v.pValue v.len)
    else if (s.links i).procBusy = 0 then (s, [])
    else match (s.links i).proc with
      | .discService => handleDiscoverServices s i msg
      | .discChar => handleDiscoverChars lib s i msg
      | .discDesc => handleDiscoverDescs lib s i msg
      | .read => handleReadProc s i msg
      | .writeReq | .subscribe | .unsubscribe => handleWriteProc s i msg
      | .exchangeMtu => handleMtuProc s i msg
      | .none => (s, [])

/-! ## The machine -/

/-- The nine operations. -/
inductive Op
  | startDiscoverServices
  | startDiscoverChars (startHdl endHdl : UInt16)
  | startDiscoverDescs (startHdl endHdl : UInt16)
  | read (attrHandle : UInt16)
  | writeReq (attrHandle : UInt16) (buf : Ptr UInt8) (len : UInt16)
  | writeCmd (attrHandle : UInt16) (buf : Ptr UInt8) (len : UInt16)
  | subscribe (cccdHandle : UInt16)
  | unsubscribe (cccdHandle : UInt16)
  | exchangeMtu (mtu : UInt16)

/-- An operation called: the status, and the events it reports itself. -/
def perform (s : State β) (slot : UInt8) : Op → State β × VpStatus × List Enqueue
  | .startDiscoverServices => let r := BleLink.startDiscoverServices lib.toBleLib s slot; (r.1, r.2, [])
  | .startDiscoverChars startHdl endHdl =>
    let r := BleLink.startDiscoverChars lib.toBleLib s slot startHdl endHdl; (r.1, r.2, [])
  | .startDiscoverDescs startHdl endHdl =>
    let r := BleLink.startDiscoverDescs lib.toBleLib s slot startHdl endHdl; (r.1, r.2, [])
  | .read attrHandle => let r := BleLink.read lib.toBleLib s slot attrHandle; (r.1, r.2, [])
  | .writeReq attrHandle buf len => let r := BleLink.writeReq lib.toBleLib s slot attrHandle buf len; (r.1, r.2, [])
  | .writeCmd attrHandle buf len => BleLink.writeCmd lib.toBleLib s slot attrHandle buf len
  | .subscribe cccdHandle => let r := BleLink.subscribe lib.toBleLib s slot cccdHandle; (r.1, r.2, [])
  | .unsubscribe cccdHandle => let r := BleLink.unsubscribe lib.toBleLib s slot cccdHandle; (r.1, r.2, [])
  | .exchangeMtu mtu => let r := BleLink.exchangeMtu lib.toBleLib s slot mtu; (r.1, r.2, [])

/-- The handle of a connection. -/
abbrev ConnHandle := { h : UInt16 // h ≠ gapConnhandleInit }

/-- A call of one of the entry points after `BleLink_Init`. -/
inductive Input
  | attach (slot : UInt8) (connHandle : ConnHandle)
  | reset (slot : UInt8)
  | perform (slot : UInt8) (op : Op)
  | gattMsg (slot : UInt8) (msg : GattMsgEvent)

/-- One call, with the events it queues. -/
def step : Mealy.Step (State β) Input Enqueue
  | s, .attach slot connHandle => (attach lib s slot connHandle.val, [])
  | s, .reset slot => (reset s slot, [])
  | s, .perform slot op => let r := perform lib s slot op; (r.1, r.2.2)
  | s, .gattMsg slot msg => handleGattMsg lib s slot msg

/-! ## The invariant -/

/-- What holds of a link context between calls. -/
structure LinkOk (c : LinkCtx) : Prop where
  claimed : c.procBusy = 0 ∨ c.procBusy = 1
  busy_iff : c.procBusy = 1 ↔ c.proc ≠ .none
  busy : c.procBusy = 1 → c.connHandle ≠ gapConnhandleInit ∧ c.state = mapOpToState c.proc
  free : c.procBusy = 0 → (c.state = .idle ∨ c.state = .connected ∨ c.state = .ready) ∧
    c.procHandle = 0 ∧ c.rangeStart = 0 ∧ c.rangeEnd = 0
  idle_iff : c.state = .idle ↔ c.connHandle = gapConnhandleInit

/-- The context of a link with a procedure begun. -/
def begun (proc : LinkProc) (procHandle rangeStart rangeEnd : UInt16) (c : LinkCtx) : LinkCtx :=
  { c with
    procBusy := 1
    proc := proc
    procHandle := procHandle
    rangeStart := rangeStart
    rangeEnd := rangeEnd
    state := mapOpToState proc }

/-- The context of a link without a procedure. -/
def ended (state : LinkState) (c : LinkCtx) : LinkCtx :=
  { c with procBusy := 0, proc := .none, procHandle := 0, rangeStart := 0, rangeEnd := 0, state := state }

section Invariant

variable {lib}

@[simp] theorem modify_links_self (s : State β) (i : Fin bleMaxLinks) (f : LinkCtx → LinkCtx) :
    (s.modify i f).links i = f (s.links i) := by simp [State.modify]

theorem modify_links_of_ne (s : State β) {i j : Fin bleMaxLinks} (f : LinkCtx → LinkCtx) (h : j ≠ i) :
    (s.modify i f).links j = s.links j := by simp [State.modify, h]

theorem linkOk_modify {s : State β} (h : ∀ j, LinkOk (s.links j)) {i : Fin bleMaxLinks} {f : LinkCtx → LinkCtx}
    (hf : LinkOk (f (s.links i))) (j : Fin bleMaxLinks) : LinkOk ((s.modify i f).links j) := by
  by_cases hj : j = i
  · subst hj
    rwa [modify_links_self]
  · rw [modify_links_of_ne _ _ hj]
    exact h j

theorem LinkOk.begun {c : LinkCtx} (hc : c.connHandle ≠ gapConnhandleInit) {proc : LinkProc} (hp : proc ≠ .none)
    (procHandle rangeStart rangeEnd : UInt16) : LinkOk (begun proc procHandle rangeStart rangeEnd c) where
  claimed := .inr rfl
  busy_iff := by simpa [BleLink.begun] using hp
  busy _ := ⟨hc, rfl⟩
  free h := absurd h (by decide : ¬ (1 : UInt8) = 0)
  idle_iff := by
    have : mapOpToState proc ≠ .idle := by cases proc <;> decide
    simp only [BleLink.begun, this, hc]

theorem LinkOk.ended {c : LinkCtx} {state : LinkState} (hs : state = .idle ∨ state = .connected ∨ state = .ready)
    (hi : state = .idle ↔ c.connHandle = gapConnhandleInit) : LinkOk (ended state c) where
  claimed := .inl rfl
  busy_iff := by simp [BleLink.ended]
  busy h := absurd h (by decide : ¬ (0 : UInt8) = 1)
  free _ := ⟨hs, rfl, rfl, rfl⟩
  idle_iff := hi

theorem LinkOk.with_mtu {c : LinkCtx} (h : LinkOk c) (mtu : UInt16) : LinkOk { c with mtu := mtu } := { h with }

theorem linkOk_init (taskId : UInt8) (b : β) (i : Fin bleMaxLinks) : LinkOk ((init taskId b).links i) where
  claimed := .inl rfl
  busy_iff := by simp [init]
  busy h := absurd h (by decide : ¬ (0 : UInt8) = 1)
  free _ := ⟨.inl rfl, rfl, rfl, rfl⟩
  idle_iff := by simp [init]

/-! ### Operations -/

/-- What an operation can do: it is refused before anything happens; the
library is called for a free context, and the contexts stay as they were; or
the library has begun a procedure. -/
inductive Performed (s : State β) (slot : UInt8) : State β × VpStatus × List Enqueue → Prop
  | refused {status : VpStatus} (h : ∀ i, getCtx slot = some i → (s.links i).connHandle ≠ gapConnhandleInit →
      status = .errInvalidParam ∨ status = .errBusy) : Performed s slot (s, status, [])
  | kept {i : Fin bleMaxLinks} (hi : getCtx slot = some i) (hb : (s.links i).procBusy = 0) {s' : State β}
      (hs : s'.links = s.links) (status : VpStatus) (evts : List Enqueue) : Performed s slot (s', status, evts)
  | begun {i : Fin bleMaxLinks} (hi : getCtx slot = some i) (hc : (s.links i).connHandle ≠ gapConnhandleInit)
      (hb : (s.links i).procBusy = 0) {proc : LinkProc} (hp : proc ≠ .none) (procHandle rangeStart rangeEnd : UInt16)
      {s' : State β} (hs : s'.links = (s.modify i (begun proc procHandle rangeStart rangeEnd)).links) :
      Performed s slot (s', .ok, [])

theorem requireReadyCtx_error {s : State β} {slot : UInt8} {status : VpStatus}
    (h : requireReadyCtx s slot = .error status) {i : Fin bleMaxLinks} (hi : getCtx slot = some i) :
    (s.links i).connHandle = gapConnhandleInit := by
  unfold requireReadyCtx at h
  rw [hi] at h
  simp only at h
  split at h
  · assumption
  · cases h

theorem requireReadyCtx_ok {s : State β} {slot : UInt8} {i : Fin bleMaxLinks} (h : requireReadyCtx s slot = .ok i) :
    getCtx slot = some i ∧ (s.links i).connHandle ≠ gapConnhandleInit := by
  unfold requireReadyCtx at h
  split at h
  · cases h
  · next j hj =>
    split at h
    · cases h
    · next hc =>
      cases h
      exact ⟨hj, hc⟩

theorem startProc_performed (s : State β) (slot : UInt8) (invalid : Prop) [Decidable invalid] (submit : Submit β)
    {proc : LinkProc} (hp : proc ≠ .none) (procHandle rangeStart rangeEnd : UInt16) :
    let r := startProc s slot invalid submit proc procHandle rangeStart rangeEnd
    Performed s slot (r.1, r.2, []) := by
  simp only [startProc]
  split
  · next status he => exact .refused fun i hi hc => absurd (requireReadyCtx_error he hi) hc
  next i he =>
  obtain ⟨hi, hc⟩ := requireReadyCtx_ok he
  by_cases hinvalid : invalid
  · rw [if_pos hinvalid]
    exact .refused fun _ _ _ => .inl rfl
  rw [if_neg hinvalid]
  by_cases hb : (s.links i).procBusy = 0
  · simp only [requireIdleProc, hb, ne_eq, not_true_eq_false, if_false]
    split
    · -- the library refuses: the claim is given back
      refine .kept hi hb ?_ _ _
      simp only [State.modify, Function.update_idem, Function.update_self, Function.update_eq_self_iff]
      rw [← hb]
    · refine .begun hi hc hb hp procHandle rangeStart rangeEnd ?_
      simp only [beginProc, State.modify, Function.update_idem, Function.update_self]
      rfl
  · simp only [requireIdleProc, hb, ne_eq, not_false_eq_true, if_true]
    exact .refused fun _ _ _ => .inr rfl

theorem writeCmd_performed (s : State β) (slot : UInt8) (attrHandle : UInt16) (buf : Ptr UInt8) (len : UInt16) :
    Performed s slot (writeCmd lib.toBleLib s slot attrHandle buf len) := by
  simp only [writeCmd]
  split
  · next status he => exact .refused fun i hi hc => absurd (requireReadyCtx_error he hi) hc
  next i he =>
  obtain ⟨hi, hc⟩ := requireReadyCtx_ok he
  split
  · exact .refused fun _ _ _ => .inl rfl
  split
  · exact .refused fun _ _ _ => .inr rfl
  next hb =>
  split
  · exact .kept hi (not_not.mp hb) (by rfl) _ _
  · exact .kept hi (not_not.mp hb) (by rfl) _ _

theorem perform_performed (lib : AttLib β) (s : State β) (slot : UInt8) (op : Op) :
    Performed s slot (perform lib s slot op) := by
  cases op with
  | writeCmd attrHandle buf len => exact writeCmd_performed s slot attrHandle buf len
  | _ => exact startProc_performed s slot _ _ (by decide) _ _ _

theorem Performed.linkOk {s : State β} {slot : UInt8} {r : State β × VpStatus × List Enqueue} (h : Performed s slot r)
    (hs : ∀ i, LinkOk (s.links i)) : ∀ i, LinkOk (r.1.links i) := by
  cases h with
  | refused => exact hs
  | kept _ _ hk => exact hk ▸ hs
  | @begun i _ hc _ _ hp _ _ _ _ hk =>
    rw [hk]
    exact linkOk_modify hs (LinkOk.begun hc hp ..)

/-! ### Links and messages -/

theorem attach_linkOk {s : State β} (hs : ∀ i, LinkOk (s.links i)) (slot : UInt8) {connHandle : UInt16}
    (hc : connHandle ≠ gapConnhandleInit) : ∀ i, LinkOk ((attach lib s slot connHandle).links i) := by
  unfold attach
  split
  · exact hs
  · next i _ =>
    have hf (mtu : UInt16) := LinkOk.ended (c := { s.links i with connHandle := connHandle, mtu := mtu })
      (.inr (.inl rfl)) (by simpa using hc)
    exact linkOk_modify (s := { s with lib := (lib.getMtu s.lib connHandle).1 }) hs (hf _)

theorem reset_linkOk {s : State β} (hs : ∀ i, LinkOk (s.links i)) (slot : UInt8) :
    ∀ i, LinkOk ((reset s slot).links i) := by
  unfold reset
  split
  · exact hs
  · next i _ =>
    have hf := LinkOk.ended (c := { s.links i with connHandle := gapConnhandleInit, mtu := attMtuSize })
      (.inl rfl) (by simp)
    exact linkOk_modify hs hf

/-- What a message can do to the contexts: nothing, a new MTU, or the end of
the procedure that runs. -/
inductive Received (s : State β) (i : Fin bleMaxLinks) (s' : State β) : Prop
  | kept (hs : s'.links = s.links)
  | mtu (mtu : UInt16) (hs : s'.links = (s.modify i ({ · with mtu := mtu })).links)
  | ended (hb : (s.links i).procBusy ≠ 0) (mtu : UInt16)
      (hs : s'.links = (s.modify i fun c => ended .ready { c with mtu := mtu }).links)

section Handlers

variable {s : State β} {i : Fin bleMaxLinks} (hb : (s.links i).procBusy ≠ 0) (msg : GattMsgEvent)

include hb

theorem received_endProc : Received s i (endProc s i .ready) := .ended hb (s.links i).mtu rfl

theorem received_continueRange (last : UInt16) (call : UInt16 → UInt16 → UInt16 → UInt8 → LibCall) :
    Received s i (continueRange lib s i msg last call) := by
  simp only [continueRange]
  split
  · split
    · exact .ended hb (s.links i).mtu rfl
    · exact .kept rfl
  · split
    · exact received_endProc hb
    · exact .kept rfl

/-- A handler takes the response it waits for, ends the procedure at an error
response to its request, and passes over any other message. -/
theorem received_handler {response error : Prop} [Decidable response] [Decidable error]
    {r : State β × List Enqueue} (hr : Received s i r.1) (evts : List Enqueue) :
    Received s i (if response then r else if error then (endProc s i .ready, evts) else (s, [])).1 := by
  split
  · exact hr
  · split
    · exact received_endProc hb
    · exact .kept rfl

theorem received_handleDiscoverServices : Received s i (handleDiscoverServices s i msg).1 := by
  refine received_handler hb ?_ _
  dsimp only
  split
  · exact received_endProc hb
  · exact .kept rfl

theorem received_handleDiscoverChars : Received s i (handleDiscoverChars lib s i msg).1 :=
  received_handler hb (received_continueRange hb ..) _

theorem received_handleDiscoverDescs : Received s i (handleDiscoverDescs lib s i msg).1 := by
  refine received_handler hb ?_ _
  split
  · exact received_endProc hb
  · exact received_continueRange hb ..

theorem received_handleReadProc : Received s i (handleReadProc s i msg).1 :=
  received_handler hb (received_endProc hb) _

theorem received_handleWriteProc : Received s i (handleWriteProc s i msg).1 :=
  received_handler hb (received_endProc hb) _

theorem received_handleMtuProc : Received s i (handleMtuProc s i msg).1 := by
  refine received_handler hb (.ended hb msg.exchangeMtuRsp ?_) _
  simp only [endProc, State.modify, Function.update_idem, Function.update_self]
  rfl

end Handlers

theorem received_handleGattMsg (s : State β) {slot : UInt8} {i : Fin bleMaxLinks} (hi : getCtx slot = some i)
    (msg : GattMsgEvent) : Received s i (handleGattMsg lib s slot msg).1 := by
  simp only [handleGattMsg, hi]
  split
  · exact .mtu msg.mtuEvt rfl
  split
  · exact .kept rfl
  split
  · exact .kept rfl
  split
  · exact .kept rfl
  next hb =>
  split
  · exact received_handleDiscoverServices hb msg
  · exact received_handleDiscoverChars hb msg
  · exact received_handleDiscoverDescs hb msg
  · exact received_handleReadProc hb msg
  · exact received_handleWriteProc hb msg
  · exact received_handleWriteProc hb msg
  · exact received_handleWriteProc hb msg
  · exact received_handleMtuProc hb msg
  · exact .kept rfl

theorem Received.linkOk {s s' : State β} {i : Fin bleMaxLinks} (h : Received s i s') (hs : ∀ j, LinkOk (s.links j)) :
    ∀ j, LinkOk (s'.links j) := by
  cases h with
  | kept hk => exact hk ▸ hs
  | mtu mtu hk => exact hk ▸ linkOk_modify hs ((hs i).with_mtu mtu)
  | ended hb mtu hk =>
    have hc := ((hs i).busy ((hs i).claimed.resolve_left hb)).1
    exact hk ▸ linkOk_modify hs (LinkOk.ended (.inr (.inr rfl)) (by simpa using hc))

theorem step_linkOk {s : State β} (hs : ∀ i, LinkOk (s.links i)) (input : Input) :
    ∀ i, LinkOk ((step lib s input).1.links i) := by
  cases input with
  | attach slot connHandle => exact attach_linkOk hs slot connHandle.property
  | reset slot => exact reset_linkOk hs slot
  | perform slot op => exact (perform_performed lib s slot op).linkOk hs
  | gattMsg slot msg =>
    cases hi : getCtx slot with
    | none => simpa only [step, handleGattMsg, hi] using hs
    | some i => exact (received_handleGattMsg s hi msg).linkOk hs

end Invariant

/-- **One procedure at a time.** In every state that attaching, resetting, the
nine operations and the messages of the library lead to, in any order and
whatever the library answers: every context is in order (`LinkOk`); an
operation with another status than OK leaves all contexts as they were; and an
operation on a busy link leaves everything as it was, the library's own state
included, and answers BUSY or INVALID_PARAM. -/
theorem one_procedure_at_a_time (taskId : UInt8) (b : β) (is : List Input) :
    let s := Mealy.run (step lib) (init taskId b) is
    (∀ i, LinkOk (s.links i)) ∧
    ∀ slot op,
      ((perform lib s slot op).2.1 ≠ .ok → (perform lib s slot op).1.links = s.links) ∧
      ∀ i, getCtx slot = some i → (s.links i).procBusy = 1 →
        ∃ status, (status = .errInvalidParam ∨ status = .errBusy) ∧ perform lib s slot op = (s, status, []) := by
  intro s
  have hs : ∀ i, LinkOk (s.links i) := Mealy.inv_run (I := fun s : State β => ∀ i, LinkOk (s.links i))
    (fun _ input h => step_linkOk h input) (linkOk_init taskId b) is
  refine ⟨hs, fun slot op => ⟨?_, ?_⟩⟩
  · intro hne
    have hp := perform_performed lib s slot op
    generalize perform lib s slot op = r at hp hne
    cases hp with
    | refused => rfl
    | kept _ _ hk => exact hk
    | begun => exact absurd rfl hne
  · intro i hi hbusy
    have hfree : (s.links i).procBusy ≠ 0 := by
      rw [hbusy]
      decide
    have hp := perform_performed lib s slot op
    generalize perform lib s slot op = r at hp
    cases hp with
    | refused h => exact ⟨_, h i hi ((hs i).busy hbusy).1, rfl⟩
    | kept hj hb =>
      cases hi.symm.trans hj
      exact absurd hb hfree
    | begun hj _ hb =>
      cases hi.symm.trans hj
      exact absurd hb hfree

/-! ## Messages that complete a procedure -/

/-- The message that `wchble.h` says completes a procedure: for the three
discoveries the response with a final status, for the others the response,
and the error response to its request for all. -/
def Completes (msg : GattMsgEvent) : LinkProc → Prop
  | .discService => (msg.method = attReadByGrpTypeRsp ∧ (msg.status = bleProcedureComplete ∨ msg.status = bleTimeout)) ∨
      (msg.method = attErrorRsp ∧ msg.errorRsp.reqOpcode = attReadByGrpTypeReq)
  | .discChar => (msg.method = attReadByTypeRsp ∧ (msg.status = bleProcedureComplete ∨ msg.status = bleTimeout)) ∨
      (msg.method = attErrorRsp ∧ msg.errorRsp.reqOpcode = attReadByTypeReq)
  | .discDesc => (msg.method = attFindInfoRsp ∧ (msg.status = bleProcedureComplete ∨ msg.status = bleTimeout)) ∨
      (msg.method = attErrorRsp ∧ msg.errorRsp.reqOpcode = attFindInfoReq)
  | .read => msg.method = attReadRsp ∨ (msg.method = attErrorRsp ∧ msg.errorRsp.reqOpcode = attReadReq)
  | .writeReq | .subscribe | .unsubscribe =>
      msg.method = attWriteRsp ∨ (msg.method = attErrorRsp ∧ msg.errorRsp.reqOpcode = attWriteReq)
  | .exchangeMtu =>
      msg.method = attExchangeMtuRsp ∨ (msg.method = attErrorRsp ∧ msg.errorRsp.reqOpcode = attExchangeMtuReq)
  | .none => False

/-- A response to a discovery in which the handler finds no result. -/
def NoResult (msg : GattMsgEvent) : LinkProc → Prop
  | .discService => msg.method = attReadByGrpTypeRsp ∧ (msg.readByGrpTypeRsp.numGrps = 0 ∨ msg.readByGrpTypeRsp.len < 4)
  | .discChar => msg.method = attReadByTypeRsp ∧ (msg.readByTypeRsp.numPairs = 0 ∨ msg.readByTypeRsp.len < 5)
  | .discDesc => msg.method = attFindInfoRsp ∧ msg.findInfoRsp.numInfo = 0
  | _ => False

/-- The next command finds the context free. -/
def Ended (c : LinkCtx) : Prop := c.procBusy = 0 ∧ c.proc = .none ∧ c.state = .ready

section Completion

variable {lib} {s : State β} {i : Fin bleMaxLinks} {msg : GattMsgEvent}

theorem ended_endProc (s : State β) (i : Fin bleMaxLinks) : Ended ((endProc s i .ready).links i) := by
  rw [endProc, modify_links_self]
  exact ⟨rfl, rfl, rfl⟩

theorem ended_continueRange (hf : msg.status = bleProcedureComplete ∨ msg.status = bleTimeout) (last : UInt16)
    (call : UInt16 → UInt16 → UInt16 → UInt8 → LibCall) : Ended ((continueRange lib s i msg last call).links i) := by
  have hne : ¬ msg.status = bleSuccess := by
    intro h
    rw [h] at hf
    exact absurd hf (by decide)
  have hfinal (p : Prop) : msg.status = bleProcedureComplete ∨ msg.status = bleTimeout ∨ p := or_assoc.mp (.inl hf)
  simp only [continueRange, hne, false_and, if_false, if_pos (hfinal _)]
  exact ended_endProc s i

theorem not_ended (hb : (s.links i).procBusy ≠ 0) : ¬ Ended (s.links i) := fun h => hb h.1

/-- What a handler asks of a response before it looks at its results. -/
theorem results_iff {n len k : UInt16} : (n > 0 ∧ len ≥ k) ↔ ¬ (n = 0 ∨ len < k) := by
  rw [not_or, UInt16.not_lt, gt_iff_lt, UInt16.pos_iff_ne_zero]

/-- A handler that wants a result from the response it waits for. -/
theorem handler_ended {response result error final : Prop} [Decidable response] [Decidable result] [Decidable error]
    {r : State β × List Enqueue} {evts : List Enqueue} (hb : (s.links i).procBusy ≠ 0)
    (hc : (response ∧ final) ∨ error) (hne : response → ¬ error) (hr : final → Ended (r.1.links i)) :
    Ended ((if response ∧ result then r else if error then (endProc s i .ready, evts) else (s, [])).1.links i) ↔
      ¬ (response ∧ ¬ result) := by
  rcases hc with ⟨hrsp, hf⟩ | herr
  · by_cases hres : result
    · rw [if_pos ⟨hrsp, hres⟩]
      exact iff_of_true (hr hf) fun h => h.2 hres
    · rw [if_neg fun h => hres h.2, if_neg (hne hrsp)]
      exact iff_of_false (not_ended hb) fun h => h ⟨hrsp, hres⟩
  · rw [if_neg fun h => hne h.1 herr, if_pos herr]
    exact iff_of_true (ended_endProc s i) fun h => hne h.1 herr

theorem handler_ended_any {response error : Prop} [Decidable response] [Decidable error] {r : State β × List Enqueue}
    {evts : List Enqueue} (hc : response ∨ error) (hr : Ended (r.1.links i)) :
    Ended ((if response then r else if error then (endProc s i .ready, evts) else (s, [])).1.links i) := by
  split
  · exact hr
  · next hrsp =>
    rw [if_pos (hc.resolve_left hrsp)]
    exact ended_endProc s i

theorem not_error {rsp : UInt8} (hr : rsp ≠ attErrorRsp) {p : Prop} (hm : msg.method = rsp) :
    ¬ (msg.method = attErrorRsp ∧ p) := fun h => hr (hm.symm.trans h.1)

theorem handleDiscoverServices_ended (hb : (s.links i).procBusy ≠ 0) (hc : Completes msg .discService) :
    Ended ((handleDiscoverServices s i msg).1.links i) ↔ ¬ NoResult msg .discService := by
  refine (handler_ended hb hc (not_error (by decide)) ?_).trans ?_
  · intro hf
    simp only [if_pos hf]
    exact ended_endProc s i
  · rw [results_iff, not_not]
    rfl

theorem handleDiscoverChars_ended (hb : (s.links i).procBusy ≠ 0) (hc : Completes msg .discChar) :
    Ended ((handleDiscoverChars lib s i msg).1.links i) ↔ ¬ NoResult msg .discChar := by
  refine (handler_ended hb hc (not_error (by decide)) ?_).trans ?_
  · intro hf
    exact ended_continueRange hf ..
  · rw [results_iff, not_not]
    rfl

theorem handleDiscoverDescs_ended (hb : (s.links i).procBusy ≠ 0) (hc : Completes msg .discDesc) :
    Ended ((handleDiscoverDescs lib s i msg).1.links i) ↔ ¬ NoResult msg .discDesc := by
  refine (handler_ended hb hc (not_error (by decide)) ?_).trans ?_
  · intro hf
    -- a format that is not known ends the discovery as well
    split
    · exact ended_endProc s i
    · exact ended_continueRange hf ..
  · rw [gt_iff_lt, UInt16.pos_iff_ne_zero, not_not]
    rfl

theorem handleReadProc_ended (hc : Completes msg .read) : Ended ((handleReadProc s i msg).1.links i) :=
  handler_ended_any hc (ended_endProc s i)

theorem handleWriteProc_ended (hc : Completes msg .writeReq) : Ended ((handleWriteProc s i msg).1.links i) :=
  handler_ended_any hc (ended_endProc s i)

theorem handleMtuProc_ended (hc : Completes msg .exchangeMtu) : Ended ((handleMtuProc s i msg).1.links i) :=
  handler_ended_any hc (ended_endProc ..)

/-- A message that completes a procedure is none of the three that are handled first. -/
theorem Completes.method {proc : LinkProc} (hc : Completes msg proc) : msg.method ≠ attMtuUpdatedEvent ∧
    msg.method ≠ attHandleValueNoti ∧ msg.method ≠ attHandleValueInd := by
  cases proc with
  | discService | discChar | discDesc =>
    rcases hc with ⟨hm, -⟩ | ⟨hm, -⟩
    all_goals
      rw [hm]
      decide
  | read | writeReq | subscribe | unsubscribe | exchangeMtu =>
    rcases hc with hm | ⟨hm, -⟩
    all_goals
      rw [hm]
      decide
  | none => exact hc.elim

end Completion

/-- **Completion.** On a link with a running procedure, a message that completes
it ends it, exactly if it is no response to a discovery without a result. -/
theorem completion_ends_iff (s : State β) {slot : UInt8} {i : Fin bleMaxLinks} (hi : getCtx slot = some i)
    (hb : (s.links i).procBusy ≠ 0) (msg : GattMsgEvent) (hc : Completes msg (s.links i).proc) :
    Ended ((handleGattMsg lib s slot msg).1.links i) ↔ ¬ NoResult msg (s.links i).proc := by
  obtain ⟨h1, h2, h3⟩ := hc.method
  simp only [handleGattMsg, hi, h1, h2, h3, hb, if_false]
  generalize hp : (s.links i).proc = proc at hc
  cases proc with
  | discService => exact handleDiscoverServices_ended hb hc
  | discChar => exact handleDiscoverChars_ended hb hc
  | discDesc => exact handleDiscoverDescs_ended hb hc
  | read => exact iff_of_true (handleReadProc_ended hc) not_false
  | writeReq => exact iff_of_true (handleWriteProc_ended hc) not_false
  | subscribe => exact iff_of_true (handleWriteProc_ended hc) not_false
  | unsubscribe => exact iff_of_true (handleWriteProc_ended hc) not_false
  | exchangeMtu => exact iff_of_true (handleMtuProc_ended hc) not_false
  | none => exact hc.elim

/-- A response to a service discovery with a status, the number of groups and what they hold. -/
def serviceRsp (status : UInt8) (numGrps : UInt16) (pDataList : Ptr UInt8) : GattMsgEvent where
  status := status
  connHandle := 1
  method := attReadByGrpTypeRsp
  errorRsp := ⟨0, 0, 0⟩
  exchangeMtuRsp := 0
  findInfoRsp := ⟨0, 0, none⟩
  readByTypeRsp := ⟨0, 0, none⟩
  readRsp := ⟨0, none⟩
  readByGrpTypeRsp := ⟨numGrps, 6, pDataList⟩
  handleValueNoti := ⟨0, 0, none⟩
  handleValueInd := ⟨0, 0, none⟩
  mtuEvt := 0

/-- A library that takes every call. -/
def willing : AttLib Unit where
  call b _ := (b, bleSuccess)
  bmAlloc b _ _ _ := (b, some 0)
  bmWrite b _ _ := b
  bmFree b _ _ := b
  getMtu b _ := (b, attMtuSize)
  handleValueCfm b _ := (b, bleSuccess)

/-- A link on which a service discovery runs. -/
def discovering : State Unit :=
  Mealy.run (step willing) (init 0 ()) [.attach 0 ⟨1, by decide⟩, .perform 0 .startDiscoverServices]

/-- Completion with the last service. -/
theorem completion_ends_iff_service :
    Ended ((handleGattMsg willing discovering 0 (serviceRsp 0x1A 1 (some [1, 0, 9, 0, 0, 24]))).1.links 0) ↔
      ¬ NoResult (serviceRsp 0x1A 1 (some [1, 0, 9, 0, 0, 24])) (discovering.links 0).proc :=
  completion_ends_iff willing discovering (i := 0) rfl (by decide) _ (.inl ⟨rfl, .inl rfl⟩)

/-- Completion without a service: the discovery stays, and the next command is refused as busy. -/
theorem empty_completion_ignored :
    let msg := serviceRsp 0x1A 0 none
    let s := (handleGattMsg willing discovering 0 msg).1
    (discovering.links 0).procBusy = 1 ∧ Completes msg (discovering.links 0).proc ∧
      ¬ Ended (s.links 0) ∧ (perform willing s 0 (.read 3)).2.1 = .errBusy := by
  refine ⟨by decide, .inl ⟨rfl, .inl rfl⟩, ?_, by decide⟩
  intro h
  exact absurd h.1 (by decide)

end BleLink

end UsbMux
