/-
What the host has written to its peers: the writes the library is asked for,
each with the connection, the attribute and the bytes that the buffer it is
given holds. They are some of those the host ordered, in the order of its
commands, whatever the library answers.
-/
import UsbMux.BlePath

namespace UsbMux

/-! ## A library that keeps a record -/

/-- The three library calls that write. -/
inductive WriteKind
  | charValue | charDesc | noRsp
deriving DecidableEq

structure Written where
  kind : WriteKind
  connHandle : UInt16
  handle : UInt16
  bytes : List UInt8
deriving DecidableEq

/-- What the buffers of the library hold, and the writes it was asked for. -/
structure Record where
  buffers : Nat → List UInt8
  writes : List Written

namespace Record

def empty : Record := ⟨fun _ => [], []⟩

/-- The bytes a request is for. -/
def content (r : Record) (req : WriteReq) : List UInt8 :=
  match req.pValue with
  | none => []
  | some addr => (r.buffers addr).take req.len.toNat

def ask (r : Record) (kind : WriteKind) (connHandle : UInt16) (req : WriteReq) : Record :=
  { r with writes := r.writes ++ [⟨kind, connHandle, req.handle, r.content req⟩] }

def note (r : Record) : LibCall → Record
  | .writeCharValue connHandle req _ => r.ask .charValue connHandle req
  | .writeCharDesc connHandle req _ => r.ask .charDesc connHandle req
  | .writeNoRsp connHandle req => r.ask .noRsp connHandle req
  | _ => r

end Record

/-- `lib`, with the buffers and the writes recorded. -/
def AttLib.recorded {β : Type} (lib : AttLib β) : AttLib (β × Record) where
  call b c := let r := lib.call b.1 c; ((r.1, b.2.note c), r.2)
  bmAlloc b connHandle opcode len := let r := lib.bmAlloc b.1 connHandle opcode len; ((r.1, b.2), r.2)
  bmWrite b addr bytes :=
    (lib.bmWrite b.1 addr bytes, { b.2 with buffers := fun a => if a = addr then bytes else b.2.buffers a })
  bmFree b req opcode := (lib.bmFree b.1 req opcode, b.2)
  getMtu b connHandle := let r := lib.getMtu b.1 connHandle; ((r.1, b.2), r.2)
  handleValueCfm b connHandle := let r := lib.handleValueCfm b.1 connHandle; ((r.1, b.2), r.2)

/-- The record goes on by some of `ws`. -/
def Record.Adds (ws : List Written) (r r' : Record) : Prop := ∃ l, r'.writes = r.writes ++ l ∧ l.Sublist ws

namespace Record

theorem Adds.refl (ws : List Written) (r : Record) : Adds ws r r :=
  ⟨[], (List.append_nil _).symm, List.nil_sublist _⟩

theorem content_none (r : Record) {req : WriteReq} (h : req.pValue = none) : r.content req = [] := by
  rw [content, h]

theorem content_some (r : Record) {req : WriteReq} {addr : Nat} (h : req.pValue = some addr) :
    r.content req = (r.buffers addr).take req.len.toNat := by
  rw [content, h]

theorem Adds.silent {ws : List Written} {r r' : Record} (h : r'.writes = r.writes) : Adds ws r r' :=
  ⟨[], by rw [h, List.append_nil], List.nil_sublist _⟩

end Record

namespace BleLink

variable {β : Type} (lib : AttLib β)

/-! ## One request -/

/-- A buffer holds what was to be written, where the request is made. -/
theorem allocWriteReq_content (b : β × Record) (connHandle : UInt16) (opcode : UInt8) (attrHandle : UInt16)
    {buf : Ptr UInt8} (hbuf : buf.isSome) (len : UInt16) (cmd : UInt8) :
    let a := allocWriteReq lib.recorded.toBleLib b connHandle opcode attrHandle buf len cmd
    a.1.2.writes = b.2.writes ∧
      (a.2.2 = bleSuccess → a.2.1.handle = attrHandle ∧ a.1.2.content a.2.1 = buf.cells len.toNat) := by
  have hzero (h : ¬ len > 0) : len.toNat = 0 := Nat.eq_zero_of_not_pos fun hp => h (UInt16.lt_iff_toNat_lt.mpr hp)
  simp only [allocWriteReq]
  split
  · next hnone =>
    by_cases hlen : len > 0
    · rw [if_pos hlen]
      exact ⟨rfl, fun hok => absurd (show bleMemAllocError = bleSuccess from hok) (by decide)⟩
    · rw [if_neg hlen]
      refine ⟨rfl, fun _ => ⟨rfl, ?_⟩⟩
      rw [Record.content_none _ hnone, hzero hlen]
      rfl
  · next addr hsome =>
    refine ⟨?_, fun _ => ⟨rfl, ?_⟩⟩
    · split <;> rfl
    · rw [Record.content_some _ hsome]
      by_cases hlen : len > 0
      · rw [if_pos ⟨hbuf, hlen⟩]
        have hput : (if addr = addr then buf.cells len.toNat else b.2.buffers addr) = buf.cells len.toNat := if_pos rfl
        exact (congrArg (List.take len.toNat) hput).trans (List.take_of_length_le (Nat.le_of_eq (Ptr.length_cells ..)))
      · rw [hzero hlen]
        rfl

/-- A write request asks for the write it is for, once or not at all. -/
theorem submitWrite_records {call : UInt16 → WriteReq → UInt8 → LibCall} {kind : WriteKind}
    (hcall : ∀ (r : Record) connHandle req taskId, r.note (call connHandle req taskId) = r.ask kind connHandle req)
    (attrHandle : UInt16) {buf : Ptr UInt8} (hbuf : buf.isSome) (len : UInt16) (cmd : UInt8) (b : β × Record)
    (connHandle : UInt16) (taskId : UInt8) :
    Record.Adds [⟨kind, connHandle, attrHandle, buf.cells len.toNat⟩] b.2
      (submitWrite lib.recorded.toBleLib call attrHandle buf len cmd b connHandle taskId).1.2 := by
  obtain ⟨hw, hok⟩ := allocWriteReq_content lib b connHandle attWriteReq attrHandle hbuf len cmd
  simp only [submitWrite]
  generalize allocWriteReq lib.recorded.toBleLib b connHandle attWriteReq attrHandle buf len cmd = a at hw hok
  split
  · exact .silent hw
  · next hs =>
    obtain ⟨hhandle, hcontent⟩ := hok (not_not.mp hs)
    have hasked : (a.1.2.note (call connHandle a.2.1 taskId)).writes =
        b.2.writes ++ [⟨kind, connHandle, attrHandle, buf.cells len.toNat⟩] := by
      rw [hcall, Record.ask, hw, hhandle, hcontent]
    split
    · exact ⟨_, hasked, List.Sublist.refl _⟩
    · exact ⟨_, hasked, List.Sublist.refl _⟩

/-! ## Operations and messages -/

theorem startProc_records {s : State (β × Record)} {slot : UInt8} {i : Fin bleMaxLinks} (hi : getCtx slot = some i)
    (invalid : Prop) [Decidable invalid] {submit : Submit (β × Record)} {ws : List Written}
    (hsub : Record.Adds ws s.lib.2 (submit s.lib (s.links i).connHandle s.taskId).1.2) (proc : LinkProc)
    (procHandle rangeStart rangeEnd : UInt16) :
    Record.Adds ws s.lib.2 (startProc s slot invalid submit proc procHandle rangeStart rangeEnd).1.lib.2 := by
  rcases startProc_lib s slot invalid submit proc procHandle rangeStart rangeEnd with hl | ⟨j, hj, hl⟩
  · rw [hl]
    exact .refl _ _
  · cases hi.symm.trans hj
    rw [hl]
    exact hsub

theorem writeCmd_records {s : State (β × Record)} {slot : UInt8} {i : Fin bleMaxLinks} (hi : getCtx slot = some i)
    (attrHandle : UInt16) {buf : Ptr UInt8} (hbuf : buf.isSome) (len : UInt16) :
    Record.Adds [⟨.noRsp, (s.links i).connHandle, attrHandle, buf.cells len.toNat⟩] s.lib.2
      (writeCmd lib.recorded.toBleLib s slot attrHandle buf len).1.lib.2 := by
  rcases writeCmd_lib lib.recorded.toBleLib s slot attrHandle buf len with hl | ⟨j, hj, hl⟩
  · rw [hl]
    exact .refl _ _
  · cases hi.symm.trans hj
    rw [hl]
    exact submitWrite_records lib (fun _ _ _ _ => rfl) attrHandle hbuf len 1 ..

theorem handleGattMsg_writes (s : State (β × Record)) (i : Fin bleMaxLinks) {slot : UInt8} (hi : getCtx slot = some i)
    (msg : GattMsgEvent) : (handleGattMsg lib.recorded s slot msg).1.lib.2.writes = s.lib.2.writes := by
  have ha := handleGattMsg_lib lib.recorded s hi msg
  generalize (handleGattMsg lib.recorded s slot msg).1.lib = b at ha
  cases ha with
  | nothing | confirmed | chars | descs => rfl

end BleLink

namespace BleHost

open Endian UsbTx BleLink

variable {β : Type}

/-! ## Commands -/

/-- The writes asked for. -/
def State.writes (s : State (β × Record)) : List Written := s.link.lib.2.writes

/-- The write a command is for, on a connection. -/
def writeOf (connHandle : UInt16) (hdr : VpHdr) (payload : Ptr UInt8) (payloadLen : UInt16) : List Written :=
  let handle := readLe16 (payload.shift 1)
  match VpBleOpcode.ofCode hdr.opcode with
  | some .writeReq => [⟨.charValue, connHandle, handle, (payload.shift 3).cells (payloadLen - 3).toNat⟩]
  | some .writeCmd => [⟨.noRsp, connHandle, handle, (payload.shift 3).cells (payloadLen - 3).toNat⟩]
  | some .subscribe => [⟨.charDesc, connHandle, handle, cfgNotify⟩]
  | some .unsubscribe => [⟨.charDesc, connHandle, handle, cfgOff⟩]
  | _ => []

/-- The write a command orders: for the connection of the slot it names. -/
def ordered (s : State β) (hdr : VpHdr) (payload : Ptr UInt8) (payloadLen : UInt16) : List Written :=
  if payloadLen < 3 then []
  else match getCtx (payload.cell 0) with
    | none => []
    | some i => writeOf (s.link.links i).connHandle hdr payload payloadLen

theorem ordered_cells (s : State β) (hdr : VpHdr) {payload : Ptr UInt8} {payloadLen : UInt16} {body : List UInt8}
    (h : payload.cells payloadLen.toNat = body) :
    ordered s hdr payload payloadLen = ordered s hdr (some body) payloadLen := by
  by_cases hlen : payloadLen < 3
  · rw [ordered, if_pos hlen, ordered, if_pos hlen]
  have h3 : 3 ≤ payloadLen.toNat := UInt16.le_iff_toNat_le.mp (UInt16.not_lt.mp hlen)
  have hcell (k : Nat) (hk : k < payloadLen.toNat) : payload.cell k = Ptr.cell (some body) k := by
    subst h
    simp [Ptr.cell, Ptr.cells, hk]
  have hle (k : Nat) (hk : k + 1 < payloadLen.toNat) :
      readLe16 (payload.shift k) = readLe16 (Ptr.shift (some body) k) := by
    rw [readLe16, readLe16, Ptr.cell_shift, Ptr.cell_shift, Ptr.cell_shift, Ptr.cell_shift, Nat.add_zero,
      hcell k (by omega), hcell (k + 1) hk]
  have hdata : (payload.shift 3).cells (payloadLen - 3).toNat =
      (Ptr.shift (some body) 3).cells (payloadLen - 3).toNat := by
    refine List.map_congr_left fun k hk => ?_
    have hsub : (payloadLen - 3).toNat = payloadLen.toNat - 3 := UInt16.toNat_sub_of_le _ _ (UInt16.not_lt.mp hlen)
    have hk := List.mem_range.mp hk
    rw [Ptr.cell_shift, Ptr.cell_shift, hcell (3 + k) (by omega)]
  rw [ordered, ordered, hcell 0 (by omega)]
  simp only [writeOf, hle 1 (by omega), hdata]

/-- A command on a connected slot is let through with a payload that names it. -/
theorem withConnectedSlot_records {s : State (β × Record)} {hdr : VpHdr} {payload : Ptr UInt8} {payloadLen : UInt16}
    {ws : List Written} (minLen : UInt16) {op : Fin bleMaxLinks → State (β × Record) × VpStatus × List Enqueue}
    (hop : ∀ i, payload.cell 0 = slotByte i → payload.isSome → payloadLen ≥ minLen →
      Record.Adds ws s.link.lib.2 (op i).1.link.lib.2) :
    Record.Adds ws s.link.lib.2 (withConnectedSlot s hdr payload payloadLen minLen op).1.link.lib.2 := by
  simp only [withConnectedSlot]
  split
  · exact .refl _ _
  next i hv =>
  split
  · next hlen =>
    refine hop i (validateConnectedSlot_ok hv).1 ?_ hlen
    cases payload with
    | some => rfl
    | none => cases hv
  · exact .refl _ _

theorem callLib_silent (lib : AttLib β) (s : State (β × Record)) {c : LibCall} (hc : ∀ r : Record, r.note c = r)
    (ws : List Written) : Record.Adds ws s.link.lib.2 (callLib lib.recorded.toBleLib s c).1.link.lib.2 :=
  .silent (congrArg Record.writes (hc _))

theorem ordered_of_slot {s : State β} {hdr : VpHdr} {payload : Ptr UInt8} {payloadLen : UInt16} {i : Fin bleMaxLinks}
    (hi : payload.cell 0 = slotByte i) (hlen : payloadLen ≥ 3) :
    ordered s hdr payload payloadLen = writeOf (s.link.links i).connHandle hdr payload payloadLen := by
  rw [ordered, if_neg (UInt16.not_lt.mpr hlen), hi]
  simp only [getCtx_slotByte]

/-- **A command** has the library asked for no write but the one it orders. -/
theorem handleMgmt_records (lib : AttLib β) (s : State (β × Record)) (hdr : VpHdr) (payload : Ptr UInt8)
    (payloadLen : UInt16) :
    Record.Adds (ordered s hdr payload payloadLen) s.link.lib.2
      (handleMgmt lib.recorded.toBleLib s hdr payload payloadLen).1.link.lib.2 := by
  have hsilent {ws : List Written} {slot : UInt8} {i : Fin bleMaxLinks} (hi : getCtx slot = some i) (invalid : Prop)
      [Decidable invalid] {call : UInt16 → UInt8 → LibCall}
      (hc : ∀ (r : Record) connHandle taskId, r.note (call connHandle taskId) = r) (proc : LinkProc)
      (procHandle rangeStart rangeEnd : UInt16) :=
    startProc_records (s := s.link) hi invalid
      (show Record.Adds ws _ (submitCall lib.recorded.toBleLib call _ _ _).1.2 from
        .silent (congrArg Record.writes (hc _ _ _))) proc procHandle rangeStart rangeEnd
  have hdata (hp : payload.isSome) : (payload.shift 3).isSome := by
    rwa [Ptr.shift, Option.isSome_map]
  simp only [handleMgmt]
  split
  · exact .refl _ _
  · simp only [setScanParam]
    split
    · exact .refl _ _
    · exact .silent rfl
  · simp only [scanStart]
    split
    · exact .refl _ _
    · split
      · exact .silent rfl
      · exact .silent rfl
  · simp only [scanStop]
    split
    · exact .silent rfl
    · exact .silent rfl
  · simp only [connect]
    split
    · exact .refl _ _
    split
    · exact .refl _ _
    next i hi =>
    obtain ⟨-, -, -, hlib⟩ := reset_slotByte s.link i
    split
    · exact .refl _ _
    · split
      · exact .silent (congrArg (fun b => b.2.writes) hlib)
      · exact .silent (congrArg (fun b => b.2.writes) hlib)
  · exact withConnectedSlot_records 0 fun i _ _ _ => callLib_silent lib s (fun _ => rfl) _
  · split
    · exact .refl _ _
    · exact .refl _ _
  · exact withConnectedSlot_records 0 fun i _ _ _ => hsilent (getCtx_slotByte i) _ (fun _ _ _ => rfl) _ _ _ _
  · exact withConnectedSlot_records 5 fun i _ _ _ => hsilent (getCtx_slotByte i) _ (fun _ _ _ => rfl) _ _ _ _
  · exact withConnectedSlot_records 5 fun i _ _ _ => hsilent (getCtx_slotByte i) _ (fun _ _ _ => rfl) _ _ _ _
  · exact withConnectedSlot_records 3 fun i _ _ _ => hsilent (getCtx_slotByte i) _ (fun _ _ _ => rfl) _ _ _ _
  · next hop =>
    refine withConnectedSlot_records 3 fun i hi hp hlen => ?_
    rw [ordered_of_slot hi hlen, writeOf, hop]
    exact startProc_records (getCtx_slotByte i) _
      (submitWrite_records lib (fun _ _ _ _ => rfl) _ (hdata hp) _ _ _ _ _) _ _ _ _
  · next hop =>
    refine withConnectedSlot_records 3 fun i hi hp hlen => ?_
    rw [ordered_of_slot hi hlen, writeOf, hop]
    exact writeCmd_records lib (getCtx_slotByte i) _ (hdata hp) _
  · next hop =>
    refine withConnectedSlot_records 3 fun i hi hp hlen => ?_
    rw [ordered_of_slot hi hlen, writeOf, hop]
    exact startProc_records (getCtx_slotByte i) _ (submitWrite_records lib (fun _ _ _ _ => rfl) _ rfl _ _ _ _ _) _ _ _ _
  · next hop =>
    refine withConnectedSlot_records 3 fun i hi hp hlen => ?_
    rw [ordered_of_slot hi hlen, writeOf, hop]
    exact startProc_records (getCtx_slotByte i) _ (submitWrite_records lib (fun _ _ _ _ => rfl) _ rfl _ _ _ _ _) _ _ _ _
  · exact withConnectedSlot_records 3 fun i _ _ _ => hsilent (getCtx_slotByte i) _ (fun _ _ _ => rfl) _ _ _ _
  · exact withConnectedSlot_records 0 fun i _ _ _ => callLib_silent lib s (fun _ => rfl) _
  · exact withConnectedSlot_records 9 fun i _ _ _ => callLib_silent lib s (fun _ => rfl) _
  · exact .refl _ _

theorem eventCb_writes (lib : AttLib β) (s : State (β × Record)) (evt : GapEvent) :
    (eventCb lib.recorded s evt).1.writes = s.writes := by
  have hreset (i : Fin bleMaxLinks) : (BleLink.reset s.link (slotByte i)).lib.2.writes = s.link.lib.2.writes := by
    rw [(reset_slotByte s.link i).2.2.2]
  cases evt with
  | deviceInitDone | deviceDiscovery | deviceInfo | extAdvDeviceInfo | other => rfl
  | linkEstablished status connectionHandle devAddrType devAddr =>
    simp only [eventCb]
    split
    · rfl
    · next i hi =>
      split
      · simp only [linkUp, State.writes, attach, getCtx_slotByte]
        rfl
      · exact hreset i
  | linkTerminated connectionHandle reason =>
    simp only [eventCb]
    split
    · rfl
    · exact hreset _

/-- The writes an input orders. -/
def orders (s : State β) : Input → List Written
  | .mgmt hdr payload payloadLen => ordered s hdr payload payloadLen
  | .gap _ | .gattMsg _ | .rssi .. => []

/-- **Every step** has the library asked for no write but the one ordered. -/
theorem step_records (lib : AttLib β) (s : State (β × Record)) (i : Input) :
    Record.Adds (orders s i) s.link.lib.2 (step lib.recorded s i).1.link.lib.2 := by
  cases i with
  | mgmt hdr payload payloadLen => exact handleMgmt_records lib s hdr payload payloadLen
  | gap evt => exact .silent (eventCb_writes lib s evt)
  | rssi connHandle rssi => exact .refl _ _
  | gattMsg msg =>
    simp only [step, processGattMsg]
    split
    · exact .refl _ _
    · next j hj => exact .silent (handleGattMsg_writes lib s.link j (getCtx_slotByte j) msg)

end BleHost

namespace Firmware

open BleHost BleLink Framing List

variable {β : Type} (lib : AttLib β) (map : UartMgr.Map)

/-- The write that a message orders. -/
def orderIn (s : State β) (e : List UInt8 × UsbRx.Dispatch) : List Written :=
  if IsBleCommand e.2.hdr then ordered s.fw.ble e.2.hdr e.2.payload e.2.payloadLen else []

/-- The writes ordered in a step. -/
def ordersIn (s : State β) (tr : List Output) : List Written := (messages tr).flatMap (orderIn s)

theorem orders_messages (s : State β) (i : Input) :
    (bleInput s i).toList.flatMap (orders s.fw.ble) = ordersIn s (step lib map s i).2 := by
  cases i with
  | gap evt | gattMsg msg | rssi connHandle rssi | usb i | txProcess => rfl
  | uart u statr datar =>
    simp only [bleInput, step]
    cases irqSends map s.fw.uart u statr datar with
    | none => rfl
    | some r => rfl
  | uartTurn p =>
    rcases uartTurn_cases lib map s p with he | ⟨chunk, rest, f, -, -, -, -, he⟩
    · rw [he]
      rfl
    · rw [he]
      rfl
  | rxTurn =>
    simp only [bleInput, step, rxTurn]
    cases UsbRx.readByte s.rx.ctx with
    | none => rfl
    | some r =>
      obtain ⟨byte, ctx⟩ := r
      dsimp only
      cases (UsbRx.processByte ctx.fsm byte).2 with
      | none => rfl
      | some d =>
        change (bleCommand d).toList.flatMap (orders s.fw.ble) = orderIn s (s.rx.taken ++ [byte], d) ++ []
        rw [bleCommand, orderIn]
        split
        · exact flatMap_cons
        · rfl

theorem step_writes (s : State (β × Record)) (i : Input) :
    Record.Adds (ordersIn s (step lib.recorded map s i).2) s.fw.ble.link.lib.2
      (step lib.recorded map s i).1.fw.ble.link.lib.2 := by
  rw [← orders_messages]
  cases hb : bleInput s i with
  | none =>
    have hble : (step lib.recorded map s i).1.fw.ble = s.fw.ble := ((ble_component lib.recorded map).skips s i hb).1
    rw [hble]
    exact .refl _ _
  | some j =>
    have hble : (step lib.recorded map s i).1.fw.ble = (BleHost.step lib.recorded s.fw.ble j).1 :=
      ((ble_component lib.recorded map).takes s i j hb).1
    rw [hble, Option.toList_some, flatMap_cons, flatMap_nil, append_nil]
    exact step_records lib s.fw.ble j

variable (hw : UartHw.Hw) (taskId : UInt8) (b : β)

/-- **Writes, end to end.** Over every run of the firmware: the writes the
library is asked for are some of those that the messages order, in order, each
with its bytes and for the connection that is then the slot's. The messages are
those in the bytes taken, and each orders what it carries unless its payload
length is beyond a frame. -/
theorem writes_in_order (is : List Input) :
    let s₀ := start lib.recorded map hw taskId (b, Record.empty)
    let s := Mealy.run (step lib.recorded map) s₀ is
    let tr := Mealy.outs (step lib.recorded map) s₀ is
    s.fw.ble.writes <+
        Mealy.readings (step lib.recorded map) (fun s i => ordersIn s (step lib.recorded map s i).2) s₀ is ∧
      (messages tr).map (fun e => (e.2.hdr, e.2.body)) = UsbRx.reference s.rx.taken ∧
      (∀ e ∈ messages tr, e.2.hdr.payloadLen.toNat ≤ 488 → ∀ m : BleHost.State (β × Record),
        ordered m e.2.hdr e.2.payload e.2.payloadLen = ordered m e.2.hdr (some e.2.body) e.2.payloadLen) ∧
      s.rx.taken <+ is.flatMap Input.delivered := by
  intro s₀ s tr
  have hparsed := parsed_run lib.recorded map hw taskId (b, Record.empty) is
  refine ⟨?_, hparsed.reference, ?_,
    (sublist_append_left _ _).trans (received_delivered lib.recorded map hw taskId (b, Record.empty) is)⟩
  · have hstep (s : State (β × Record)) (i : Input) (_ : True) :
        [] ++ (step lib.recorded map s i).1.fw.ble.writes <+
          s.fw.ble.writes ++ ordersIn s (step lib.recorded map s i).2 := by
      obtain ⟨l, hl, hsub⟩ := step_writes lib map s i
      rw [nil_append, BleHost.State.writes, hl]
      exact (Sublist.refl _).append hsub
    have hrun := Mealy.lossy_run (fun s : State (β × Record) => s.fw.ble.writes)
      (fun s i => ordersIn s (step lib.recorded map s i).2) (fun _ _ => []) (I := fun _ => True) (s := s₀)
      (fun _ _ _ => trivial) hstep trivial is
    exact (sublist_append_right _ _).trans hrun
  · intro e he hlen m
    exact ordered_cells m e.2.hdr (hparsed.payload_eq_body he hlen)

end Firmware

end UsbMux
