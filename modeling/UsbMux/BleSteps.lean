/-
What one step of the BLE host manager can do. An operation or a message of a
link keeps to that link (`LinkOnly`) and reports on its channel; a management
command does one of four things (`Managed`) and an event one of six
(`Evented`), and nothing later unfolds them again.
-/
import UsbMux.BleEvents

namespace UsbMux

open UsbTx

variable {β : Type}

/-! ## On one link -/

namespace BleLink

/-! ### What is asked of the library -/

/-- An operation that starts a procedure makes its request, or does nothing. -/
theorem startProc_lib (s : State β) (slot : UInt8) (invalid : Prop) [Decidable invalid] (submit : Submit β)
    (proc : LinkProc) (procHandle rangeStart rangeEnd : UInt16) :
    let s' := (startProc s slot invalid submit proc procHandle rangeStart rangeEnd).1
    s'.lib = s.lib ∨
      ∃ i, getCtx slot = some i ∧ s'.lib = (submit s.lib (s.links i).connHandle s.taskId).1 := by
  simp only [startProc]
  split
  · exact .inl rfl
  next i hi =>
  split
  · exact .inl rfl
  simp only [requireIdleProc]
  split
  · exact .inl rfl
  next he =>
  split at he
  · cases he
  cases he
  refine .inr ⟨i, (requireReadyCtx_ok hi).1, ?_⟩
  split
  · simp [State.modify]
  · simp [State.modify, beginProc]

theorem writeCmd_lib (lib : BleLib β) (s : State β) (slot : UInt8) (attrHandle : UInt16) (buf : Ptr UInt8)
    (len : UInt16) :
    let s' := (writeCmd lib s slot attrHandle buf len).1
    s'.lib = s.lib ∨ ∃ i, getCtx slot = some i ∧ s'.lib = (submitWrite lib
      (fun connHandle req _ => .writeNoRsp connHandle req) attrHandle buf len 1 s.lib (s.links i).connHandle
      s.taskId).1 := by
  simp only [writeCmd]
  split
  · exact .inl rfl
  next i hi =>
  split
  · exact .inl rfl
  split
  · exact .inl rfl
  refine .inr ⟨i, (requireReadyCtx_ok hi).1, ?_⟩
  split
  · rfl
  · rfl

/-- What a message to link `i` asks of the library: nothing, the confirmation
of an indication, or the next part of a discovery. -/
inductive Asked (lib : AttLib β) (s : State β) (i : Fin bleMaxLinks) (msg : GattMsgEvent) : β → Prop
  | nothing : Asked lib s i msg s.lib
  | confirmed : Asked lib s i msg (lib.handleValueCfm s.lib msg.connHandle).1
  | chars (startHdl endHdl : UInt16) :
      Asked lib s i msg (lib.call s.lib (.discAllChars (s.links i).connHandle startHdl endHdl s.taskId)).1
  | descs (startHdl endHdl : UInt16) :
      Asked lib s i msg (lib.call s.lib (.discAllCharDescs (s.links i).connHandle startHdl endHdl s.taskId)).1

theorem continueRange_lib {lib : AttLib β} {s : State β} {i : Fin bleMaxLinks} {msg : GattMsgEvent} (last : UInt16)
    {call : UInt16 → UInt16 → UInt16 → UInt8 → LibCall}
    (hc : ∀ startHdl endHdl,
      Asked lib s i msg (lib.call s.lib (call (s.links i).connHandle startHdl endHdl s.taskId)).1) :
    Asked lib s i msg (continueRange lib s i msg last call).lib := by
  simp only [continueRange]
  split
  · split
    · exact hc _ _
    · exact hc _ _
  · split
    · exact .nothing
    · exact .nothing

theorem asked_handler {lib : AttLib β} {s : State β} {i : Fin bleMaxLinks} {msg : GattMsgEvent}
    {response error : Prop} [Decidable response] [Decidable error] {r : State β × List Enqueue}
    (hr : Asked lib s i msg r.1.lib) (evts : List Enqueue) :
    Asked lib s i msg (if response then r else if error then (endProc s i .ready, evts) else (s, [])).1.lib := by
  split
  · exact hr
  · split
    · exact .nothing
    · exact .nothing

theorem handleGattMsg_lib (lib : AttLib β) (s : State β) {slot : UInt8} {i : Fin bleMaxLinks}
    (hi : getCtx slot = some i) (msg : GattMsgEvent) : Asked lib s i msg (handleGattMsg lib s slot msg).1.lib := by
  have ended {f : LinkCtx → LinkCtx} {evts : List Enqueue} : Asked lib s i msg (s.modify i f, evts).1.lib := .nothing
  simp only [handleGattMsg, hi]
  split
  · exact .nothing
  split
  · exact .nothing
  split
  · exact .confirmed
  split
  · exact .nothing
  split
  · refine asked_handler ?_ _
    dsimp only
    split
    · exact .nothing
    · exact .nothing
  · exact asked_handler (continueRange_lib _ .chars) _
  · refine asked_handler ?_ _
    split
    · exact .nothing
    · exact continueRange_lib _ .descs
  · exact asked_handler (s := s) ended _
  · exact asked_handler (s := s) ended _
  · exact asked_handler (s := s) ended _
  · exact asked_handler (s := s) ended _
  · refine asked_handler (s := s) (i := i) ?_ _
    exact .nothing
  · exact .nothing

/-- What an operation or a message on link `i` leaves as it was, and for whom it calls the library. -/
structure LinkOnly (i : Fin bleMaxLinks) (s s' : State (β × List LibEvent)) : Prop where
  others : ∀ j, j ≠ i → s'.links j = s.links j
  handle : (s'.links i).connHandle = (s.links i).connHandle
  slotId : (s'.links i).slotId = (s.links i).slotId
  calls : ∃ new, s'.lib.2 = s.lib.2 ++ new ∧ ∀ e ∈ new, e.connHandle = some (s.links i).connHandle

variable {lib : AttLib β} {s s' : State (β × List LibEvent)} {i : Fin bleMaxLinks}

/-- Calls made for one connection only. -/
abbrev CallsFor (connHandle : UInt16) (log log' : List LibEvent) : Prop :=
  ∃ new, log' = log ++ new ∧ ∀ e ∈ new, e.connHandle = some connHandle

theorem CallsFor.refl (connHandle : UInt16) (log : List LibEvent) : CallsFor connHandle log log :=
  ⟨[], by simp, by simp⟩

theorem CallsFor.one {connHandle : UInt16} {e : LibEvent} (he : e.connHandle = some connHandle) (log : List LibEvent) :
    CallsFor connHandle log (log ++ [e]) := ⟨[e], rfl, by simpa using he⟩

theorem CallsFor.trans {connHandle : UInt16} {l l' l'' : List LibEvent} (h : CallsFor connHandle l l')
    (h' : CallsFor connHandle l' l'') : CallsFor connHandle l l'' := by
  obtain ⟨new, rfl, hnew⟩ := h
  obtain ⟨new', rfl, hnew'⟩ := h'
  refine ⟨new ++ new', by rw [List.append_assoc], ?_⟩
  intro e he
  rcases List.mem_append.mp he with he | he
  · exact hnew e he
  · exact hnew' e he

theorem CallsFor.call (lib : AttLib β) {connHandle : UInt16} {c : LibCall} (hc : c.connHandle = some connHandle)
    (b : β × List LibEvent) : CallsFor connHandle b.2 (lib.traced.call b c).1.2 := .one (e := .called c _) hc b.2

/-- A request calls for the connection it is given. -/
def CallsOwn (submit : Submit (β × List LibEvent)) : Prop :=
  ∀ b connHandle taskId, CallsFor connHandle b.2 (submit b connHandle taskId).1.2

theorem submitCall_callsOwn {call : UInt16 → UInt8 → LibCall}
    (hc : ∀ connHandle taskId, (call connHandle taskId).connHandle = some connHandle) :
    CallsOwn (submitCall lib.traced.toBleLib call) :=
  fun b connHandle taskId => .call lib (hc connHandle taskId) b

theorem allocWriteReq_calls (lib : AttLib β) (b : β × List LibEvent) (connHandle : UInt16) (opcode : UInt8)
    (attrHandle : UInt16) (buf : Ptr UInt8) (len : UInt16) (cmd : UInt8) :
    CallsFor connHandle b.2 (allocWriteReq lib.traced.toBleLib b connHandle opcode attrHandle buf len cmd).1.2 := by
  simp only [allocWriteReq]
  split
  · exact .one rfl b.2
  · split
    · exact .one rfl b.2
    · exact .one rfl b.2

theorem submitWrite_callsOwn (lib : AttLib β) (call : UInt16 → WriteReq → UInt8 → LibCall)
    (hc : ∀ connHandle req taskId, (call connHandle req taskId).connHandle = some connHandle) (attrHandle : UInt16)
    (buf : Ptr UInt8) (len : UInt16) (cmd : UInt8) :
    CallsOwn (submitWrite lib.traced.toBleLib call attrHandle buf len cmd) := by
  intro b connHandle taskId
  have ha := allocWriteReq_calls lib b connHandle attWriteReq attrHandle buf len cmd
  simp only [submitWrite]
  split
  · exact ha
  · refine ha.trans ?_
    split
    · exact .call lib (hc ..) _
    · exact .call lib (hc ..) _

theorem startProc_calls {slot : UInt8} (hi : getCtx slot = some i) (invalid : Prop) [Decidable invalid]
    {submit : Submit (β × List LibEvent)} (hsub : CallsOwn submit) (proc : LinkProc)
    (procHandle rangeStart rangeEnd : UInt16) :
    CallsFor (s.links i).connHandle s.lib.2
      (startProc s slot invalid submit proc procHandle rangeStart rangeEnd).1.lib.2 := by
  rcases startProc_lib s slot invalid submit proc procHandle rangeStart rangeEnd with hl | ⟨j, hj, hl⟩
  · rw [hl]
    exact .refl _ _
  · cases hi.symm.trans hj
    rw [hl]
    exact hsub ..

theorem writeCmd_calls {slot : UInt8} (hi : getCtx slot = some i) (attrHandle : UInt16) (buf : Ptr UInt8)
    (len : UInt16) :
    CallsFor (s.links i).connHandle s.lib.2 (writeCmd lib.traced.toBleLib s slot attrHandle buf len).1.lib.2 := by
  rcases writeCmd_lib lib.traced.toBleLib s slot attrHandle buf len with hl | ⟨j, hj, hl⟩
  · rw [hl]
    exact .refl _ _
  · cases hi.symm.trans hj
    rw [hl]
    exact submitWrite_callsOwn lib _ (fun _ _ _ => rfl) ..

theorem perform_calls (lib : AttLib β) {slot : UInt8} (hi : getCtx slot = some i) (op : Op) :
    CallsFor (s.links i).connHandle s.lib.2 (perform lib.traced s slot op).1.lib.2 := by
  cases op with
  | writeCmd attrHandle buf len => exact writeCmd_calls hi attrHandle buf len
  | writeReq | subscribe | unsubscribe =>
    refine startProc_calls hi _ ?_ _ _ _ _
    exact submitWrite_callsOwn lib _ (fun _ _ _ => rfl) _ _ _ _
  | _ =>
    refine startProc_calls hi _ ?_ _ _ _ _
    exact submitCall_callsOwn fun _ _ => rfl

/-- **Operations** keep to their link. -/
theorem perform_linkOnly (lib : AttLib β) (s : State (β × List LibEvent)) {slot : UInt8} (hi : getCtx slot = some i)
    (op : Op) : LinkOnly i s (perform lib.traced s slot op).1 := by
  have hcalls := perform_calls lib (s := s) hi op
  have hp := perform_performed lib.traced s slot op
  generalize perform lib.traced s slot op = r at hcalls hp
  cases hp with
  | refused => exact ⟨fun _ _ => rfl, rfl, rfl, hcalls⟩
  | kept _ _ hs => exact ⟨fun j _ => congrFun hs j, by rw [hs], by rw [hs], hcalls⟩
  | begun hj _ _ _ _ _ _ hs =>
    cases hi.symm.trans hj
    refine ⟨fun j hne => by rw [hs, modify_links_of_ne _ _ hne], ?_, ?_, hcalls⟩
    · rw [hs, modify_links_self]
      rfl
    · rw [hs, modify_links_self]
      rfl

theorem handleGattMsg_calls (lib : AttLib β) {slot : UInt8} (hi : getCtx slot = some i) {msg : GattMsgEvent}
    (hm : msg.connHandle = (s.links i).connHandle) :
    CallsFor (s.links i).connHandle s.lib.2 (handleGattMsg lib.traced s slot msg).1.lib.2 := by
  have ha := handleGattMsg_lib lib.traced s hi msg
  generalize (handleGattMsg lib.traced s slot msg).1.lib = b at ha
  cases ha with
  | nothing => exact .refl _ _
  | confirmed => exact .one (e := .handleValueCfm msg.connHandle) (congrArg some hm) _
  | chars => exact .call lib rfl _
  | descs => exact .call lib rfl _

/-- **Messages** keep to the link they are for. -/
theorem handleGattMsg_linkOnly (lib : AttLib β) {slot : UInt8} (hi : getCtx slot = some i) {msg : GattMsgEvent}
    (hm : msg.connHandle = (s.links i).connHandle) : LinkOnly i s (handleGattMsg lib.traced s slot msg).1 := by
  have hcalls := handleGattMsg_calls lib hi hm
  have hr : Received s i (handleGattMsg lib.traced s slot msg).1 := received_handleGattMsg s hi msg
  generalize (handleGattMsg lib.traced s slot msg).1 = s' at hcalls hr
  cases hr with
  | kept hs => exact ⟨fun j _ => congrFun hs j, by rw [hs], by rw [hs], hcalls⟩
  | mtu _ hs | ended _ _ hs =>
    refine ⟨fun j hne => by rw [hs, modify_links_of_ne _ _ hne], ?_, ?_, hcalls⟩
    all_goals
      rw [hs, modify_links_self]
      first | done | rfl

/-! ### Events of a link -/

/-- An event on the channel of a slot. -/
def ForSlot (slot : UInt8) (call : Enqueue) : Prop :=
  ∃ opcode payload len, call = .evt VpChannelType.bleConn.code slot opcode payload len

theorem reportServices_forSlot (slot : UInt8) (status pairLen uuidLen : UInt16) (n : Nat) (data : Ptr UInt8) :
    ∀ call ∈ reportServices slot status pairLen uuidLen n data, ForSlot slot call := by
  induction n generalizing data with
  | zero => simp [reportServices]
  | succ n ih =>
    intro call hc
    rcases List.mem_cons.mp hc with rfl | hc
    · exact ⟨_, _, _, rfl⟩
    · exact ih _ call hc

theorem reportChars_forSlot (slot : UInt8) (status pairLen uuidLen : UInt16) (n : Nat) (data : Ptr UInt8)
    (last : UInt16) : ∀ call ∈ (reportChars slot status pairLen uuidLen n data last).2, ForSlot slot call := by
  induction n generalizing data last with
  | zero => simp [reportChars]
  | succ n ih =>
    intro call hc
    rcases List.mem_cons.mp hc with rfl | hc
    · exact ⟨_, _, _, rfl⟩
    · exact ih _ _ call hc

theorem reportDescs_forSlot (slot : UInt8) (status pairLen : UInt16) (n : Nat) (data : Ptr UInt8) (last : UInt16) :
    ∀ call ∈ (reportDescs slot status pairLen n data last).2, ForSlot slot call := by
  induction n generalizing data last with
  | zero => simp [reportDescs]
  | succ n ih =>
    intro call hc
    rcases List.mem_cons.mp hc with rfl | hc
    · exact ⟨_, _, _, rfl⟩
    · exact ih _ _ call hc

theorem forSlot_single {slot opcode : UInt8} {payload : Ptr UInt8} {len : UInt16} :
    ∀ call ∈ [Enqueue.evt VpChannelType.bleConn.code slot opcode payload len], ForSlot slot call := by
  intro call hc
  exact ⟨opcode, payload, len, List.mem_singleton.mp hc⟩

theorem forSlot_handler {slot : UInt8} {response error : Prop} [Decidable response] [Decidable error]
    {r : State β × List Enqueue} {s' s'' : State β} {evts : List Enqueue} (hr : ∀ call ∈ r.2, ForSlot slot call)
    (he : ∀ call ∈ evts, ForSlot slot call) :
    ∀ call ∈ (if response then r else if error then (s', evts) else (s'', [])).2, ForSlot slot call := by
  split
  · exact hr
  · split
    · exact he
    · simp

theorem handleGattMsg_forSlot (lib : AttLib β) (s : State β) {slot : UInt8} (hi : getCtx slot = some i)
    (hslot : (s.links i).slotId = slot) (msg : GattMsgEvent) :
    ∀ call ∈ (handleGattMsg lib s slot msg).2, ForSlot slot call := by
  simp only [handleGattMsg, hi]
  split
  · simp
  split
  · exact forSlot_single
  split
  · exact forSlot_single
  split
  · simp
  subst hslot
  split
  · exact forSlot_handler (reportServices_forSlot _ _ _ _ _ _) forSlot_single
  · exact forSlot_handler (reportChars_forSlot _ _ _ _ _ _ _) forSlot_single
  · refine forSlot_handler ?_ forSlot_single
    split
    · simp
    · exact reportDescs_forSlot _ _ _ _ _ _
  · exact forSlot_handler forSlot_single forSlot_single
  · exact forSlot_handler forSlot_single forSlot_single
  · exact forSlot_handler forSlot_single forSlot_single
  · exact forSlot_handler forSlot_single forSlot_single
  · exact forSlot_handler (by simp) (by simp)
  · simp

theorem writeCmd_forSlot (lib : BleLib β) (s : State β) (slot : UInt8) (attrHandle : UInt16) (buf : Ptr UInt8)
    (len : UInt16) : ∀ call ∈ (writeCmd lib s slot attrHandle buf len).2.2, ForSlot slot call := by
  simp only [writeCmd]
  split
  · simp
  split
  · simp
  split
  · simp
  split
  · simp
  · exact forSlot_single

theorem perform_forSlot (lib : AttLib β) (s : State β) (slot : UInt8) (op : Op) :
    ∀ call ∈ (perform lib s slot op).2.2, ForSlot slot call := by
  cases op with
  | writeCmd attrHandle buf len => exact writeCmd_forSlot lib.toBleLib s slot attrHandle buf len
  | startDiscoverServices | startDiscoverChars | startDiscoverDescs | read | writeReq | subscribe | unsubscribe
  | exchangeMtu => simp [perform]

end BleLink

namespace BleHost

open BleLink

/-! ## Slots and their indices -/

theorem getCtx_slotByte (i : Fin bleMaxLinks) : getCtx (slotByte i) = some i := by
  revert i
  decide

theorem getCtx_iff {slot : UInt8} {i : Fin bleMaxLinks} : getCtx slot = some i ↔ slot = slotByte i := by
  constructor
  · intro h
    unfold getCtx at h
    split at h
    · cases h
      simp [slotByte]
    · cases h
  · rintro rfl
    exact getCtx_slotByte i

theorem slotByte_inj {i j : Fin bleMaxLinks} (h : slotByte i = slotByte j) : i = j :=
  Option.some.inj ((getCtx_slotByte i).symm.trans (h ▸ getCtx_slotByte j))

theorem slotByte_lt (i : Fin bleMaxLinks) : slotByte i < UInt8.ofNat bleMaxLinks := by
  revert i
  decide

@[simp] theorem modify_slots_self (m : Mgr) (i : Fin bleMaxLinks) (f : Slot → Slot) :
    (m.modify i f).slots i = f (m.slots i) := by simp [Mgr.modify]

theorem modify_slots_of_ne (m : Mgr) {i j : Fin bleMaxLinks} (f : Slot → Slot) (h : j ≠ i) :
    (m.modify i f).slots j = m.slots j := by simp [Mgr.modify, h]

@[simp] theorem updateState_slots (m : Mgr) : (updateState m).slots = m.slots := rfl

theorem findSlot_some {m : Mgr} {connHandle : UInt16} {i : Fin bleMaxLinks}
    (h : findSlotByConnHandle m connHandle = some i) : (m.slots i).connHandle = connHandle := by
  simpa using List.find?_some h

theorem validateSlotPayload_ok {payload : Ptr UInt8} {payloadLen : UInt16} {i : Fin bleMaxLinks}
    (h : validateSlotPayload payload payloadLen = .ok i) : payload.cell 0 = slotByte i := by
  unfold validateSlotPayload at h
  split at h
  · cases h
  · split at h
    · cases h
    · next hi =>
      cases h
      exact getCtx_iff.mp hi

theorem validateConnectedSlot_ok {s : State β} {payload : Ptr UInt8} {payloadLen : UInt16} {i : Fin bleMaxLinks}
    (h : validateConnectedSlot s payload payloadLen = .ok i) :
    payload.cell 0 = slotByte i ∧ (s.mgr.slots i).state = .connected := by
  unfold validateConnectedSlot at h
  split at h
  · cases h
  · next j hj =>
    split at h
    · cases h
    · next hc =>
      cases h
      exact ⟨validateSlotPayload_ok hj, not_not.mp hc⟩

/-! ## The kinds of commands -/

/-- A library call about a connection. -/
inductive ConnCall (connHandle : UInt16) : LibCall → Prop
  | terminateLink : ConnCall connHandle (.terminateLink connHandle)
  | readRssiCmd : ConnCall connHandle (.readRssiCmd connHandle)
  | updateLink (intervalMin intervalMax latency timeout : UInt16) :
    ConnCall connHandle (.updateLink connHandle intervalMin intervalMax latency timeout)

theorem reset_slotByte (l : BleLink.State β) (i : Fin bleMaxLinks) :
    (∀ j, j ≠ i → (BleLink.reset l (slotByte i)).links j = l.links j) ∧
      ((BleLink.reset l (slotByte i)).links i).connHandle = gapConnhandleInit ∧
      ((BleLink.reset l (slotByte i)).links i).slotId = (l.links i).slotId ∧
      (BleLink.reset l (slotByte i)).lib = l.lib := by
  simp only [BleLink.reset, getCtx_slotByte]
  refine ⟨fun j hj => modify_links_of_ne _ _ hj, ?_, ?_, rfl⟩
  · rw [modify_links_self]
  · rw [modify_links_self]

/-- An attempt to connect slot `i` was made, and the library answered `status`. -/
structure Attempted (s : State β) (payload : Ptr UInt8) (i : Fin bleMaxLinks) (status : UInt8) (s' : State β) :
    Prop where
  others : ∀ j, j ≠ i → s'.mgr.slots j = s.mgr.slots j
  slot : s'.mgr.slots i = { s.mgr.slots i with
    state := if status = bleSuccess then .connecting else .idle
    addrType := payload.cell 1
    addr := (s.mgr.slots i).addr.write 0 ((payload.shift 2).cells bAddrLen) }
  pending : s'.mgr.pendingConnectSlot = if status = bleSuccess then slotByte i else 0xFF
  links : s'.link.links = (BleLink.reset s.link (slotByte i)).links

/-- A command to connect is answered at once, or the library is asked. -/
inductive Connecting (lib : BleLib β) (s : State β) (hdr : VpHdr) (payload : Ptr UInt8) (payloadLen : UInt16) :
    State β × List Enqueue → Prop
  | atOnce (hno : ∀ i, getCtx (payload.cell 0) = some i → (payload.isNone ∨ payloadLen < 8) ∨
      s.mgr.pendingConnectSlot < UInt8.ofNat bleMaxLinks ∨ (s.mgr.slots i).state ≠ .idle) {status : VpStatus} :
    Connecting lib s hdr payload payloadLen (s, queueStatusRsp hdr status)
  | asked {i : Fin bleMaxLinks} (hw : ¬ (payload.isNone ∨ payloadLen < 8)) (hi : getCtx (payload.cell 0) = some i)
    (hfree : ¬ (s.mgr.pendingConnectSlot < UInt8.ofNat bleMaxLinks ∨ (s.mgr.slots i).state ≠ .idle))
    {addr : List UInt8} {s' : State β} {status : UInt8} (hs : Attempted s payload i status s')
    (hr : (s'.link.lib, status) = lib.call s.link.lib (.centralEstablishLink 0 0 (payload.cell 1) addr))
    {rsp : VpStatus} (hrsp : rsp = if status = bleSuccess then .ok else .errBusy) :
    Connecting lib s hdr payload payloadLen (s', queueStatusRsp hdr rsp)

theorem connect_connecting (lib : BleLib β) (s : State β) (hdr : VpHdr) (payload : Ptr UInt8) (payloadLen : UInt16) :
    Connecting lib s hdr payload payloadLen (connect lib s hdr payload payloadLen) := by
  simp only [connect]
  split
  · next hw => exact .atOnce fun _ _ => .inl hw
  next hw =>
  split
  · next hi => exact .atOnce fun i h => by rw [hi] at h; cases h
  next i hi =>
  split
  · next hb => exact .atOnce fun j hj => .inr (Option.some.inj (hi.symm.trans hj) ▸ hb)
  next hfree =>
  obtain ⟨-, -, -, hlib⟩ := reset_slotByte s.link i
  split
  · next hr =>
    refine .asked hw hi hfree ⟨fun j hj => ?_, ?_, (if_neg hr).symm, rfl⟩ (congrArg (lib.call · _) hlib)
      (if_neg hr).symm
    · simp only [callLib, modify_slots_of_ne _ _ hj]
    · rw [if_neg hr]
      simp only [callLib, modify_slots_self]
  · next hr =>
    have hr := not_not.mp hr
    refine .asked hw hi hfree ⟨fun j hj => ?_, ?_, (if_pos hr).symm, rfl⟩ (congrArg (lib.call · _) hlib)
      (if_pos hr).symm
    · simp only [callLib, updateState_slots, modify_slots_of_ne _ _ hj]
    · rw [if_pos hr]
      simp only [callLib, updateState_slots, modify_slots_self]

/-- A command is answered at once; it is about the scan; it is an attempt to
connect; or it is, for a connected slot, an operation of the link or a library
call about the connection. -/
inductive Kind (lib : AttLib β) (s : State β) (hdr : VpHdr) (payload : Ptr UInt8) (payloadLen : UInt16) :
    State β × List Enqueue → Prop
  | answered {status : VpStatus} {p : Ptr UInt8} {len : UInt16} :
    Kind lib s hdr payload payloadLen (s, [.rsp hdr status p len])
  | setScanParam (hop : VpBleOpcode.ofCode hdr.opcode = some .setScanParam) :
    Kind lib s hdr payload payloadLen (setScanParam lib.toBleLib s hdr payload payloadLen)
  | scanStart (hop : VpBleOpcode.ofCode hdr.opcode = some .scanStart) :
    Kind lib s hdr payload payloadLen (scanStart lib.toBleLib s hdr)
  | scanStop (hop : VpBleOpcode.ofCode hdr.opcode = some .scanStop) :
    Kind lib s hdr payload payloadLen (scanStop lib.toBleLib s hdr)
  | connect {r : State β × List Enqueue} (h : Connecting lib.toBleLib s hdr payload payloadLen r) :
    Kind lib s hdr payload payloadLen r
  | onLink {i : Fin bleMaxLinks} (hi : payload.cell 0 = slotByte i) (hc : (s.mgr.slots i).state = .connected)
    (op : Op) :
    Kind lib s hdr payload payloadLen ({ s with link := (perform lib s.link (slotByte i) op).1 },
      (perform lib s.link (slotByte i) op).2.2 ++ queueStatusRsp hdr (perform lib s.link (slotByte i) op).2.1)
  | onConn {i : Fin bleMaxLinks} (hi : payload.cell 0 = slotByte i) (hc : (s.mgr.slots i).state = .connected)
    {c : LibCall} (hcall : ConnCall (s.mgr.slots i).connHandle c) :
    Kind lib s hdr payload payloadLen
      ((callLib lib.toBleLib s c).1, queueStatusRsp hdr (mapBleStatus (callLib lib.toBleLib s c).2))

/-- A command on a connected slot is of the kind of its operation, or is answered at once. -/
theorem withConnectedSlot_kind {lib : AttLib β} {s : State β} {hdr : VpHdr} {payload : Ptr UInt8} {payloadLen : UInt16}
    (minLen : UInt16) {op : Fin bleMaxLinks → State β × VpStatus × List Enqueue}
    (hop : ∀ i, payload.cell 0 = slotByte i → (s.mgr.slots i).state = .connected →
      Kind lib s hdr payload payloadLen ((op i).1, (op i).2.2 ++ queueStatusRsp hdr (op i).2.1)) :
    Kind lib s hdr payload payloadLen (withConnectedSlot s hdr payload payloadLen minLen op) := by
  simp only [withConnectedSlot]
  split
  · exact .answered
  next i hv =>
  split
  · obtain ⟨hi, hc⟩ := validateConnectedSlot_ok hv
    exact hop i hi hc
  · exact .answered

/-- **Every command** is of a kind. -/
theorem handleMgmt_kind (lib : AttLib β) (s : State β) (hdr : VpHdr) (payload : Ptr UInt8) (payloadLen : UInt16) :
    Kind lib s hdr payload payloadLen (handleMgmt lib.toBleLib s hdr payload payloadLen) := by
  simp only [handleMgmt]
  split
  · exact .answered
  · next hop => exact .setScanParam hop
  · next hop => exact .scanStart hop
  · next hop => exact .scanStop hop
  · exact .connect (connect_connecting ..)
  · exact withConnectedSlot_kind 0 fun i hi hc => .onConn hi hc .terminateLink
  · split
    · exact .answered
    · exact .answered
  · exact withConnectedSlot_kind 0 fun i hi hc => .onLink hi hc .startDiscoverServices
  · exact withConnectedSlot_kind 5 fun i hi hc => .onLink hi hc (.startDiscoverChars _ _)
  · exact withConnectedSlot_kind 5 fun i hi hc => .onLink hi hc (.startDiscoverDescs _ _)
  · exact withConnectedSlot_kind 3 fun i hi hc => .onLink hi hc (.read _)
  · exact withConnectedSlot_kind 3 fun i hi hc => .onLink hi hc (.writeReq _ _ _)
  · exact withConnectedSlot_kind 3 fun i hi hc => .onLink hi hc (.writeCmd _ _ _)
  · exact withConnectedSlot_kind 3 fun i hi hc => .onLink hi hc (.subscribe _)
  · exact withConnectedSlot_kind 3 fun i hi hc => .onLink hi hc (.unsubscribe _)
  · exact withConnectedSlot_kind 3 fun i hi hc => .onLink hi hc (.exchangeMtu _)
  · exact withConnectedSlot_kind 0 fun i hi hc => .onConn hi hc .readRssiCmd
  · exact withConnectedSlot_kind 9 fun i hi hc => .onConn hi hc (.updateLink _ _ _ _)
  · exact .answered

/-! ## What a command can do -/

/-- Nothing happens but at slot `i`. -/
structure SlotOnly (i : Fin bleMaxLinks) (s s' : State β) : Prop where
  slots : ∀ j, j ≠ i → s'.mgr.slots j = s.mgr.slots j
  links : ∀ j, j ≠ i → s'.link.links j = s.link.links j

/-- The commands whose payload starts with a slot. -/
def namesSlot : VpBleOpcode → Bool
  | .connect | .disconnect | .getConnState | .discoverServices | .discoverCharacteristics | .discoverDescriptors
  | .read | .writeReq | .writeCmd | .subscribe | .unsubscribe | .exchangeMtu | .readRssi | .updateConnParam => true
  | _ => false

/-- An event about a link. -/
def ofLink : GapEvent → Bool
  | .linkEstablished .. | .linkTerminated .. => true
  | _ => false

/-- No attempt to connect, and no report of a link. -/
inductive Quiet : LibEvent → Prop
  | called {c : LibCall} {status : UInt8} (hc : ∀ a b d e, c ≠ .centralEstablishLink a b d e) : Quiet (.called c status)
  | bmAlloc (connHandle : UInt16) : Quiet (.bmAlloc connHandle)
  | getMtu (connHandle : UInt16) : Quiet (.getMtu connHandle)
  | handleValueCfm (connHandle : UInt16) : Quiet (.handleValueCfm connHandle)
  | reported {evt : GapEvent} (hn : ofLink evt = false) : Quiet (.reported evt)

/-- Nothing happens but calls of the library that are no attempts to connect. -/
structure LibOnly (s s' : State (β × List LibEvent)) : Prop where
  slots : s'.mgr.slots = s.mgr.slots
  pending : s'.mgr.pendingConnectSlot = s.mgr.pendingConnectSlot
  links : s'.link.links = s.link.links
  log : ∃ new, s'.log = s.log ++ new ∧ ∀ e ∈ new, Quiet e

/-- Responses, and events of slot `i`. -/
def Answer (i : Fin bleMaxLinks) (call : Enqueue) : Prop := call.queue = .rsp ∨ ForSlot (slotByte i) call

/-- What a management command does: it is answered at once; it calls the library
for no slot; it operates on the link of a connected slot; or it claims an idle
slot for an attempt to connect, which the library takes or refuses. -/
inductive Managed (s : State (β × List LibEvent)) (hdr : VpHdr) (payload : Ptr UInt8) :
    State (β × List LibEvent) × List Enqueue → Prop
  | answered {evts : List Enqueue} (he : ∀ call ∈ evts, call.queue = .rsp) : Managed s hdr payload (s, evts)
  | called (hop : ∀ op, VpBleOpcode.ofCode hdr.opcode = some op → namesSlot op = false)
      {s' : State (β × List LibEvent)} (hs : LibOnly s s') {evts : List Enqueue}
      (he : ∀ call ∈ evts, call.queue = .rsp) : Managed s hdr payload (s', evts)
  | operated {i : Fin bleMaxLinks} (hi : payload.cell 0 = slotByte i) {link : BleLink.State (β × List LibEvent)}
      (hl : LinkOnly i s.link link) {evts : List Enqueue} (he : ∀ call ∈ evts, Answer i call) :
      Managed s hdr payload ({ s with link := link }, evts)
  | claimed {i : Fin bleMaxLinks} (hi : payload.cell 0 = slotByte i)
      (hfree : ¬ s.mgr.pendingConnectSlot < UInt8.ofNat bleMaxLinks) (hidle : (s.mgr.slots i).state = .idle)
      {s' : State (β × List LibEvent)} (ho : SlotOnly i s s')
      (hh : (s'.mgr.slots i).connHandle = (s.mgr.slots i).connHandle)
      (hl : (s'.link.links i).connHandle = gapConnhandleInit) (hid : (s'.link.links i).slotId = (s.link.links i).slotId)
      {status : UInt8}
      (hlog : ∃ addrType addr, s'.log = s.log ++ [.called (.centralEstablishLink 0 0 addrType addr) status])
      (hout : status = bleSuccess ∧ (s'.mgr.slots i).state = .connecting ∧ s'.mgr.pendingConnectSlot = slotByte i ∨
        status ≠ bleSuccess ∧ (s'.mgr.slots i).state = .idle ∧ s'.mgr.pendingConnectSlot = 0xFF)
      {evts : List Enqueue} (he : ∀ call ∈ evts, call.queue = .rsp) : Managed s hdr payload (s', evts)

theorem statusRsp_queue (hdr : VpHdr) (status : VpStatus) : ∀ call ∈ queueStatusRsp hdr status, call.queue = .rsp := by
  intro call hc
  rw [List.mem_singleton.mp hc]
  rfl

variable {lib : AttLib β} {s : State (β × List LibEvent)} {hdr : VpHdr} {payload : Ptr UInt8}

theorem Connecting.managed {payloadLen : UInt16} {r : State (β × List LibEvent) × List Enqueue}
    (h : Connecting lib.traced.toBleLib s hdr payload payloadLen r) : Managed s hdr payload r := by
  cases h with
  | atOnce => exact .answered (statusRsp_queue hdr _)
  | @asked i _ hi hfree addr s' status hs hr =>
    rw [not_or, not_not] at hfree
    obtain ⟨hother, hinit, hid, -⟩ := reset_slotByte s.link i
    rw [← hs.links] at hother hinit hid
    have hstatus : status = (lib.call s.link.lib.1 (.centralEstablishLink 0 0 (payload.cell 1) addr)).2 :=
      congrArg Prod.snd hr
    have hlog : s'.log = s.log ++ [.called (.centralEstablishLink 0 0 (payload.cell 1) addr) status] := by
      rw [hstatus]
      exact congrArg (·.1.2) hr
    refine .claimed (getCtx_iff.mp hi) hfree.1 hfree.2 ⟨hs.others, hother⟩ (by rw [hs.slot]) hinit hid ⟨_, _, hlog⟩ ?_
      (statusRsp_queue hdr _)
    rw [hs.slot, hs.pending]
    by_cases h0 : status = bleSuccess
    · exact .inl ⟨h0, if_pos h0, if_pos h0⟩
    · exact .inr ⟨h0, if_neg h0, if_neg h0⟩

theorem ConnCall.connHandle {connHandle : UInt16} {c : LibCall} (hc : ConnCall connHandle c) :
    c.connHandle = some connHandle := by
  cases hc <;> rfl

/-- A library call with the handle of a slot, as the operation of a command. -/
theorem callLib_linkOnly {i : Fin bleMaxLinks} (hlink : (s.link.links i).connHandle = (s.mgr.slots i).connHandle)
    {c : LibCall} (hc : c.connHandle = some (s.mgr.slots i).connHandle) :
    LinkOnly i s.link (callLib lib.traced.toBleLib s c).1.link :=
  ⟨fun _ _ => rfl, rfl, rfl, CallsFor.call lib (hc.trans (congrArg some hlink.symm)) _⟩

theorem LibOnly.call (lib : AttLib β) (s : State (β × List LibEvent)) {c : LibCall}
    (hc : ∀ a b d e, c ≠ .centralEstablishLink a b d e) : LibOnly s (callLib lib.traced.toBleLib s c).1 :=
  ⟨rfl, rfl, rfl, [_], rfl, by simpa using Quiet.called hc⟩

theorem LibOnly.trans {s s' s'' : State (β × List LibEvent)} (h : LibOnly s s') (h' : LibOnly s' s'') :
    LibOnly s s'' := by
  obtain ⟨h1, h2, h3, new, h4, h5⟩ := h
  obtain ⟨h1', h2', h3', new', h4', h5'⟩ := h'
  refine ⟨h1'.trans h1, h2'.trans h2, h3'.trans h3, new ++ new', by rw [h4', h4, List.append_assoc], ?_⟩
  intro e he
  rcases List.mem_append.mp he with he | he
  · exact h5 e he
  · exact h5' e he

theorem setScanParam_managed (payloadLen : UInt16) (hop : VpBleOpcode.ofCode hdr.opcode = some .setScanParam) :
    Managed s hdr payload (setScanParam lib.traced.toBleLib s hdr payload payloadLen) := by
  simp only [setScanParam]
  split
  · exact .answered (statusRsp_queue hdr _)
  · refine .called (by rw [hop]; rintro _ ⟨⟩; rfl) ?_ (statusRsp_queue hdr _)
    refine .trans (.trans (.trans ?_ (.call lib _ (by simp))) (.call lib _ (by simp))) (.call lib _ (by simp))
    exact ⟨rfl, rfl, rfl, [], by rw [List.append_nil]; rfl, by simp⟩

theorem scanStart_managed (hop : VpBleOpcode.ofCode hdr.opcode = some .scanStart) :
    Managed s hdr payload (scanStart lib.traced.toBleLib s hdr) := by
  simp only [scanStart]
  split
  · exact .answered (statusRsp_queue hdr _)
  · have hcall := LibOnly.call lib s
      (c := .centralStartDiscovery s.mgr.scanMode s.mgr.scanActive s.mgr.scanWhiteList) (by simp)
    split
    · exact .called (by rw [hop]; rintro _ ⟨⟩; rfl) hcall (statusRsp_queue hdr _)
    · refine .called (by rw [hop]; rintro _ ⟨⟩; rfl) ?_ (statusRsp_queue hdr _)
      exact ⟨hcall.slots, hcall.pending, hcall.links, hcall.log⟩

theorem scanStop_managed (hop : VpBleOpcode.ofCode hdr.opcode = some .scanStop) :
    Managed s hdr payload (scanStop lib.traced.toBleLib s hdr) := by
  have hcall := LibOnly.call lib s (c := .centralCancelDiscovery) (by simp)
  simp only [scanStop]
  split
  · exact .called (by rw [hop]; rintro _ ⟨⟩; rfl) hcall (statusRsp_queue hdr _)
  · refine .called (by rw [hop]; rintro _ ⟨⟩; rfl) ?_ (statusRsp_queue hdr _)
    exact ⟨hcall.slots, hcall.pending, hcall.links, hcall.log⟩

/-- **Every command.** -/
theorem handleMgmt_managed (lib : AttLib β) (hlink : ∀ i, (s.link.links i).connHandle = (s.mgr.slots i).connHandle)
    (hdr : VpHdr) (payload : Ptr UInt8) (payloadLen : UInt16) :
    Managed s hdr payload (handleMgmt lib.traced.toBleLib s hdr payload payloadLen) := by
  have hk := handleMgmt_kind lib.traced s hdr payload payloadLen
  generalize handleMgmt lib.traced.toBleLib s hdr payload payloadLen = r at hk ⊢
  cases hk with
  | answered =>
    refine .answered fun call hc => ?_
    rw [List.mem_singleton.mp hc]
    rfl
  | setScanParam hop => exact setScanParam_managed payloadLen hop
  | scanStart hop => exact scanStart_managed hop
  | scanStop hop => exact scanStop_managed hop
  | connect h => exact h.managed
  | @onLink i hi _ op =>
    refine .operated hi (perform_linkOnly lib s.link (getCtx_slotByte i) op) fun call hmem => ?_
    rcases List.mem_append.mp hmem with hmem | hmem
    · exact .inr (perform_forSlot lib.traced s.link _ op call hmem)
    · exact .inl (statusRsp_queue hdr _ call hmem)
  | @onConn i hi _ _ hcall =>
    refine .operated hi (callLib_linkOnly (hlink i) hcall.connHandle) fun call hmem => ?_
    exact .inl (statusRsp_queue hdr _ call hmem)

/-! ## What an event does -/

/-- What an event does: the pending slot is connected, or is idle again; there
is no pending slot; the slot with the handle is idle again; there is no such
slot; or the event is about no link. -/
inductive Evented (s : State (β × List LibEvent)) : GapEvent → State (β × List LibEvent) × List Enqueue → Prop
  | up {i : Fin bleMaxLinks} (hp : s.mgr.pendingConnectSlot = slotByte i) {connHandle : UInt16} {addrType : UInt8}
      {addr : Block UInt8 bAddrLen} {s' : State (β × List LibEvent)} (ho : SlotOnly i s s')
      (hs : (s'.mgr.slots i).state = .connected) (hh : (s'.mgr.slots i).connHandle = connHandle)
      (hl : (s'.link.links i).connHandle = connHandle) (hid : (s'.link.links i).slotId = (s.link.links i).slotId)
      (hp' : s'.mgr.pendingConnectSlot = 0xFF) (hlog : s'.log = s.log ++ [.getMtu connHandle]) {evts : List Enqueue}
      (he : ∀ call ∈ evts, ForSlot (slotByte i) call) :
      Evented s (.linkEstablished bleSuccess connHandle addrType addr) (s', evts)
  | failed {i : Fin bleMaxLinks} (hp : s.mgr.pendingConnectSlot = slotByte i) {status addrType : UInt8}
      (hne : status ≠ bleSuccess) {connHandle : UInt16} {addr : Block UInt8 bAddrLen} {s' : State (β × List LibEvent)}
      (ho : SlotOnly i s s') (hs : (s'.mgr.slots i).state = .idle)
      (hh : (s'.mgr.slots i).connHandle = (s.mgr.slots i).connHandle)
      (hl : (s'.link.links i).connHandle = gapConnhandleInit) (hid : (s'.link.links i).slotId = (s.link.links i).slotId)
      (hp' : s'.mgr.pendingConnectSlot = 0xFF) (hlog : s'.log = s.log) {evts : List Enqueue}
      (he : ∀ call ∈ evts, ForSlot (slotByte i) call) :
      Evented s (.linkEstablished status connHandle addrType addr) (s', evts)
  | unexpected (hp : ∀ i, s.mgr.pendingConnectSlot ≠ slotByte i) {status addrType : UInt8} {connHandle : UInt16}
      {addr : Block UInt8 bAddrLen} {s' : State (β × List LibEvent)} (hs : s'.mgr.slots = s.mgr.slots)
      (hl : s'.link = s.link) (hp' : s'.mgr.pendingConnectSlot = 0xFF) :
      Evented s (.linkEstablished status connHandle addrType addr) (s', [])
  | down {i : Fin bleMaxLinks} {connHandle : UInt16} (hi : findSlotByConnHandle s.mgr connHandle = some i)
      {reason : UInt8} {s' : State (β × List LibEvent)} (ho : SlotOnly i s s') (hs : (s'.mgr.slots i).state = .idle)
      (hh : (s'.mgr.slots i).connHandle = gapConnhandleInit) (hl : (s'.link.links i).connHandle = gapConnhandleInit)
      (hid : (s'.link.links i).slotId = (s.link.links i).slotId)
      (hp' : s'.mgr.pendingConnectSlot = s.mgr.pendingConnectSlot) (hlog : s'.log = s.log) {evts : List Enqueue}
      (he : ∀ call ∈ evts, ForSlot (slotByte i) call) : Evented s (.linkTerminated connHandle reason) (s', evts)
  | unknown {connHandle : UInt16} (hi : findSlotByConnHandle s.mgr connHandle = none) {reason : UInt8} :
      Evented s (.linkTerminated connHandle reason) (s, [])
  | other {evt : GapEvent} (hn : ofLink evt = false) {s' : State (β × List LibEvent)}
      (hs : s'.mgr.slots = s.mgr.slots) (hp : s'.mgr.pendingConnectSlot = s.mgr.pendingConnectSlot)
      (hl : s'.link = s.link) (evts : List Enqueue) : Evented s evt (s', evts)

theorem attach_slotByte (lib : AttLib β) (l : BleLink.State (β × List LibEvent)) (i : Fin bleMaxLinks)
    (connHandle : UInt16) :
    (∀ j, j ≠ i → (attach lib.traced l (slotByte i) connHandle).links j = l.links j) ∧
      ((attach lib.traced l (slotByte i) connHandle).links i).connHandle = connHandle ∧
      ((attach lib.traced l (slotByte i) connHandle).links i).slotId = (l.links i).slotId ∧
      (attach lib.traced l (slotByte i) connHandle).lib.2 = l.lib.2 ++ [.getMtu connHandle] := by
  simp only [attach, getCtx_slotByte]
  refine ⟨fun j hj => modify_links_of_ne _ _ hj, ?_, ?_, rfl⟩
  · rw [modify_links_self]
  · rw [modify_links_self]

/-- **Every event.** -/
theorem eventCb_evented (lib : AttLib β) (s : State (β × List LibEvent)) (evt : GapEvent) :
    Evented s evt (eventCb lib.traced s evt) := by
  cases evt with
  | deviceInitDone | deviceInfo | extAdvDeviceInfo | deviceDiscovery | other =>
    refine .other ?_ ?_ ?_ ?_ _ <;> rfl
  | linkEstablished status connHandle addrType addr =>
    simp only [eventCb]
    split
    · next hp => exact .unexpected (fun i hi => by rw [getCtx_iff.mpr hi] at hp; cases hp) rfl rfl rfl
    · next i hi =>
      have hp := getCtx_iff.mp hi
      split
      · next hs =>
        subst hs
        obtain ⟨hother, hh, hid, hlog⟩ := attach_slotByte lib s.link i connHandle
        refine .up hp ⟨fun j hj => ?_, hother⟩ ?_ ?_ hh hid rfl ?_ forSlot_single
        · simp only [linkUp, updateState_slots, modify_slots_of_ne _ _ hj]
        · simp only [linkUp, updateState_slots, modify_slots_self]
        · simp only [linkUp, updateState_slots, modify_slots_self]
        · exact hlog
      · next hs =>
        obtain ⟨hother, hinit, hid, hlib⟩ := reset_slotByte s.link i
        refine .failed hp hs ⟨fun j hj => ?_, hother⟩ ?_ ?_ hinit hid rfl ?_ forSlot_single
        · simp only [linkFailed, updateState_slots, modify_slots_of_ne _ _ hj]
        · simp only [linkFailed, updateState_slots, modify_slots_self]
        · simp only [linkFailed, updateState_slots, modify_slots_self]
        · exact congrArg Prod.snd hlib
  | linkTerminated connHandle reason =>
    simp only [eventCb]
    split
    · next hf => exact .unknown hf
    · next i hi =>
      obtain ⟨hother, hinit, hid, hlib⟩ := reset_slotByte s.link i
      refine .down hi ⟨fun j hj => ?_, hother⟩ ?_ ?_ hinit hid ?_ ?_ forSlot_single
      · simp only [updateState_slots, modify_slots_of_ne _ _ hj]
      · simp only [updateState_slots, modify_slots_self]
      · simp only [updateState_slots, modify_slots_self]
      · rfl
      · exact congrArg Prod.snd hlib

end BleHost

end UsbMux
