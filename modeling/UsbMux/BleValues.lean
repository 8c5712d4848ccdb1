/-
The values of characteristics that a peer sends on its own, as notifications
and indications: each becomes one event on the channel of its slot, no other
event looks like one, and the host reads them in the order they came in.
-/
import UsbMux.BleDiscovery
import UsbMux.BlePairs
import UsbMux.BlePath

namespace UsbMux.BleHost

open Endian List UsbTx BleLink

variable {β : Type}

/-! ## Value events -/

def IsValueOpcode (opcode : UInt8) : Prop :=
  opcode = VpBleOpcode.evtNotifyData.code ∨ opcode = VpBleOpcode.evtIndicateData.code

instance (opcode : UInt8) : Decidable (IsValueOpcode opcode) := inferInstanceAs (Decidable (_ ∨ _))

/-- The call queues an event with a value for slot `i`. -/
def IsValueCall (i : Fin bleMaxLinks) : Enqueue → Prop
  | .evt chType chId opcode _ _ => chType = VpChannelType.bleConn.code ∧ chId = slotByte i ∧ IsValueOpcode opcode
  | _ => False

instance (i : Fin bleMaxLinks) : DecidablePred (IsValueCall i)
  | .evt .. => inferInstanceAs (Decidable (_ ∧ _))
  | .rsp .. | .data .. => inferInstanceAs (Decidable False)

theorem IsValueCall.queue {i : Fin bleMaxLinks} {call : Enqueue} (h : IsValueCall i call) : call.queue = .evt := by
  cases call with
  | evt => rfl
  | rsp | data => exact h.elim

/-- The value in a message, with the opcode its event has. -/
def valueIn (msg : GattMsgEvent) : List (UInt8 × HandleValue) :=
  if msg.method = attHandleValueNoti then [(VpBleOpcode.evtNotifyData.code, msg.handleValueNoti)]
  else if msg.method = attHandleValueInd then [(VpBleOpcode.evtIndicateData.code, msg.handleValueInd)]
  else []

/-- The value that comes in a step on the connection that slot `i` has. -/
def valuesFor (i : Fin bleMaxLinks) (s : State β) : Input → List (UInt8 × HandleValue)
  | .gattMsg msg =>
    if (s.mgr.slots i).state = .connected ∧ (s.mgr.slots i).connHandle = msg.connHandle then valueIn msg else []
  | _ => []

/-- A message is of a connection: its handle is not the one that stands for none. -/
def OfConnection : Input → Prop
  | .gattMsg msg => msg.connHandle ≠ gapConnhandleInit
  | _ => True

/-- Its event. -/
def valueCall (i : Fin bleMaxLinks) (v : UInt8 × HandleValue) : Enqueue :=
  .evt VpChannelType.bleConn.code (slotByte i) v.1
    (some (le16 v.2.handle ++ le16 (min v.2.len 484) ++ v.2.pValue.cells (min v.2.len 484).toNat))
    (4 + min v.2.len 484)

/-! ## All other events -/

/-- No value, for whatever slot. -/
def Plain (call : Enqueue) : Prop := ∀ i, ¬ IsValueCall i call

theorem plain_evt {chType chId opcode : UInt8} {payload : Ptr UInt8} {len : UInt16} (h : ¬ IsValueOpcode opcode) :
    ∀ call ∈ [Enqueue.evt chType chId opcode payload len], Plain call := by
  intro call hc i hv
  rw [List.mem_singleton.mp hc] at hv
  exact h hv.2.2

theorem plain_rsp {hdr : VpHdr} {status : VpStatus} {rsp : Ptr UInt8} {rspLen : UInt16} :
    ∀ call ∈ [Enqueue.rsp hdr status rsp rspLen], Plain call := by
  intro call hc i hv
  rw [List.mem_singleton.mp hc] at hv
  exact hv

theorem plain_range {f : Nat → List Enqueue} {n : Nat} (h : ∀ k, ∀ call ∈ f k, Plain call) :
    ∀ call ∈ (List.range n).flatMap f, Plain call := by
  intro call hc
  obtain ⟨k, -, hc⟩ := List.mem_flatMap.mp hc
  exact h k call hc

theorem plain_handler {response error : Prop} [Decidable response] [Decidable error]
    {r : BleLink.State β × List Enqueue} {s' s'' : BleLink.State β} {evts : List Enqueue}
    (hr : ∀ call ∈ r.2, Plain call) (he : ∀ call ∈ evts, Plain call) :
    ∀ call ∈ (if response then r else if error then (s', evts) else (s'', [])).2, Plain call := by
  split
  · exact hr
  · split
    · exact he
    · exact List.forall_mem_nil _

theorem handleGattMsg_plain (lib : AttLib β) (s : BleLink.State β) (slot : UInt8) {msg : GattMsgEvent}
    (h : valueIn msg = []) : ∀ call ∈ (handleGattMsg lib s slot msg).2, Plain call := by
  simp only [handleGattMsg]
  split
  · exact List.forall_mem_nil _
  split
  · exact List.forall_mem_nil _
  split
  · next hm => rw [valueIn, if_pos hm] at h; cases h
  next hnoti =>
  split
  · next hm => rw [valueIn, if_neg hnoti, if_pos hm] at h; cases h
  split
  · exact List.forall_mem_nil _
  split
  · refine plain_handler ?_ (plain_evt (by decide))
    rw [reportServices_eq]
    exact plain_range fun k => plain_evt (by decide)
  · refine plain_handler ?_ (plain_evt (by decide))
    simp only [reportChars_eq]
    exact plain_range fun k => plain_evt (by decide)
  · refine plain_handler ?_ (plain_evt (by decide))
    split
    · exact List.forall_mem_nil _
    · simp only [reportDescs_eq]
      exact plain_range fun k => plain_evt (by decide)
  · exact plain_handler (plain_evt (by decide)) (plain_evt (by decide))
  · exact plain_handler (plain_evt (by decide)) (plain_evt (by decide))
  · exact plain_handler (plain_evt (by decide)) (plain_evt (by decide))
  · exact plain_handler (plain_evt (by decide)) (plain_evt (by decide))
  · exact plain_handler (List.forall_mem_nil _) (List.forall_mem_nil _)
  · exact List.forall_mem_nil _

theorem perform_plain (lib : AttLib β) (s : BleLink.State β) (slot : UInt8) (op : Op) :
    ∀ call ∈ (perform lib s slot op).2.2, Plain call := by
  cases op with
  | startDiscoverServices | startDiscoverChars | startDiscoverDescs | read | writeReq | subscribe | unsubscribe
  | exchangeMtu => exact List.forall_mem_nil _
  | writeCmd attrHandle buf len =>
    simp only [perform, writeCmd]
    split
    · exact List.forall_mem_nil _
    split
    · exact List.forall_mem_nil _
    split
    · exact List.forall_mem_nil _
    split
    · exact List.forall_mem_nil _
    · exact plain_evt (by decide)

theorem handleMgmt_plain (lib : AttLib β) (s : State β) (hdr : VpHdr) (payload : Ptr UInt8) (payloadLen : UInt16) :
    ∀ call ∈ (handleMgmt lib.toBleLib s hdr payload payloadLen).2, Plain call := by
  have hk := handleMgmt_kind lib s hdr payload payloadLen
  generalize handleMgmt lib.toBleLib s hdr payload payloadLen = r at hk ⊢
  cases hk with
  | answered => exact plain_rsp
  | setScanParam =>
    simp only [setScanParam]
    split <;> exact plain_rsp
  | scanStart =>
    simp only [scanStart]
    split
    · exact plain_rsp
    · split <;> exact plain_rsp
  | scanStop =>
    simp only [scanStop]
    split <;> exact plain_rsp
  | connect h =>
    cases h with
    | atOnce => exact plain_rsp
    | asked => exact plain_rsp
  | @onLink i _ _ op => exact List.forall_mem_append.mpr ⟨perform_plain lib s.link (slotByte i) op, plain_rsp⟩
  | onConn => exact plain_rsp

theorem eventCb_plain (lib : AttLib β) (s : State β) (evt : GapEvent) :
    ∀ call ∈ (eventCb lib s evt).2, Plain call := by
  cases evt with
  | deviceInitDone | deviceDiscovery | other => exact List.forall_mem_nil _
  | deviceInfo info | extAdvDeviceInfo info => exact plain_evt (by decide)
  | linkEstablished status connectionHandle devAddrType devAddr =>
    simp only [eventCb]
    split
    · exact List.forall_mem_nil _
    · split
      · exact plain_evt (by decide)
      · exact plain_evt (by decide)
  | linkTerminated connectionHandle reason =>
    simp only [eventCb]
    split
    · exact List.forall_mem_nil _
    · exact plain_evt (by decide)

theorem rssiCb_plain (s : State β) (connHandle : UInt16) (rssi : UInt8) :
    ∀ call ∈ rssiCb s connHandle rssi, Plain call := by
  simp only [rssiCb]
  split
  · exact List.forall_mem_nil _
  · exact plain_evt (by decide)

/-! ## One step -/

theorem filter_plain {cs : List Enqueue} (h : ∀ call ∈ cs, Plain call) (i : Fin bleMaxLinks) :
    cs.filter (fun call => IsValueCall i call) = [] := by
  rw [List.filter_eq_nil_iff]
  intro call hc
  simpa using h call hc i

/-- A message with a value makes its event, on the channel it is handled for. -/
theorem handleGattMsg_value (lib : AttLib β) (s : BleLink.State β) (j : Fin bleMaxLinks) {msg : GattMsgEvent}
    {v : UInt8 × HandleValue} (h : valueIn msg = [v]) :
    (handleGattMsg lib s (slotByte j) msg).2 = [valueCall j v] ∧ IsValueOpcode v.1 := by
  rw [valueIn] at h
  simp only [handleGattMsg, getCtx_slotByte]
  by_cases hn : msg.method = attHandleValueNoti
  · rw [if_pos hn] at h
    obtain rfl := (List.cons.inj h).1
    have hm : msg.method ≠ attMtuUpdatedEvent := by rw [hn]; decide
    rw [if_neg hm, if_pos hn]
    exact ⟨rfl, .inl rfl⟩
  · rw [if_neg hn] at h
    by_cases hi : msg.method = attHandleValueInd
    · rw [if_pos hi] at h
      obtain rfl := (List.cons.inj h).1
      have hm : msg.method ≠ attMtuUpdatedEvent := by rw [hi]; decide
      rw [if_neg hm, if_neg hn, if_pos hi]
      exact ⟨rfl, .inr rfl⟩
    · rw [if_neg hi] at h
      cases h

theorem valueIn_cases (msg : GattMsgEvent) : valueIn msg = [] ∨ ∃ v, valueIn msg = [v] := by
  unfold valueIn
  split
  · exact .inr ⟨_, rfl⟩
  split
  · exact .inr ⟨_, rfl⟩
  · exact .inl rfl

/-- **Every step** queues at most the value that comes on the slot's connection. -/
theorem step_values (lib : AttLib β) (i : Fin bleMaxLinks) {s : State β} (hs : Unused s) {input : Input}
    (hin : OfConnection input) :
    (step lib s input).2.filter (fun call => IsValueCall i call) <+ (valuesFor i s input).map (valueCall i) := by
  have silent {cs : List Enqueue} {vs : List Enqueue} (h : ∀ call ∈ cs, Plain call) :
      cs.filter (fun call => IsValueCall i call) <+ vs := by
    rw [filter_plain h i]
    exact nil_sublist _
  cases input with
  | mgmt hdr payload payloadLen => exact silent (handleMgmt_plain lib s hdr payload payloadLen)
  | gap evt => exact silent (eventCb_plain lib s evt)
  | rssi connHandle rssi => exact silent (rssiCb_plain s connHandle rssi)
  | gattMsg msg =>
    simp only [step, processGattMsg]
    cases hf : findSlotByConnHandle s.mgr msg.connHandle with
    | none => exact nil_sublist _
    | some j =>
      dsimp only
      rcases valueIn_cases msg with hv | ⟨v, hv⟩
      · exact silent (handleGattMsg_plain lib s.link (slotByte j) hv)
      · obtain ⟨hcalls, hop⟩ := handleGattMsg_value lib s.link j hv
        rw [hcalls]
        by_cases hj : j = i
        · -- the slot found is connected: the others have the handle for none
          have hhandle : (s.mgr.slots i).connHandle = msg.connHandle := hj ▸ findSlot_some hf
          have hconn : (s.mgr.slots i).state = .connected := by
            by_contra hne
            exact hin (hhandle.symm.trans (hs.handle i hne))
          rw [hj, valuesFor, if_pos ⟨hconn, hhandle⟩, hv, map_singleton]
          exact filter_sublist ..
        · rw [filter_cons_of_neg]
          · exact nil_sublist _
          · intro h
            exact hj (slotByte_inj (of_decide_eq_true h).2.1)

end UsbMux.BleHost

namespace UsbMux.Firmware

open BleHost Endian List UsbTx

/-! ## To the host -/

/-- A message to the host with a value for slot `k`. -/
def IsValue (k : Fin BleLink.bleMaxLinks) (m : Message) : Prop :=
  m.1.msgType = VpMsgType.evt.code ∧ m.1.chType = VpChannelType.bleConn.code ∧ m.1.chId = slotByte k ∧
    IsValueOpcode m.1.opcode

instance (k : Fin BleLink.bleMaxLinks) : DecidablePred (IsValue k) := fun _ => inferInstanceAs (Decidable (_ ∧ _))

/-- The message says that the value came: its handle, its length and as many of
its bytes as fit. -/
def TellsValue (m : Message) (v : UInt8 × HandleValue) : Prop :=
  m.1.opcode = v.1 ∧ ∃ bytes, m.2 = le16 v.2.handle ++ le16 (min v.2.len 484) ++ bytes ∧
    bytes.length = (min v.2.len 484).toNat ∧
    (v.2.pValue.isSome → bytes = v.2.pValue.cells (min v.2.len 484).toNat)

theorem Conveys.isValue {m : Message} {call : Enqueue} (h : Conveys m call) (k : Fin BleLink.bleMaxLinks) :
    IsValue k m ↔ IsValueCall k call := by
  obtain ⟨seq, hm, -⟩ := h
  rw [IsValue, hm]
  cases call with
  | rsp hdr status payload payloadLen =>
    exact iff_of_false (fun hv => absurd (show VpMsgType.rsp.code = VpMsgType.evt.code from hv.1) (by decide)) id
  | data chType chId payload payloadLen =>
    exact iff_of_false (fun hv => absurd (show VpMsgType.data.code = VpMsgType.evt.code from hv.1) (by decide)) id
  | evt chType chId opcode payload payloadLen => exact and_iff_right rfl

theorem Conveys.tellsValue {m : Message} {k : Fin BleLink.bleMaxLinks} {v : UInt8 × HandleValue}
    (h : Conveys m (valueCall k v)) : TellsValue m v := by
  obtain ⟨seq, hm, hlen, hpayload⟩ := h
  have hmin : (min v.2.len 484).toNat ≤ 484 := by
    rw [BleLink.toNat_min]
    exact Nat.min_le_right ..
  have hbytes : (v.2.pValue.cells (min v.2.len 484).toNat).length = (min v.2.len 484).toNat := Ptr.length_cells ..
  have hsum : (4 + min v.2.len 484).toNat = 4 + (min v.2.len 484).toNat := by
    rw [UInt16.toNat_add]
    exact Nat.mod_eq_of_lt (by rw [show (4 : UInt16).toNat = 4 from rfl]; omega)
  have htotal : (le16 v.2.handle ++ le16 (min v.2.len 484) ++ v.2.pValue.cells (min v.2.len 484).toNat).length =
      (4 + min v.2.len 484).toNat := by
    rw [length_append, length_append, hbytes, hsum]
    rfl
  refine ⟨by rw [hm]; rfl, v.2.pValue.cells (min v.2.len 484).toNat, ?_, hbytes, fun _ => rfl⟩
  rw [hpayload rfl, valueCall, Enqueue.payload, Enqueue.payloadLen, ← htotal, Ptr.cells_some (Nat.le_refl _),
    take_length]

variable {β : Type} (lib : AttLib β) (map : UartMgr.Map)

/-- The value that an input brings on the connection that slot `k` has. -/
def Input.value (k : Fin BleLink.bleMaxLinks) (s : State β) : Input → List (UInt8 × HandleValue)
  | .gattMsg msg => valuesFor k s.fw.ble (.gattMsg msg)
  | _ => []

/-- A message of the library is of a connection. -/
def Input.OfConnection : Input → Prop
  | .gattMsg msg => BleHost.OfConnection (.gattMsg msg)
  | _ => True

theorem bleInput_rxTurn {s : State β} {j : BleHost.Input} (h : bleInput s .rxTurn = some j) :
    ∃ hdr payload payloadLen, j = .mgmt hdr payload payloadLen := by
  simp only [bleInput] at h
  split at h
  · cases h
  · obtain ⟨d, -, hd⟩ := Option.bind_eq_some_iff.mp h
    rw [bleCommand] at hd
    split at hd
    · exact ⟨_, _, _, (Option.some.inj hd).symm⟩
    · cases hd

theorem eventCalls_values (k : Fin BleLink.bleMaxLinks) (cs : List Enqueue) :
    (eventCalls cs).filter (fun call => IsValueCall k call) = cs.filter fun call => IsValueCall k call := by
  rw [eventCalls, filter_filter]
  refine filter_congr fun call _ => ?_
  by_cases hv : IsValueCall k call
  · rw [decide_eq_true hv.queue, Bool.and_true]
  · rw [decide_eq_false hv, Bool.false_and]

/-- One input: a value queued for a slot is one that comes on its connection. -/
theorem step_valueCalls (k : Fin BleLink.bleMaxLinks) {s : State β} (hs : BleHost.Unused s.fw.ble) {i : Input}
    (hi : i.OfConnection) :
    (calls (step lib map s i).2).filter (fun call => IsValueCall k call) <+ (i.value k s).map (valueCall k) := by
  cases hb : bleInput s i with
  | none =>
    have hout : (step lib map s i).2.flatMap eventsOf = [] := ((ble_component lib map).skips s i hb).2
    rw [flatMap_eventsOf] at hout
    rw [← eventCalls_values, hout]
    exact nil_sublist _
  | some j =>
    have hout : (step lib map s i).2.flatMap eventsOf = (BleHost.step lib s.fw.ble j).2.flatMap eventOf :=
      ((ble_component lib map).takes s i j hb).2
    rw [flatMap_eventsOf, flatMap_eventOf] at hout
    rw [← eventCalls_values, hout, eventCalls_values]
    cases i with
    | usb i | uart u statr datar | uartTurn p | txProcess => cases hb
    | gap evt | gattMsg msg | rssi connHandle rssi =>
      obtain rfl := Option.some.inj hb
      exact step_values lib k hs hi
    | rxTurn =>
      obtain ⟨hdr, payload, payloadLen, rfl⟩ := bleInput_rxTurn hb
      exact step_values lib k hs trivial

theorem run_valueCalls (k : Fin BleLink.bleMaxLinks) {s : State β} (hs : BleHost.Unused s.fw.ble) {is : List Input}
    (his : ∀ i ∈ is, i.OfConnection) :
    (calls (Mealy.outs (step lib map) s is)).filter (fun call => IsValueCall k call) <+
      (Mealy.readings (step lib map) (fun s i => i.value k s) s is).map (valueCall k) := by
  induction is generalizing s with
  | nil => exact Sublist.refl _
  | cons i is ih =>
    obtain ⟨hi, his⟩ := forall_mem_cons.mp his
    rw [Mealy.outs_cons, calls_append, filter_append, Mealy.readings, map_append]
    exact (step_valueCalls lib map k hs hi).append (ih (unused_step lib map hs i) his)

variable (hw : UartHw.Hw) (taskId : UInt8) (b : β)

/-- **Values, end to end.** Over every run of the firmware in which the library's
messages are of connections: the values the host reads for a slot, in all sessions,
are some of those that came in on the connection the slot had when they came, in
order, each with its handle, its length and its bytes up to the end of a frame. -/
theorem values_in_order (k : Fin BleLink.bleMaxLinks) {is : List Input} (hlib : ∀ i ∈ is, i.OfConnection) :
    SublistForall₂ TellsValue
      ((allReads (Mealy.run (step lib map) (start lib map hw taskId b) is)).filter fun m => IsValue k m)
      (Mealy.readings (step lib map) (fun s i => i.value k s) (start lib map hw taskId b) is) := by
  obtain ⟨s, hs⟩ : ∃ s, s = Mealy.run (step lib map) (start lib map hw taskId b) is := ⟨_, rfl⟩
  obtain ⟨tr, htr⟩ : ∃ tr, tr = Mealy.outs (step lib map) (start lib map hw taskId b) is := ⟨_, rfl⟩
  obtain ⟨vs, hvs⟩ : ∃ vs, vs = Mealy.readings (step lib map) (fun s i => i.value k s) (start lib map hw taskId b) is :=
    ⟨_, rfl⟩
  -- the calls are made for the values
  have hcalls : (calls tr).filter (fun call => IsValueCall k call) <+ vs.map (valueCall k) := by
    rw [htr, hvs]
    exact run_valueCalls lib map k (BleHost.unused_init taskId b) hlib
  -- the host reads messages of the calls
  have hconv : SublistForall₂ Conveys ((allReads s).filter (OfClass .evt)) ((calls tr).filter (·.queue = .evt)) := by
    rw [hs, htr]
    exact (onItsWay_run lib map hw taskId b is).conveyed .evt
  have hvalues := Lossy.filter (p := fun m => IsValue k m) (q := fun call => IsValueCall k call)
    (fun m call hc => by rw [decide_eq_decide]; exact hc.isValue k) hconv
  have hread : ((allReads s).filter (OfClass .evt)).filter (fun m => IsValue k m) =
      (allReads s).filter fun m => IsValue k m := by
    rw [filter_filter]
    refine filter_congr fun m _ => ?_
    by_cases hv : IsValue k m
    · have hclass : OfClass .evt m = true := beq_iff_eq.mpr hv.1
      rw [hclass, Bool.and_true]
    · rw [decide_eq_false hv, Bool.false_and]
  have hcall : ((calls tr).filter (·.queue = .evt)).filter (fun call => IsValueCall k call) <+
      vs.map (valueCall k) := by
    have hq := eventCalls_values k (calls tr)
    rw [eventCalls] at hq
    rw [hq]
    exact hcalls
  rw [hread] at hvalues
  rw [← hs, ← hvs]
  refine Lossy.comp (S := fun call v => call = valueCall k v) ?_ hvalues ?_
  · intro m call v hm hc
    rw [hc] at hm
    exact hm.tellsValue
  · refine Lossy.of_sublist hcall ?_
    rw [sublistForall₂_map_left_iff]
    exact sublistForall₂_iff.mpr ⟨vs, forall₂_same.mpr fun _ _ => rfl, Sublist.refl _⟩

/-- Slot 0 is connected, and the notification of its peer is read by the host. -/
theorem values_in_order_notified :
    let msg : GattMsgEvent := { BleLink.serviceRsp 0 0 none with
      connHandle := 7
      method := attHandleValueNoti
      handleValueNoti := ⟨3, 2, some [0x11, 0x22]⟩ }
    let is : List Input := [.usb .busReset,
        .usb (.setup [0x00, 0x09, 0x01, 0x00, 0x00, 0x00, 0x00, 0x00]), .usb .ep0In,
        .usb (.ep3Out ⟨[90, 165, 1, 24, 32, 0, 0, 0, 0, 0, 16, 0, 1, 5, 0, 0, 0, 0, 8, 0, 251, 209, 0, 0,
          0, 0, 6, 5, 4, 3, 2, 1], by decide⟩ false)] ++
      List.replicate 32 .rxTurn ++
      [.gap (.linkEstablished bleSuccess 7 0 (Block.fill _ 0)), .gattMsg msg] ++
      (List.replicate 3 [.txProcess, .usb .ep2In]).flatten
    let s₀ := start BleLink.willing UartMgr.uartMapCfg UartHw.Hw.cleared 0 ()
    let reads := (allReads (Mealy.run (step BleLink.willing UartMgr.uartMapCfg) s₀ is)).filter fun m => IsValue 0 m
    reads.map Prod.snd = [[3, 0, 2, 0, 0x11, 0x22]] ∧
      SublistForall₂ TellsValue reads
        (Mealy.readings (step BleLink.willing UartMgr.uartMapCfg) (fun s i => i.value 0 s) s₀ is) := by
  intro msg is s₀ reads
  have hlib : ∀ i ∈ is, i.OfConnection := by
    have hmsg : msg.connHandle ≠ gapConnhandleInit := by decide
    intro i hi
    cases i with
    | gattMsg m =>
      obtain rfl : m = msg := by simpa [is] using hi
      exact hmsg
    | usb | uart | rxTurn | uartTurn | txProcess | gap | rssi => trivial
  exact ⟨by decide +kernel, values_in_order BleLink.willing UartMgr.uartMapCfg UartHw.Hw.cleared 0 () 0 hlib⟩

end UsbMux.Firmware
