/-
Discoveries on a link: what their responses hold and what becomes of it. A
handler reports the results of a response one by one (`handleGattMsg_results`).

A service discovery waits until the library completes it. The other two ask
the library to go on behind the last handle of a response, and end when it
refuses, as it does while it goes on by itself (`discovery_reports_iff`). The
results of one response are queued in a burst, and the queue has room for four
(`discovery_results_queued`).
-/
import UsbMux.BleGatt
import UsbMux.TxHints

namespace UsbMux

open Endian UsbTx

variable {β : Type}

namespace BleLink

/-! ## Responses -/

inductive Discovery
  | services | chars | descs
deriving DecidableEq

namespace Discovery

def proc : Discovery → LinkProc
  | .services => .discService
  | .chars => .discChar
  | .descs => .discDesc

/-- The method of the response. -/
def response : Discovery → UInt8
  | .services => attReadByGrpTypeRsp
  | .chars => attReadByTypeRsp
  | .descs => attFindInfoRsp

/-- The number of results in a response. -/
def count (msg : GattMsgEvent) : Discovery → UInt16
  | .services => msg.readByGrpTypeRsp.numGrps
  | .chars => msg.readByTypeRsp.numPairs
  | .descs => msg.findInfoRsp.numInfo

/-- The length of one of them. -/
def pairLen (msg : GattMsgEvent) : Discovery → UInt16
  | .services => msg.readByGrpTypeRsp.len
  | .chars => msg.readByTypeRsp.len
  | .descs => if msg.findInfoRsp.format = 0x01 then 4 else 18

def list (msg : GattMsgEvent) : Discovery → Ptr UInt8
  | .services => msg.readByGrpTypeRsp.pDataList
  | .chars => msg.readByTypeRsp.pDataList
  | .descs => msg.findInfoRsp.pInfo

/-- The response has the shape its handler looks for. -/
def Regular (msg : GattMsgEvent) : Discovery → Prop
  | .services => msg.readByGrpTypeRsp.len ≥ 4
  | .chars => msg.readByTypeRsp.len ≥ 5
  | .descs => msg.findInfoRsp.format = 0x01 ∨ msg.findInfoRsp.format = 0x02

instance (msg : GattMsgEvent) : ∀ d : Discovery, Decidable (d.Regular msg)
  | .services => inferInstanceAs (Decidable (_ ≥ _))
  | .chars => inferInstanceAs (Decidable (_ ≥ _))
  | .descs => inferInstanceAs (Decidable (_ ∨ _))

/-- The event for the result at `data`. -/
def found (msg : GattMsgEvent) (slot : UInt8) (data : Ptr UInt8) : Discovery → List Enqueue
  | .services =>
    let len := msg.readByGrpTypeRsp.len
    reportServiceFound slot (buildUint16 data 0) (buildUint16 data 2) msg.status.toUInt16 (data.shift 4)
      (if len > 4 then len - 4 else 0)
  | .chars =>
    let len := msg.readByTypeRsp.len
    reportCharFound slot (buildUint16 data 0) (buildUint16 data 3) msg.status.toUInt16 (data.cell 2) (data.shift 5)
      (if len > 5 then len - 5 else 0)
  | .descs =>
    reportDescFound slot (buildUint16 data 0) msg.status.toUInt16 (data.shift 2) (descs.pairLen msg - 2)

/-- Where result `k` of a response is. -/
def pair (d : Discovery) (msg : GattMsgEvent) (k : Nat) : Ptr UInt8 := (d.list msg).shift (k * (d.pairLen msg).toNat)

/-- One event for each result of a response. -/
def results (d : Discovery) (slot : UInt8) (msg : GattMsgEvent) : List Enqueue :=
  (List.range (d.count msg).toNat).flatMap fun k => d.found msg slot (d.pair msg k)

/-- The handle of the last result, behind which a discovery over a range goes
on; a service discovery has none. -/
def lastHandle (d : Discovery) (msg : GattMsgEvent) : UInt16 :=
  let data := d.pair msg ((d.count msg).toNat - 1)
  match d with
  | .services => 0
  | .chars => buildUint16 data 3
  | .descs => buildUint16 data 0

/-- The operation that starts the discovery. -/
def op (startHdl endHdl : UInt16) : Discovery → Op
  | .services => .startDiscoverServices
  | .chars => .startDiscoverChars startHdl endHdl
  | .descs => .startDiscoverDescs startHdl endHdl

/-- The request to the library. -/
def request (connHandle startHdl endHdl : UInt16) (taskId : UInt8) : Discovery → LibCall
  | .services => .discAllPrimaryServices connHandle taskId
  | .chars => .discAllChars connHandle startHdl endHdl taskId
  | .descs => .discAllCharDescs connHandle startHdl endHdl taskId

end Discovery

/-! ## One response -/

theorem flatMap_pairs (f : Ptr UInt8 → List Enqueue) (p : Ptr UInt8) (len n : Nat) :
    (List.range (n + 1)).flatMap (fun k => f (p.shift (k * len))) =
      f p ++ (List.range n).flatMap fun k => f ((p.shift len).shift (k * len)) := by
  rw [List.range_succ_eq_map, List.flatMap_cons, List.flatMap_map, Nat.zero_mul, Ptr.shift_zero]
  congr 2
  funext k
  rw [Ptr.shift_shift, Nat.succ_mul, Nat.add_comm]

theorem reportServices_eq (slot : UInt8) (status pairLen uuidLen : UInt16) (n : Nat) (data : Ptr UInt8) :
    reportServices slot status pairLen uuidLen n data = (List.range n).flatMap fun k =>
      let data := data.shift (k * pairLen.toNat)
      reportServiceFound slot (buildUint16 data 0) (buildUint16 data 2) status (data.shift 4) uuidLen := by
  induction n generalizing data with
  | zero => rfl
  | succ n ih =>
    rw [flatMap_pairs (fun data => reportServiceFound slot (buildUint16 data 0) (buildUint16 data 2) status
      (data.shift 4) uuidLen), reportServices, ih]

theorem reportChars_eq (slot : UInt8) (status pairLen uuidLen : UInt16) (n : Nat) (data : Ptr UInt8) (last : UInt16) :
    reportChars slot status pairLen uuidLen n data last =
      (if n = 0 then last else buildUint16 (data.shift ((n - 1) * pairLen.toNat)) 3,
        (List.range n).flatMap fun k =>
          let data := data.shift (k * pairLen.toNat)
          reportCharFound slot (buildUint16 data 0) (buildUint16 data 3) status (data.cell 2) (data.shift 5)
            uuidLen) := by
  induction n generalizing data last with
  | zero => rfl
  | succ n ih =>
    rw [flatMap_pairs (fun data => reportCharFound slot (buildUint16 data 0) (buildUint16 data 3) status (data.cell 2)
      (data.shift 5) uuidLen), reportChars, ih]
    simp only [Ptr.shift_shift, Nat.add_sub_cancel, Nat.succ_ne_zero, if_false]
    cases n with
    | zero => simp
    | succ n => simp [Nat.succ_mul, Nat.add_comm]

theorem reportDescs_eq (slot : UInt8) (status pairLen : UInt16) (n : Nat) (data : Ptr UInt8) (last : UInt16) :
    reportDescs slot status pairLen n data last =
      (if n = 0 then last else buildUint16 (data.shift ((n - 1) * pairLen.toNat)) 0,
        (List.range n).flatMap fun k =>
          let data := data.shift (k * pairLen.toNat)
          reportDescFound slot (buildUint16 data 0) status (data.shift 2) (pairLen - 2)) := by
  induction n generalizing data last with
  | zero => rfl
  | succ n ih =>
    rw [flatMap_pairs (fun data => reportDescFound slot (buildUint16 data 0) status (data.shift 2) (pairLen - 2)),
      reportDescs, ih]
    simp only [Ptr.shift_shift, Nat.add_sub_cancel, Nat.succ_ne_zero, if_false]
    cases n with
    | zero => simp
    | succ n => simp [Nat.succ_mul, Nat.add_comm]

/-- The handler of a running discovery. -/
def Discovery.handle (lib : AttLib β) (s : State β) (i : Fin bleMaxLinks) (msg : GattMsgEvent) :
    Discovery → State β × List Enqueue
  | .services => handleDiscoverServices s i msg
  | .chars => handleDiscoverChars lib s i msg
  | .descs => handleDiscoverDescs lib s i msg

variable {lib : AttLib β} {s : State β} {i : Fin bleMaxLinks} {d : Discovery} {msg : GattMsgEvent}

theorem handleGattMsg_running {slot : UInt8} (hi : getCtx slot = some i) (hb : (s.links i).procBusy ≠ 0)
    (hp : (s.links i).proc = d.proc) (hm : msg.method = d.response ∨ msg.method = attErrorRsp) :
    handleGattMsg lib s slot msg = d.handle lib s i msg := by
  have hne : msg.method ≠ attMtuUpdatedEvent ∧ msg.method ≠ attHandleValueNoti ∧ msg.method ≠ attHandleValueInd := by
    rcases hm with hm | hm
    all_goals
      rw [hm]
      cases d <;> decide
  simp only [handleGattMsg, hi, hne.1, hne.2.1, hne.2.2, hb, hp, if_false]
  cases d <;> rfl

theorem Discovery.response_ne (hm : msg.method = d.response) {p : Prop} : ¬ (msg.method = attErrorRsp ∧ p) := by
  rintro ⟨he, -⟩
  rw [he] at hm
  cases d <;> exact absurd hm (by decide)

/-- A response without results, or of another shape, is passed over or ends the discovery. -/
theorem Discovery.handle_irregular (hm : msg.method = d.response) (h : ¬ (d.count msg > 0 ∧ d.Regular msg)) :
    (d.handle lib s i msg).2 = [] := by
  have hne {p : Prop} := Discovery.response_ne hm (p := p)
  cases d with
  | services =>
    have hno : ¬ (msg.method = attReadByGrpTypeRsp ∧ msg.readByGrpTypeRsp.numGrps > 0 ∧ msg.readByGrpTypeRsp.len ≥ 4) :=
      fun h' => h h'.2
    simp only [handle, handleDiscoverServices, if_neg hno, if_neg hne]
  | chars =>
    have hno : ¬ (msg.method = attReadByTypeRsp ∧ msg.readByTypeRsp.numPairs > 0 ∧ msg.readByTypeRsp.len ≥ 5) :=
      fun h' => h h'.2
    simp only [handle, handleDiscoverChars, if_neg hno, if_neg hne]
  | descs =>
    simp only [handle, handleDiscoverDescs]
    split
    · next hn =>
      -- a format that is not known
      rw [if_pos (not_or.mp fun hr => h ⟨hn.2, hr⟩)]
    · rw [if_neg hne]

/-- What becomes of the discovery after the results of a response. -/
def Discovery.after (lib : AttLib β) (s : State β) (i : Fin bleMaxLinks) (msg : GattMsgEvent) (d : Discovery) :
    State β :=
  match d with
  | .services => if msg.status = bleProcedureComplete ∨ msg.status = bleTimeout then endProc s i .ready else s
  | .chars => continueRange lib s i msg (lastHandle .chars msg) .discAllChars
  | .descs => continueRange lib s i msg (lastHandle .descs msg) .discAllCharDescs

theorem Discovery.handle_regular (hm : msg.method = d.response) (hn : d.count msg > 0) (hr : d.Regular msg) :
    d.handle lib s i msg = (d.after lib s i msg, d.results (s.links i).slotId msg) := by
  have hne : (d.count msg).toNat ≠ 0 := fun h => UInt16.pos_iff_ne_zero.mp hn (UInt16.toNat_inj.mp h)
  cases d with
  | services =>
    simp only [handle, handleDiscoverServices, reportServices_eq]
    rw [if_pos ⟨hm, hn, hr⟩]
    rfl
  | chars =>
    simp only [handle, handleDiscoverChars, reportChars_eq]
    rw [if_pos ⟨hm, hn, hr⟩]
    simp only [show msg.readByTypeRsp.numPairs.toNat ≠ 0 from hne, if_false]
    rfl
  | descs =>
    have hf : ¬ (msg.findInfoRsp.format ≠ 0x01 ∧ msg.findInfoRsp.format ≠ 0x02) := fun h => not_or.mpr h hr
    simp only [handle, handleDiscoverDescs, reportDescs_eq]
    rw [if_pos ⟨hm, hn⟩, if_neg hf]
    simp only [show msg.findInfoRsp.numInfo.toNat ≠ 0 from hne, if_false]
    rfl

/-- **A response.** Each result is reported, if the response has the shape the handler looks for. -/
theorem Discovery.handle_results (hm : msg.method = d.response) :
    (d.handle lib s i msg).2 = if d.Regular msg then d.results (s.links i).slotId msg else [] := by
  by_cases h : d.count msg > 0 ∧ d.Regular msg
  · rw [handle_regular hm h.1 h.2, if_pos h.2]
  · rw [handle_irregular hm h]
    split
    · next hr =>
      have hn : d.count msg = 0 := by
        by_contra hn
        exact h ⟨UInt16.pos_iff_ne_zero.mpr hn, hr⟩
      rw [Discovery.results, hn]
      rfl
    · rfl

/-- **A response of the discovery that runs.** -/
theorem handleGattMsg_results (lib : AttLib β) {slot : UInt8} (hi : getCtx slot = some i)
    (hb : (s.links i).procBusy ≠ 0)
    (hp : (s.links i).proc = d.proc) (hm : msg.method = d.response) :
    (handleGattMsg lib s slot msg).2 = if d.Regular msg then d.results (s.links i).slotId msg else [] := by
  rw [handleGattMsg_running hi hb hp (.inl hm)]
  exact d.handle_results hm

/-! ## Room for the results -/

namespace Discovery

theorem found_eq (d : Discovery) (msg : GattMsgEvent) (slot : UInt8) (data : Ptr UInt8) :
    ∃ call, d.found msg slot data = [call] ∧ call.Fits .evt := by
  cases d with
  | services | chars | descs => exact ⟨_, rfl, rfl, rfl, by simp [Enqueue.payloadLen]⟩

theorem length_results (d : Discovery) (slot : UInt8) (msg : GattMsgEvent) :
    (d.results slot msg).length = (d.count msg).toNat := by
  have hone (k : Nat) : (d.found msg slot (d.pair msg k)).length = 1 := by
    obtain ⟨call, hc, -⟩ := d.found_eq msg slot (d.pair msg k)
    rw [hc]
    rfl
  simp [results, List.length_flatMap, hone]

theorem results_fit (d : Discovery) (slot : UInt8) (msg : GattMsgEvent) :
    ∀ call ∈ d.results slot msg, call.Fits .evt := by
  intro call hc
  obtain ⟨k, -, hk⟩ := List.mem_flatMap.mp hc
  obtain ⟨call', he, hfits⟩ := d.found_eq msg slot (d.pair msg k)
  rw [he, List.mem_singleton] at hk
  exact hk ▸ hfits

/-- How many results of the shape the handler looks for a list of 21 bytes has. -/
theorem count_of_fits (hr : d.Regular msg) (hfit : (d.count msg).toNat * (d.pairLen msg).toNat ≤ 21) :
    (d.count msg).toNat ≤ 4 ∨ ((d.count msg).toNat = 5 ∧ d.pairLen msg = 4) := by
  have hlen : 4 ≤ (d.pairLen msg).toNat := by
    cases d with
    | services => exact UInt16.le_iff_toNat_le.mp hr
    | chars => exact Nat.le_of_succ_le (UInt16.le_iff_toNat_le.mp hr)
    | descs =>
      simp only [pairLen]
      split <;> decide
  have hcount : (d.count msg).toNat ≤ 5 := by
    by_contra hc
    have : 6 * 4 ≤ (d.count msg).toNat * (d.pairLen msg).toNat := Nat.mul_le_mul (by omega) hlen
    omega
  by_cases h5 : (d.count msg).toNat = 5
  · refine .inr ⟨h5, UInt16.toNat_inj.mp (Nat.le_antisymm ?_ hlen)⟩
    rw [h5] at hfit
    simp only [UInt16.reduceToNat]
    omega
  · exact .inl (by omega)

end Discovery

theorem handleGattMsg_fit (lib : AttLib β) {slot : UInt8} (hi : getCtx slot = some i) (hb : (s.links i).procBusy ≠ 0)
    (hp : (s.links i).proc = d.proc) (hm : msg.method = d.response) :
    ∀ call ∈ (handleGattMsg lib s slot msg).2, call.Fits .evt := by
  rw [handleGattMsg_results lib hi hb hp hm]
  split
  · exact d.results_fit _ msg
  · simp

/-- **The results of one response.** Handled while its discovery runs and the
event queue is empty, a response that fits the default MTU has the first four
of its results in the queue, in order. Nothing is refused up to four; behind
them there can be one more, of a pair of four bytes, and its refusal sets the
dropped bit. A response of another shape leaves the queue empty. -/
theorem discovery_results_queued (lib : AttLib β) (s : State β) {slot : UInt8} {i : Fin bleMaxLinks}
    (hi : getCtx slot = some i) (d : Discovery) (hb : (s.links i).procBusy ≠ 0) (hp : (s.links i).proc = d.proc)
    (msg : GattMsgEvent) (hm : msg.method = d.response)
    (hfit : (d.count msg).toNat * (d.pairLen msg).toNat ≤ 21) (c : Ctx) (hc : (c.queue .evt).toList = []) :
    let calls := (handleGattMsg lib s slot msg).2
    let r := enqueueAll c calls
    calls = (if d.Regular msg then d.results (s.links i).slotId msg else []) ∧
      (r.1.queue .evt).toList.map Frame.bytes = frames c.seq (calls.take 4) ∧
      (.refused .evt ∈ r.2 ↔ 4 < calls.length) ∧ (.refused .evt ∈ r.2 → HasBit r.1.droppedBitmap .evt) ∧
      (4 < calls.length → (d.count msg).toNat = 5 ∧ d.pairLen msg = 4) := by
  intro calls r
  have hcalls := handleGattMsg_results lib hi hb hp hm
  obtain ⟨hqueue, hrefused, hdropped⟩ := enqueueAll_burst (handleGattMsg_fit lib hi hb hp hm) c
  rw [hc] at hqueue hrefused
  refine ⟨hcalls, by simpa using hqueue, by simpa using hrefused, hdropped, fun hlong => ?_⟩
  rw [show calls = _ from hcalls] at hlong
  split at hlong
  · next hr =>
    rw [d.length_results] at hlong
    exact (Discovery.count_of_fits hr hfit).resolve_left (not_le.mpr hlong)
  · cases hlong

/-- A response with descriptors of 16-bit types. -/
def descsRsp (status : UInt8) (numInfo : UInt16) (pInfo : Ptr UInt8) : GattMsgEvent :=
  { serviceRsp status 0 none with method := attFindInfoRsp, findInfoRsp := ⟨numInfo, 0x01, pInfo⟩ }

theorem discovery_results_queued_services :
    let calls := (handleGattMsg willing discovering 0
      (serviceRsp bleSuccess 3 (some [1, 0, 9, 0, 0, 24, 10, 0, 12, 0, 1, 24, 13, 0, 20, 0, 10, 24]))).2
    calls.length = 3 ∧ .refused .evt ∉ (enqueueAll UsbTx.init calls).2 := by
  intro calls
  obtain ⟨-, -, hrefused, -⟩ := discovery_results_queued willing discovering
    (show getCtx 0 = some 0 from rfl) .services (by decide) rfl
    (serviceRsp bleSuccess 3 (some [1, 0, 9, 0, 0, 24, 10, 0, 12, 0, 1, 24, 13, 0, 20, 0, 10, 24])) rfl (by decide)
    UsbTx.init rfl
  have hlen : calls.length = 3 := by decide
  exact ⟨hlen, fun h => absurd (hrefused.mp h) (by rw [show _ = 3 from hlen]; decide)⟩

/-- Five descriptors in one response: the fifth is refused. -/
theorem fifth_descriptor_refused :
    let s := (perform willing (attach willing (init 0 ()) 0 1) 0 (.startDiscoverDescs 1 9)).1
    let msg := descsRsp bleSuccess 5 (some [1, 0, 0, 40, 2, 0, 3, 40, 3, 0, 0, 42, 4, 0, 2, 41, 5, 0, 1, 41])
    let calls := (handleGattMsg willing s 0 msg).2
    (s.links 0).procBusy = 1 ∧ (s.links 0).proc = .discDesc ∧ (Discovery.descs.results 0 msg).length = 5 ∧
      .refused .evt ∈ (enqueueAll UsbTx.init calls).2 ∧
      ((enqueueAll UsbTx.init calls).1.queue .evt).toList.length = 4 := by
  intro s msg calls
  have hfits : ∀ call ∈ calls, call.Fits .evt :=
    handleGattMsg_fit willing (i := 0) (d := .descs) rfl (by decide) rfl rfl
  obtain ⟨hqueue, hrefused, -⟩ := enqueueAll_burst hfits UsbTx.init
  have hlen : calls.length = 5 := by decide
  have hheld := congrArg List.length hqueue
  rw [List.length_map, List.length_append, length_frames, List.length_take, hlen] at hheld
  exact ⟨rfl, rfl, by decide, hrefused.mpr (by rw [hlen]; decide), hheld⟩

/-! ## A discovery's messages -/

end BleLink

/-- The connection a GATT request is for; the peer answers it. -/
def LibCall.request : LibCall → Option UInt16
  | .discAllPrimaryServices connHandle _ => some connHandle
  | .discAllChars connHandle .. => some connHandle
  | .discAllCharDescs connHandle .. => some connHandle
  | .readCharValue connHandle .. => some connHandle
  | .writeCharValue connHandle .. => some connHandle
  | .writeCharDesc connHandle .. => some connHandle
  | .exchangeMtu connHandle .. => some connHandle
  | _ => none

namespace BleLink

/-- The library keeps to `wchble.h`: a discovery it takes runs on its
connection until it is completed, and meanwhile other requests there are
answered with `blePending`. -/
structure Keeps (lib : AttLib β) (Running : β → UInt16 → Prop) : Prop where
  begins : ∀ (d : Discovery) b connHandle startHdl endHdl taskId,
    (lib.call b (d.request connHandle startHdl endHdl taskId)).2 = bleSuccess →
      Running (lib.call b (d.request connHandle startHdl endHdl taskId)).1 connHandle
  pending : ∀ b c connHandle, Running b connHandle → c.request = some connHandle → (lib.call b c).2 = blePending
  goes_on : ∀ b c connHandle, Running b connHandle → Running (lib.call b c).1 connHandle

/-- Before a message of its own the discovery is busy, and each result of a response is reported. -/
def Reports (lib : AttLib β) (d : Discovery) (i : Fin bleMaxLinks) (s : State β) : Input → Prop
  | .gattMsg slot msg => (s.links i).procBusy = 1 ∧ (s.links i).proc = d.proc ∧
      (msg.method = d.response → (handleGattMsg lib s slot msg).2 = d.results (s.links i).slotId msg)
  | _ => True

/-- A discovery runs on link `i`, and the library goes through it. -/
structure Running (running : β → UInt16 → Prop) (d : Discovery) (i : Fin bleMaxLinks) (s : State β) : Prop where
  busy : (s.links i).procBusy = 1
  proc : (s.links i).proc = d.proc
  range : d ≠ .services → (s.links i).rangeEnd ≠ 0
  lib : running s.lib (s.links i).connHandle

theorem mapBleStatus_ne {status : UInt8} (h : status ≠ bleSuccess) : mapBleStatus status ≠ .ok := by
  unfold mapBleStatus
  rw [if_neg h]
  split_ifs <;> decide

theorem startProc_ok {s : State β} {slot : UInt8} {invalid : Prop} [Decidable invalid] {submit : Submit β}
    {proc : LinkProc} {procHandle rangeStart rangeEnd : UInt16} {i : Fin bleMaxLinks} (hi : getCtx slot = some i) :
    let r := startProc s slot invalid submit proc procHandle rangeStart rangeEnd
    let answer := submit s.lib (s.links i).connHandle s.taskId
    r.2 = .ok → ¬ invalid ∧ answer.2 = bleSuccess ∧ r.1.lib = answer.1 ∧
      r.1.links i = begun proc procHandle rangeStart rangeEnd (s.links i) := by
  intro r answer h
  simp only [r, startProc, requireReadyCtx, hi] at h ⊢
  by_cases hc : (s.links i).connHandle = gapConnhandleInit
  · rw [if_pos hc] at h
    cases h
  simp only [if_neg hc] at h ⊢
  by_cases hinvalid : invalid
  · rw [if_pos hinvalid] at h
    cases h
  simp only [if_neg hinvalid, requireIdleProc] at h ⊢
  by_cases hb : (s.links i).procBusy = 0
  · simp only [hb, ne_eq, not_true_eq_false, if_false, State.modify, Function.update_self] at h ⊢
    by_cases ha : answer.2 = bleSuccess
    · rw [if_neg (not_not.mpr ha)]
      exact ⟨hinvalid, ha, rfl, by simp [beginProc, begun, State.modify]⟩
    · rw [if_pos ha] at h
      exact absurd h (mapBleStatus_ne ha)
  · rw [if_pos hb] at h
    cases h

variable {lib : AttLib β} {running : β → UInt16 → Prop} {s : State β} {slot : UInt8} {i : Fin bleMaxLinks}
  {d : Discovery} {msg : GattMsgEvent}

theorem rangeEnd_ne {startHdl endHdl : UInt16} (h : ¬ (startHdl = 0 ∨ endHdl < startHdl)) : endHdl ≠ 0 := by
  rintro rfl
  rw [not_or, UInt16.not_lt] at h
  exact h.1 (UInt16.le_zero_iff.mp h.2)

theorem perform_running (hk : Keeps lib running) (hi : getCtx slot = some i) (startHdl endHdl : UInt16)
    (h : (perform lib s slot (d.op startHdl endHdl)).2.1 = .ok) :
    Running running d i (perform lib s slot (d.op startHdl endHdl)).1 := by
  have begins {b : β} {connHandle : UInt16} {taskId : UInt8} (d : Discovery) :=
    hk.begins d b connHandle startHdl endHdl taskId
  cases d with
  | services =>
    obtain ⟨-, ha, hlib, hlink⟩ := startProc_ok hi h
    refine ⟨?_, ?_, ?_, ?_⟩
    all_goals simp only [perform, startDiscoverServices, Discovery.op, hlib, hlink]
    · rfl
    · rfl
    · exact fun hd => absurd rfl hd
    · exact begins .services ha
  | chars =>
    obtain ⟨hr, ha, hlib, hlink⟩ := startProc_ok hi h
    refine ⟨?_, ?_, ?_, ?_⟩
    all_goals simp only [perform, startDiscoverChars, Discovery.op, hlib, hlink]
    · rfl
    · rfl
    · exact fun _ => rangeEnd_ne hr
    · exact begins .chars ha
  | descs =>
    obtain ⟨hr, ha, hlib, hlink⟩ := startProc_ok hi h
    refine ⟨?_, ?_, ?_, ?_⟩
    all_goals simp only [perform, startDiscoverDescs, Discovery.op, hlib, hlink]
    · rfl
    · rfl
    · exact fun _ => rangeEnd_ne hr
    · exact begins .descs ha

/-- A discovery that goes on behind a handle is refused and ends. -/
theorem continueRange_ends (hk : Keeps lib running) (h : Running running d i s) (hs : msg.status = bleSuccess)
    {last : UInt16} (hlast : last ≠ 0) :
    ((continueRange lib s i msg last fun connHandle startHdl endHdl taskId =>
      d.request connHandle startHdl endHdl taskId).links i).procBusy = 0 := by
  simp only [continueRange]
  split
  · have hreq : (d.request (s.links i).connHandle (last + 1) (s.links i).rangeEnd s.taskId).request =
        some (s.links i).connHandle := by cases d <;> rfl
    rw [hk.pending _ _ _ h.lib hreq, if_pos (by decide)]
    exact (ended_endProc _ i).1
  · next hno =>
    have hge : last ≥ (s.links i).rangeEnd := UInt16.not_lt.mp fun hlt => hno ⟨hs, hlast, hlt⟩
    rw [if_pos (.inr (.inr hge))]
    exact (ended_endProc s i).1

/-- A response without a handle to go on behind is only reported. -/
theorem continueRange_stays (h : Running running d i s) (hd : d ≠ .services) (hs : msg.status = bleSuccess)
    (call : UInt16 → UInt16 → UInt16 → UInt8 → LibCall) : continueRange lib s i msg 0 call = s := by
  have hnot : ¬ (msg.status = bleProcedureComplete ∨ msg.status = bleTimeout ∨ 0 ≥ (s.links i).rangeEnd) := by
    rw [hs]
    rintro (hc | hc | hc)
    · exact absurd hc (by decide)
    · exact absurd hc (by decide)
    · exact h.range hd (UInt16.le_zero_iff.mp hc)
  simp only [continueRange]
  rw [if_neg fun hc => hc.2.1 rfl, if_neg hnot]

/-- Before a response, a running discovery reports it exactly if it has the shape its handler looks for. -/
theorem reports_iff (h : Running running d i s) (hi : getCtx slot = some i) (hm : msg.method = d.response)
    (hn : d.count msg > 0) : Reports lib d i s (.gattMsg slot msg) ↔ d.Regular msg := by
  have hb : (s.links i).procBusy ≠ 0 := by
    rw [h.busy]
    decide
  simp only [Reports, h.busy, h.proc, hm, true_and, forall_const, handleGattMsg_results lib hi hb h.proc hm]
  by_cases hr : d.Regular msg
  · simp [hr]
  · refine iff_of_false ?_ hr
    rw [if_neg hr]
    intro he
    have hlen := d.length_results (s.links i).slotId msg
    rw [← he] at hlen
    exact UInt16.pos_iff_ne_zero.mp hn (UInt16.toNat_inj.mp hlen.symm)

/-- After a response with status SUCCESS the discovery runs as before, if it passes, or has ended. -/
theorem response_step (hk : Keeps lib running) (h : Running running d i s) (hi : getCtx slot = some i)
    (hm : msg.method = d.response) (hs : msg.status = bleSuccess) (hn : d.count msg > 0) (hr : d.Regular msg) :
    let s' := (step lib s (.gattMsg slot msg)).1
    (d.lastHandle msg = 0 → s' = s) ∧ (d.lastHandle msg ≠ 0 → (s'.links i).procBusy = 0) := by
  have hb : (s.links i).procBusy ≠ 0 := by
    rw [h.busy]
    decide
  have hstep : step lib s (.gattMsg slot msg) = d.handle lib s i msg := handleGattMsg_running hi hb h.proc (.inl hm)
  rw [hstep, Discovery.handle_regular hm hn hr]
  cases d with
  | services =>
    have hnot : ¬ (msg.status = bleProcedureComplete ∨ msg.status = bleTimeout) := by
      rw [hs]
      decide
    exact ⟨fun _ => if_neg hnot, fun hl => absurd rfl hl⟩
  | chars | descs =>
    refine ⟨fun hl => ?_, fun hl => continueRange_ends hk h hs hl⟩
    simp only [Discovery.after, hl]
    exact continueRange_stays h (by decide) hs _

/-- A discovery that has ended is not busy before its next message. -/
theorem not_along_of_ended (h : (s.links i).procBusy = 0) (rsps : List GattMsgEvent) (final : GattMsgEvent) :
    ¬ Mealy.Along (step lib) (Reports lib d i) s ((rsps ++ [final]).map (.gattMsg slot)) := by
  intro ha
  have hbusy : (s.links i).procBusy = 1 := by
    cases rsps with
    | nil => exact ha.1.1
    | cons msg rsps => exact ha.1.1
  rw [h] at hbusy
  exact absurd hbusy (by decide)

/-- **A discovery reports what is delivered**, and stays busy until the last
message, the one that completes it, exactly if no response before that one
gives its handler a handle to go on behind, and all responses have the shape it
looks for. A service discovery has no such handle. -/
theorem discovery_reports_iff (lib : AttLib β) (running : β → UInt16 → Prop) (hk : Keeps lib running) (s : State β)
    {slot : UInt8} {i : Fin bleMaxLinks} (hi : getCtx slot = some i) (d : Discovery) (startHdl endHdl : UInt16)
    (hok : (perform lib s slot (d.op startHdl endHdl)).2.1 = .ok) (rsps : List GattMsgEvent)
    (hrsps : ∀ msg ∈ rsps, msg.method = d.response ∧ msg.status = bleSuccess ∧ d.count msg > 0) (final : GattMsgEvent)
    (hn : final.method = d.response → d.count final > 0) :
    Mealy.Along (step lib) (Reports lib d i) (perform lib s slot (d.op startHdl endHdl)).1
        ((rsps ++ [final]).map (.gattMsg slot)) ↔
      (∀ msg ∈ rsps, d.Regular msg ∧ d.lastHandle msg = 0) ∧ (final.method = d.response → d.Regular final) := by
  have hrun := perform_running hk hi startHdl endHdl hok
  generalize (perform lib s slot (d.op startHdl endHdl)).1 = s' at hrun
  induction rsps with
  | nil =>
    have hlast : Mealy.Along (step lib) (Reports lib d i) s' (([] ++ [final]).map (.gattMsg slot)) ↔
        Reports lib d i s' (.gattMsg slot final) := and_iff_left trivial
    rw [hlast]
    by_cases hm : final.method = d.response
    · rw [reports_iff hrun hi hm (hn hm)]
      simp [hm]
    · exact iff_of_true ⟨hrun.busy, hrun.proc, fun h => absurd h hm⟩ ⟨by simp, fun h => absurd h hm⟩
  | cons msg rsps ih =>
    obtain ⟨hm, hs, hc⟩ := hrsps msg List.mem_cons_self
    rw [List.cons_append, List.map_cons, Mealy.along_cons, reports_iff hrun hi hm hc, List.forall_mem_cons]
    by_cases hr : d.Regular msg
    · obtain ⟨hstays, hends⟩ := response_step hk hrun hi hm hs hc hr
      by_cases hl : d.lastHandle msg = 0
      · have hrest := ih fun msg' hmem => hrsps msg' (List.mem_cons_of_mem msg hmem)
        rw [hstays hl]
        refine (and_congr_right fun _ => hrest).trans ?_
        simp [hr, hl]
      · exact iff_of_false (fun h => not_along_of_ended (hends hl) rsps final h.2) fun h => hl h.1.1.2
    · exact iff_of_false (fun h => hr h.1) fun h => hr h.1.1.1

/-- A library that takes one request and goes through it: the others are pending. -/
def sequential : AttLib Bool where
  call busy _ := (true, if busy then blePending else bleSuccess)
  bmAlloc busy _ _ _ := (busy, some 0)
  bmWrite busy _ _ := busy
  bmFree busy _ _ := busy
  getMtu busy _ := (busy, attMtuSize)
  handleValueCfm busy _ := (busy, bleSuccess)

theorem sequential_keeps : Keeps sequential fun busy _ => busy = true where
  begins _ _ _ _ _ _ _ := rfl
  pending _ _ _ hb _ := by rw [hb]; rfl
  goes_on _ _ _ _ := rfl

/-- Link 0 before it is asked to discover anything. -/
def attached : State Bool := attach sequential (init 0 false) 0 1

/-- A response with characteristics of 16-bit types. -/
def charsRsp (status : UInt8) (numPairs : UInt16) (pDataList : Ptr UInt8) : GattMsgEvent :=
  { serviceRsp status 0 none with method := attReadByTypeRsp, readByTypeRsp := ⟨numPairs, 7, pDataList⟩ }

theorem discovery_reports_iff_at_once :
    Mealy.Along (step sequential) (Reports sequential .chars 0)
      (perform sequential attached 0 (.startDiscoverChars 1 9)).1
      ([charsRsp bleProcedureComplete 1 (some [2, 0, 2, 3, 0, 0, 42])].map (.gattMsg 0)) :=
  (discovery_reports_iff sequential _ sequential_keeps attached (i := 0) rfl .chars 1 9 (by decide) [] (by simp) _
    (by decide)).mpr ⟨by simp, by decide⟩

/-- One response before the completing message, and the discovery is over. -/
theorem later_chars_unreported :
    let s := (perform sequential attached 0 (.startDiscoverChars 1 9)).1
    let rsp := charsRsp bleSuccess 1 (some [2, 0, 2, 3, 0, 0, 42])
    let final := charsRsp bleProcedureComplete 1 (some [4, 0, 2, 5, 0, 1, 42])
    let s' := (step sequential s (.gattMsg 0 rsp)).1
    (perform sequential attached 0 (.startDiscoverChars 1 9)).2.1 = .ok ∧ Completes final .discChar ∧
      (s'.links 0).procBusy = 0 ∧ (step sequential s' (.gattMsg 0 final)).2 = [] ∧
      ¬ Mealy.Along (step sequential) (Reports sequential .chars 0) s ([rsp, final].map (.gattMsg 0)) := by
  intro s rsp final s'
  have hidle : (s'.links 0).procBusy = 0 := by decide
  exact ⟨by decide, .inl ⟨rfl, .inl rfl⟩, hidle, by decide, fun h => not_along_of_ended hidle [] final h.2⟩

end BleLink

end UsbMux
