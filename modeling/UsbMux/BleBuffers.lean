/-
What the BLE modules have to give back: the buffers of write requests, which
the library takes over when it accepts the request, and the messages of the
task with their payloads. A library that writes down what is done with them
(`TaskLib.ledgered`) shows that after every call all of it has been given back
exactly once, and nothing is used from then on (`buffers_accounted`).
-/
import UsbMux.Lib.Ownership
import UsbMux.BleSteps

namespace UsbMux

open Ownership UsbTx

variable {β : Type}

/-! ## What is given back -/

/-- A buffer of `GATT_bm_alloc`, a message of `tmos_msg_receive` or its payload, at an address. -/
inductive Resource
  | buffer (addr : Nat)
  | message (addr : Nat)
  | payload (addr : Nat)
deriving DecidableEq

/-- Taken over by a call that answers SUCCESS, or given back to `GATT_bm_free` or `tmos_msg_deallocate`. -/
inductive Fate
  | taken | freed | deallocated
deriving DecidableEq

abbrev Ledger := List (Act Resource Fate)

/-- The request of a call that can take over its buffer. -/
def LibCall.writeReq : LibCall → Option WriteReq
  | .writeCharValue _ req _ | .writeCharDesc _ req _ | .writeNoRsp _ req => some req
  | _ => none

/-- The library with what a task does with its messages: `GATT_bm_free` of the
payload of the message at an address, and `tmos_msg_deallocate`. -/
structure TaskLib (β : Type) extends AttLib β where
  bmFreeMsg : β → Nat → UInt8 → β
  msgDeallocate : β → Nat → β

/-- What becomes of the buffer of a write request; it may have none. -/
def WriteReq.acts (req : WriteReq) (act : Resource → Act Resource Fate) : Ledger :=
  req.pValue.toList.map fun addr => act (.buffer addr)

/-- A call with its answer. -/
def LibCall.acts (c : LibCall) (status : UInt8) : Ledger :=
  match c.writeReq with
  | some req => if status = bleSuccess then req.acts (.settle · .taken) else []
  | none => []

/-- `lib`, with what is done with buffers and messages written down. -/
def TaskLib.ledgered (lib : TaskLib β) : TaskLib (β × Ledger) where
  call b c := let r := lib.call b.1 c; ((r.1, b.2 ++ c.acts r.2), r.2)
  bmAlloc b connHandle opcode len :=
    let r := lib.bmAlloc b.1 connHandle opcode len
    ((r.1, b.2 ++ r.2.toList.map fun addr => .acquire (.buffer addr)), r.2)
  bmWrite b addr bytes := (lib.bmWrite b.1 addr bytes, b.2 ++ [.use (.buffer addr)])
  bmFree b req opcode := (lib.bmFree b.1 req opcode, b.2 ++ req.acts (.settle · .freed))
  getMtu b connHandle := let r := lib.getMtu b.1 connHandle; ((r.1, b.2), r.2)
  handleValueCfm b connHandle := let r := lib.handleValueCfm b.1 connHandle; ((r.1, b.2), r.2)
  bmFreeMsg b addr method := (lib.bmFreeMsg b.1 addr method, b.2 ++ [.settle (.payload addr) .freed])
  msgDeallocate b addr := (lib.msgDeallocate b.1 addr, b.2 ++ [.settle (.message addr) .deallocated])

namespace BleHost

open BleLink

/-! ## The task's messages -/

abbrev sysEventMsg : UInt16 := 0x8000

abbrev gattMsgEvent : UInt8 := 0xB0

/-- A message that `tmos_msg_receive` answers; `msg` is there under `GATT_MSG_EVENT`. -/
structure TaskMsg where
  addr : Nat
  event : UInt8
  msg : GattMsgEvent

/-- What the loop of `BleHostMgr_ProcessEvent` calls. -/
inductive LoopCall
  | receive (m : TaskMsg)
  | processGattMsg (m : TaskMsg)
  | bmFree (m : TaskMsg)
  | msgDeallocate (m : TaskMsg)

/-- The loop's body, from the call that answers the message on. -/
def loopBody (m : TaskMsg) : List LoopCall :=
  [.receive m] ++ (if m.event = gattMsgEvent then [.processGattMsg m, .bmFree m] else []) ++ [.msgDeallocate m]

def loopStep (lib : TaskLib β) : Mealy.Step (State β) LoopCall Enqueue
  | s, .receive _ => (s, [])
  | s, .processGattMsg m => processGattMsg lib.toAttLib s m.msg
  | s, .bmFree m => ({ s with link := { s.link with lib := lib.bmFreeMsg s.link.lib m.addr m.msg.method } }, [])
  | s, .msgDeallocate m => ({ s with link := { s.link with lib := lib.msgDeallocate s.link.lib m.addr } }, [])

/-- `BleHostMgr_ProcessEvent` by what its loop calls. The messages are those
that are received until there is none; the last value is the events left. -/
def processEvent (loop : Mealy.Step (State β) LoopCall Enqueue) (s : State β) (events : UInt16)
    (msgs : List TaskMsg) : State β × List Enqueue × UInt16 :=
  if events &&& sysEventMsg ≠ 0 then
    let calls := msgs.flatMap loopBody
    (Mealy.run loop s calls, Mealy.outs loop s calls, events ^^^ sysEventMsg)
  else (s, [], 0)

/-! ## The ledger -/

/-- What has been done with buffers and messages. -/
def State.ledger (s : State (β × Ledger)) : Ledger := s.link.lib.2

def State.book (s : State (β × Ledger)) (acts : Ledger) : State (β × Ledger) :=
  { s with link := { s.link with lib := (s.link.lib.1, s.link.lib.2 ++ acts) } }

/-- A state over a library that writes down, with nothing written yet. -/
def State.opened (s : State β) : State (β × Ledger) where
  mgr := s.mgr
  link := { links := s.link.links, taskId := s.link.taskId, lib := (s.link.lib, []) }

/-- What the loop's calls do with a message but for the library's own two: it is received, and its handler runs. -/
def LoopCall.acts : LoopCall → Ledger
  | .receive m => .acquire (.message m.addr) :: if m.event = gattMsgEvent then [.acquire (.payload m.addr)] else []
  | .processGattMsg m => [.use (.payload m.addr)]
  | _ => []

def ledgerLoop (lib : TaskLib β) : Mealy.Step (State (β × Ledger)) LoopCall Enqueue := fun s call =>
  let r := loopStep lib.ledgered s call
  (r.1.book call.acts, r.2)

/-- What is called: an operation of a link, the handler of a management
command, that of an event, and the task's. -/
inductive Call
  | perform (slot : UInt8) (op : Op)
  | handleMgmt (hdr : VpHdr) (payload : Ptr UInt8) (payloadLen : UInt16)
  | eventCb (evt : GapEvent)
  | processEvent (events : UInt16) (msgs : List TaskMsg)

def ledgerStep (lib : TaskLib β) : Mealy.Step (State (β × Ledger)) Call Enqueue
  | s, .perform slot op =>
    let r := perform lib.ledgered.toAttLib s.link slot op
    ({ s with link := r.1 }, r.2.2)
  | s, .handleMgmt hdr payload payloadLen => handleMgmt lib.ledgered.toBleLib s hdr payload payloadLen
  | s, .eventCb evt => eventCb lib.ledgered.toAttLib s evt
  | s, .processEvent events msgs =>
    let r := processEvent (ledgerLoop lib) s events msgs
    (r.1, r.2.1)

/-- The messages that are received. -/
def Call.received : Call → List TaskMsg
  | .processEvent events msgs => if events &&& sysEventMsg ≠ 0 then msgs else []
  | _ => []

/-- What is done with a message: for a GATT message, the handler runs, then the
payload is released, then the message. -/
def disposal (m : TaskMsg) : Ledger :=
  if m.event = gattMsgEvent then
    [.acquire (.message m.addr), .acquire (.payload m.addr), .use (.payload m.addr), .settle (.payload m.addr) .freed,
      .settle (.message m.addr) .deallocated]
  else [.acquire (.message m.addr), .settle (.message m.addr) .deallocated]

/-- Not about a buffer. -/
def ofMessage (act : Act Resource Fate) : Bool :=
  match act.addr with
  | .buffer _ => false
  | .message _ | .payload _ => true

/-! ## Accounts of a call -/

/-- A call adds an account, with this for messages. -/
def Adds (disposed log log' : Ledger) : Prop :=
  ∃ new, log' = log ++ new ∧ Accounted new ∧ new.filter ofMessage = disposed

theorem Adds.refl (log : Ledger) : Adds [] log log := ⟨[], by simp, accounted_nil, rfl⟩

theorem Adds.trans {d d' log log' log'' : Ledger} (h : Adds d log log') (h' : Adds d' log' log'') :
    Adds (d ++ d') log log'' := by
  obtain ⟨new, rfl, hacc, hd⟩ := h
  obtain ⟨new', rfl, hacc', hd'⟩ := h'
  exact ⟨new ++ new', by rw [List.append_assoc], hacc.append hacc', by rw [List.filter_append, hd, hd']⟩

theorem Adds.buffer (log : Ledger) (addr n : Nat) (fate : Fate) :
    Adds [] log (log ++ .acquire (.buffer addr) :: ending (.buffer addr) n fate) := by
  refine ⟨_, rfl, accounted_single _ n fate, ?_⟩
  have hnone : ∀ act ∈ Act.acquire (.buffer addr) :: ending (.buffer addr) n fate, ¬ ofMessage act = true := by
    intro act hact
    have haddr : act.addr = .buffer addr := by
      rcases List.mem_cons.mp hact with rfl | hact
      · rfl
      · exact addr_of_ending act hact
    simp [ofMessage, haddr]
  exact List.filter_eq_nil_iff.mpr hnone

variable (lib : TaskLib β)

/-- A request without a buffer, or with one that is not given back yet. -/
theorem allocWriteReq_ledger (b : β × Ledger) (connHandle : UInt16) (opcode : UInt8) (attrHandle : UInt16)
    (buf : Ptr UInt8) (len : UInt16) (cmd : UInt8) :
    let a := allocWriteReq lib.ledgered.toBleLib b connHandle opcode attrHandle buf len cmd
    (a.2.1.pValue = none ∧ a.1.2 = b.2) ∨
      ∃ addr n, a.2.1.pValue = some addr ∧ a.2.2 = bleSuccess ∧
        a.1.2 = b.2 ++ .acquire (.buffer addr) :: List.replicate n (.use (.buffer addr)) := by
  simp only [allocWriteReq, TaskLib.ledgered]
  split
  · next hnull => exact .inl ⟨hnull, by simp [hnull]⟩
  · next addr hsome =>
    refine .inr ?_
    split
    · exact ⟨addr, 1, hsome, rfl, by simp [hsome]⟩
    · exact ⟨addr, 0, hsome, rfl, by simp [hsome]⟩

/-- **A write request**: its buffer is taken over or released. -/
theorem submitWrite_adds {call : UInt16 → WriteReq → UInt8 → LibCall}
    (hcall : ∀ connHandle req taskId, (call connHandle req taskId).writeReq = some req) (attrHandle : UInt16)
    (buf : Ptr UInt8) (len : UInt16) (cmd : UInt8) (b : β × Ledger) (connHandle : UInt16) (taskId : UInt8) :
    Adds [] b.2 (submitWrite lib.ledgered.toBleLib call attrHandle buf len cmd b connHandle taskId).1.2 := by
  have ha := allocWriteReq_ledger lib b connHandle attWriteReq attrHandle buf len cmd
  simp only [submitWrite]
  generalize allocWriteReq lib.ledgered.toBleLib b connHandle attWriteReq attrHandle buf len cmd = a at ha
  have hacts (status : UInt8) : (call connHandle a.2.1 taskId).acts status =
      if status = bleSuccess then a.2.1.acts (.settle · .taken) else [] := by
    simp only [LibCall.acts, hcall]
  have hcalled : (lib.ledgered.call a.1 (call connHandle a.2.1 taskId)).1.2 =
      a.1.2 ++ (call connHandle a.2.1 taskId).acts (lib.ledgered.call a.1 (call connHandle a.2.1 taskId)).2 := rfl
  generalize lib.ledgered.call a.1 (call connHandle a.2.1 taskId) = r at hcalled
  have hfreed : (lib.ledgered.bmFree r.1 a.2.1 attWriteReq).2 = r.1.2 ++ a.2.1.acts (.settle · .freed) := rfl
  rcases ha with ⟨hnull, hlog⟩ | ⟨addr, n, hsome, hok, hlog⟩
  · -- neither the call nor the release is given a buffer
    have hnone (act : Resource → Act Resource Fate) : a.2.1.acts act = [] := by simp [WriteReq.acts, hnull]
    simp only [hacts, hnone, ite_self, List.append_nil] at hcalled hfreed
    split
    · exact hlog ▸ .refl b.2
    split
    · rw [hfreed, hcalled, hlog]
      exact .refl b.2
    · rw [hcalled, hlog]
      exact .refl b.2
  · have hone (act : Resource → Act Resource Fate) : a.2.1.acts act = [act (.buffer addr)] := by
      simp [WriteReq.acts, hsome]
    have hbuffer (fate : Fate) := Adds.buffer b.2 addr n fate
    simp only [hacts, hone] at hcalled hfreed
    rw [if_neg (not_not.mpr hok)]
    split
    · next hr =>
      rw [if_neg hr, List.append_nil] at hcalled
      rw [hfreed, hcalled, hlog, List.append_assoc]
      exact hbuffer .freed
    · next hr =>
      rw [if_pos (not_not.mp hr)] at hcalled
      rw [hcalled, hlog, List.append_assoc]
      exact hbuffer .taken

theorem call_adds {c : LibCall} (hc : c.writeReq = none) (b : β × Ledger) :
    Adds [] b.2 (lib.ledgered.call b c).1.2 := by
  have hlog : (lib.ledgered.call b c).1.2 = b.2 ++ c.acts (lib.ledgered.call b c).2 := rfl
  rw [hlog, LibCall.acts, hc, List.append_nil]
  exact .refl b.2

theorem startProc_adds (l : BleLink.State (β × Ledger)) (slot : UInt8) (invalid : Prop) [Decidable invalid]
    {submit : Submit (β × Ledger)} (hsub : ∀ b connHandle taskId, Adds [] b.2 (submit b connHandle taskId).1.2)
    (proc : LinkProc) (procHandle rangeStart rangeEnd : UInt16) :
    Adds [] l.lib.2 (startProc l slot invalid submit proc procHandle rangeStart rangeEnd).1.lib.2 := by
  rcases startProc_lib l slot invalid submit proc procHandle rangeStart rangeEnd with hl | ⟨i, -, hl⟩
  · rw [hl]
    exact .refl _
  · rw [hl]
    exact hsub ..

/-- **Operations** of a link. -/
theorem perform_adds (l : BleLink.State (β × Ledger)) (slot : UInt8) (op : Op) :
    Adds [] l.lib.2 (perform lib.ledgered.toAttLib l slot op).1.lib.2 := by
  cases op with
  | writeCmd attrHandle buf len =>
    rcases writeCmd_lib lib.ledgered.toBleLib l slot attrHandle buf len with hl | ⟨i, -, hl⟩
    · exact hl ▸ .refl _
    · exact hl ▸ submitWrite_adds lib (fun _ _ _ => rfl) ..
  | writeReq | subscribe | unsubscribe =>
    refine startProc_adds l slot _ ?_ _ _ _ _
    exact submitWrite_adds lib (fun _ _ _ => rfl) _ _ _ _
  | _ => exact startProc_adds l slot _ (fun b _ _ => call_adds lib rfl b) ..

/-- **Messages** to a link. -/
theorem processGattMsg_adds (s : State (β × Ledger)) (msg : GattMsgEvent) :
    Adds [] s.ledger (processGattMsg lib.ledgered.toAttLib s msg).1.ledger := by
  unfold processGattMsg
  split
  · exact .refl _
  next i _ =>
  have ha := handleGattMsg_lib lib.ledgered.toAttLib s.link (getCtx_slotByte i) msg
  simp only [State.ledger]
  generalize (handleGattMsg lib.ledgered.toAttLib s.link (slotByte i) msg).1.lib = b at ha
  cases ha with
  | nothing => exact .refl _
  | confirmed => exact .refl _
  | chars => exact call_adds lib rfl _
  | descs => exact call_adds lib rfl _

/-! ### Commands and events -/

theorem Connecting.adds {s : State (β × Ledger)} {hdr : VpHdr} {payload : Ptr UInt8} {payloadLen : UInt16}
    {r : State (β × Ledger) × List Enqueue} (h : Connecting lib.ledgered.toBleLib s hdr payload payloadLen r) :
    Adds [] s.ledger r.1.ledger := by
  cases h with
  | atOnce => exact .refl _
  | @asked _ _ _ _ addr s' _ _ hr =>
    have hlib : s'.link.lib = (lib.ledgered.call s.link.lib (.centralEstablishLink 0 0 (payload.cell 1) addr)).1 :=
      congrArg Prod.fst hr
    rw [State.ledger, State.ledger, hlib]
    exact call_adds lib rfl _

theorem setScanParam_adds (s : State (β × Ledger)) (hdr : VpHdr) (payload : Ptr UInt8) (payloadLen : UInt16) :
    Adds [] s.ledger (setScanParam lib.ledgered.toBleLib s hdr payload payloadLen).1.ledger := by
  simp only [setScanParam]
  split
  · exact .refl _
  · exact .trans (.trans (call_adds lib rfl _) (call_adds lib rfl _)) (call_adds lib rfl _)

theorem scanStart_adds (s : State (β × Ledger)) (hdr : VpHdr) :
    Adds [] s.ledger (scanStart lib.ledgered.toBleLib s hdr).1.ledger := by
  simp only [scanStart]
  split
  · exact .refl _
  · split
    · exact call_adds lib rfl _
    · exact call_adds lib rfl _

theorem scanStop_adds (s : State (β × Ledger)) (hdr : VpHdr) :
    Adds [] s.ledger (scanStop lib.ledgered.toBleLib s hdr).1.ledger := by
  simp only [scanStop]
  split
  · exact call_adds lib rfl _
  · exact call_adds lib rfl _

theorem ConnCall.writeReq {connHandle : UInt16} {c : LibCall} (hc : ConnCall connHandle c) : c.writeReq = none := by
  cases hc <;> rfl

/-- **Every command.** -/
theorem handleMgmt_adds (s : State (β × Ledger)) (hdr : VpHdr) (payload : Ptr UInt8) (payloadLen : UInt16) :
    Adds [] s.ledger (handleMgmt lib.ledgered.toBleLib s hdr payload payloadLen).1.ledger := by
  have hk := handleMgmt_kind lib.ledgered.toAttLib s hdr payload payloadLen
  generalize handleMgmt lib.ledgered.toBleLib s hdr payload payloadLen = r at hk ⊢
  cases hk with
  | answered => exact .refl _
  | setScanParam => exact setScanParam_adds lib s hdr payload payloadLen
  | scanStart => exact scanStart_adds lib s hdr
  | scanStop => exact scanStop_adds lib s hdr
  | connect h => exact h.adds lib
  | @onLink i _ _ op => exact perform_adds lib s.link (slotByte i) op
  | onConn _ _ hcall => exact call_adds lib hcall.writeReq _

theorem eventCb_adds (s : State (β × Ledger)) (evt : GapEvent) :
    Adds [] s.ledger (eventCb lib.ledgered.toAttLib s evt).1.ledger := by
  have hreset (i : Fin bleMaxLinks) : (BleLink.reset s.link (slotByte i)).lib.2 = s.ledger :=
    congrArg Prod.snd (reset_slotByte s.link i).2.2.2
  cases evt with
  | deviceInitDone | deviceInfo | extAdvDeviceInfo | deviceDiscovery | other => exact .refl _
  | linkEstablished status connectionHandle devAddrType devAddr =>
    simp only [eventCb]
    split
    · exact .refl _
    split
    · simp only [State.ledger, linkUp, attach, getCtx_slotByte]
      exact .refl _
    · exact (hreset _).symm ▸ .refl _
  | linkTerminated connectionHandle reason =>
    simp only [eventCb]
    split
    · exact .refl _
    · exact (hreset _).symm ▸ .refl _

/-! ### Messages of the task -/

/-- What is done with a GATT message, around what its handler does. -/
theorem disposal_adds (addr : Nat) (log : Ledger) {new : Ledger} (hacc : Accounted new)
    (hnew : new.filter ofMessage = []) :
    Adds [.acquire (.message addr), .acquire (.payload addr), .use (.payload addr), .settle (.payload addr) .freed,
        .settle (.message addr) .deallocated] log
      (log ++ .acquire (.message addr) :: ((.acquire (.payload addr) :: (new ++ ending (.payload addr) 1 .freed)) ++
        ending (.message addr) 0 .deallocated)) := by
  have hother : ∀ act ∈ new, act.addr ≠ .payload addr ∧ act.addr ≠ .message addr := by
    intro act hact
    have hno := List.filter_eq_nil_iff.mp hnew act hact
    constructor
    all_goals
      intro haddr
      simp [ofMessage, haddr] at hno
  have hpayload := hacc.around (fun act hact => (hother act hact).1) 1 Fate.freed
  refine ⟨_, rfl, hpayload.around ?_ 0 .deallocated, ?_⟩
  · intro act hact
    simp only [ending, List.replicate_one, List.mem_cons, List.mem_append, List.not_mem_nil, or_false] at hact
    rcases hact with rfl | hact | rfl | rfl
    · simp [Act.addr]
    · exact (hother act hact).2
    · simp [Act.addr]
    · simp [Act.addr]
  · simp [ending, List.filter_cons, ofMessage, Act.addr, hnew]

section Calls

variable (s : State (β × Ledger)) (m : TaskMsg)

@[simp] theorem ledger_book (acts : Ledger) : (s.book acts).ledger = s.ledger ++ acts := rfl

theorem ledgerLoop_receive :
    (ledgerLoop lib s (.receive m)).1 = s.book (LoopCall.receive m).acts := rfl

theorem ledger_processGattMsg :
    (ledgerLoop lib s (.processGattMsg m)).1.ledger =
      (processGattMsg lib.ledgered.toAttLib s m.msg).1.ledger ++ [.use (.payload m.addr)] := rfl

theorem ledger_bmFree :
    (ledgerLoop lib s (.bmFree m)).1.ledger = s.ledger ++ [.settle (.payload m.addr) .freed] :=
  List.append_nil _

theorem ledger_msgDeallocate :
    (ledgerLoop lib s (.msgDeallocate m)).1.ledger = s.ledger ++ [.settle (.message m.addr) .deallocated] :=
  List.append_nil _

/-- **A message**, from when it is received on. -/
theorem loopBody_adds : Adds (disposal m) s.ledger (Mealy.run (ledgerLoop lib) s (loopBody m)).ledger := by
  by_cases hg : m.event = gattMsgEvent
  · have hreceived := processGattMsg_adds lib (s.book (LoopCall.receive m).acts) m.msg
    obtain ⟨new, hlog, hacc, hnew⟩ := hreceived
    have hd := disposal_adds m.addr s.ledger hacc hnew
    have hrun : (Mealy.run (ledgerLoop lib) s (loopBody m)).ledger =
        (processGattMsg lib.ledgered.toAttLib (s.book (LoopCall.receive m).acts) m.msg).1.ledger ++
          [.use (.payload m.addr)] ++ [.settle (.payload m.addr) .freed] ++
          [.settle (.message m.addr) .deallocated] := by
      rw [loopBody, if_pos hg]
      simp only [List.cons_append, List.nil_append, Mealy.run_cons, Mealy.run_nil, ledger_msgDeallocate,
        ledger_bmFree, ledger_processGattMsg, ledgerLoop_receive]
    rw [hrun, hlog, disposal, if_pos hg]
    simpa [LoopCall.acts, hg, ending] using hd
  · have hrun : (Mealy.run (ledgerLoop lib) s (loopBody m)).ledger =
        s.ledger ++ (LoopCall.receive m).acts ++ [.settle (.message m.addr) .deallocated] := by
      rw [loopBody, if_neg hg]
      simp only [List.cons_append, List.nil_append, Mealy.run_cons, Mealy.run_nil, ledger_msgDeallocate,
        ledgerLoop_receive, ledger_book]
    rw [hrun, disposal, if_neg hg]
    refine ⟨.acquire (Resource.message m.addr) :: ending (Resource.message m.addr) 0 Fate.deallocated, ?_, ?_, ?_⟩
    · simp [LoopCall.acts, hg, ending]
    · exact accounted_single (Resource.message m.addr) 0 Fate.deallocated
    · simp [ending, List.filter_cons, ofMessage, Act.addr]

end Calls

theorem processEvent_adds (s : State (β × Ledger)) (msgs : List TaskMsg) :
    Adds (msgs.flatMap disposal) s.ledger (Mealy.run (ledgerLoop lib) s (msgs.flatMap loopBody)).ledger := by
  induction msgs generalizing s with
  | nil => exact .refl _
  | cons m msgs ih =>
    rw [List.flatMap_cons, List.flatMap_cons, Mealy.run_append]
    exact (loopBody_adds lib s m).trans (ih _)

/-! ## Runs -/

/-- **Every call** adds an account, with what is done with the messages it receives. -/
theorem ledgerStep_adds (s : State (β × Ledger)) (call : Call) :
    Adds (call.received.flatMap disposal) s.ledger (ledgerStep lib s call).1.ledger := by
  cases call with
  | perform slot op => exact perform_adds lib s.link slot op
  | handleMgmt hdr payload payloadLen => exact handleMgmt_adds lib s hdr payload payloadLen
  | eventCb evt => exact eventCb_adds lib s evt
  | processEvent events msgs =>
    simp only [ledgerStep, processEvent, Call.received]
    split
    · exact processEvent_adds lib s msgs
    · exact .refl _

/-- **Nothing is leaked and nothing given back twice.** After any calls, from
any state and whatever the library answers: each buffer that `GATT_bm_alloc`
has answered was taken over by a call with SUCCESS or given to `GATT_bm_free`,
once, and not written from then on; and of each message received the handler
has run if it is a GATT message, its payload has then been released and the
message deallocated, once. -/
theorem buffers_accounted (lib : TaskLib β) (s : State β) (calls : List Call) :
    let ledger := (Mealy.run (ledgerStep lib) s.opened calls).ledger
    Accounted ledger ∧ ledger.filter ofMessage = (calls.flatMap Call.received).flatMap disposal := by
  have hrun (s : State (β × Ledger)) : Adds ((calls.flatMap Call.received).flatMap disposal) s.ledger
      (Mealy.run (ledgerStep lib) s calls).ledger := by
    induction calls generalizing s with
    | nil => exact .refl _
    | cons call calls ih =>
      rw [List.flatMap_cons, List.flatMap_append]
      exact (ledgerStep_adds lib s call).trans (ih _)
  intro ledger
  obtain ⟨new, hlog, hacc, hnew⟩ := hrun s.opened
  have hledger : ledger = new := hlog
  rw [hledger]
  exact ⟨hacc, hnew⟩

/-- A library with one buffer that refuses what it is asked. -/
def refusing : TaskLib Unit where
  toAttLib := { BleLink.willing with call := fun b _ => (b, blePending) }
  bmFreeMsg b _ _ := b
  msgDeallocate b _ := b

/-- A write that is refused gives its buffer back. -/
example :
    let s : State Unit := { init 0 () with link := attach BleLink.willing (BleLink.init 0 ()) 0 1 }
    (ledgerStep refusing s.opened (.perform 0 (.writeReq 3 (some [7]) 1))).1.ledger =
      [.acquire (.buffer 0), .use (.buffer 0), .settle (.buffer 0) .freed] := by decide

end BleHost

end UsbMux
