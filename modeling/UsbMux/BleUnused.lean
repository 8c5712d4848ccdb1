/-
Slots that are not connected. Whatever the library reports, such a slot has
the handle that stands for none, and a context that is reset but for its MTU
(`Unused`). That handle is one a message can carry, and slots are looked up by
handle alone, so it finds them (`unknown_link_ignored_iff`).
-/
import UsbMux.BleRuns

namespace UsbMux.BleHost

open Endian UsbTx BleLink

variable {β : Type}

/-! ## What a command does -/

/-- A management command leaves slots and contexts as they are, works on the
context of a connected slot, or makes an attempt to connect an idle one. -/
inductive Commanded (s : State β) : State β → Prop
  | kept {s' : State β} (hs : s'.mgr.slots = s.mgr.slots)
      (hp : s'.mgr.pendingConnectSlot = s.mgr.pendingConnectSlot) (hl : s'.link.links = s.link.links) : Commanded s s'
  | operated {i : Fin bleMaxLinks} (hi : (s.mgr.slots i).state = .connected) {link : BleLink.State β}
      (ho : ∀ j, j ≠ i → link.links j = s.link.links j) (hid : (link.links i).slotId = (s.link.links i).slotId) :
      Commanded s { s with link := link }
  | attempted {i : Fin bleMaxLinks} (hfree : ¬ s.mgr.pendingConnectSlot < UInt8.ofNat bleMaxLinks)
      (hidle : (s.mgr.slots i).state = .idle) {s' : State β} (ho : ∀ j, j ≠ i → s'.mgr.slots j = s.mgr.slots j)
      (hs : (s'.mgr.slots i).state ≠ .connected)
      (hh : (s'.mgr.slots i).connHandle = (s.mgr.slots i).connHandle)
      (hl : s'.link.links = (BleLink.reset s.link (slotByte i)).links)
      (hp : s'.mgr.pendingConnectSlot = 0xFF ∨ s'.mgr.pendingConnectSlot = slotByte i) : Commanded s s'

variable {s s' : State β} {hdr : VpHdr} {payload : Ptr UInt8} {payloadLen : UInt16}

theorem Commanded.refl (s : State β) : Commanded s s := .kept rfl rfl rfl

theorem perform_commanded (lib : AttLib β) {i : Fin bleMaxLinks} (hi : (s.mgr.slots i).state = .connected) (op : Op) :
    Commanded s { s with link := (perform lib s.link (slotByte i) op).1 } := by
  have hp := perform_performed lib s.link (slotByte i) op
  generalize perform lib s.link (slotByte i) op = r at hp
  cases hp with
  | refused => exact .refl s
  | kept _ _ hs => exact .kept rfl rfl hs
  | begun hj _ _ _ _ _ _ hs =>
    cases (getCtx_slotByte i).symm.trans hj
    refine .operated hi (fun j hne => by rw [hs, modify_links_of_ne _ _ hne]) ?_
    rw [hs, modify_links_self]
    rfl

theorem Connecting.commanded {lib : BleLib β} {r : State β × List Enqueue}
    (h : Connecting lib s hdr payload payloadLen r) : Commanded s r.1 := by
  cases h with
  | atOnce => exact .refl s
  | @asked i _ _ hfree _ _ status hs =>
    rw [not_or, not_not] at hfree
    refine .attempted hfree.1 hfree.2 hs.others ?_ (by rw [hs.slot]) hs.links ?_
    · rw [hs.slot]
      dsimp only
      split
      · decide
      · decide
    · rw [hs.pending]
      split
      · exact .inr rfl
      · exact .inl rfl

theorem setScanParam_commanded (lib : BleLib β) : Commanded s (setScanParam lib s hdr payload payloadLen).1 := by
  simp only [setScanParam]
  split
  · exact .refl s
  · exact .kept rfl rfl rfl

theorem scanStart_commanded (lib : BleLib β) : Commanded s (scanStart lib s hdr).1 := by
  simp only [scanStart]
  split
  · exact .refl s
  · split
    · exact .kept rfl rfl rfl
    · exact .kept rfl rfl rfl

theorem scanStop_commanded (lib : BleLib β) : Commanded s (scanStop lib s hdr).1 := by
  simp only [scanStop]
  split
  · exact .kept rfl rfl rfl
  · exact .kept rfl rfl rfl

/-- **Every command**, whatever the library is. -/
theorem handleMgmt_commanded (lib : AttLib β) (s : State β) (hdr : VpHdr) (payload : Ptr UInt8) (payloadLen : UInt16) :
    Commanded s (handleMgmt lib.toBleLib s hdr payload payloadLen).1 := by
  have hk := handleMgmt_kind lib s hdr payload payloadLen
  generalize handleMgmt lib.toBleLib s hdr payload payloadLen = r at hk ⊢
  cases hk with
  | answered => exact .refl s
  | setScanParam => exact setScanParam_commanded lib.toBleLib
  | scanStart => exact scanStart_commanded lib.toBleLib
  | scanStop => exact scanStop_commanded lib.toBleLib
  | connect h => exact h.commanded
  | onLink _ hc op => exact perform_commanded lib hc op
  | onConn => exact .kept rfl rfl rfl

/-! ## Slots that are not connected -/

/-- A context that is reset, but for its MTU. -/
def unused (slot : UInt8) (mtu : UInt16) : LinkCtx := ⟨slot, .idle, gapConnhandleInit, mtu, 0, .none, 0, 0, 0⟩

/-- What holds whatever the library reports. -/
structure Unused (s : State β) : Prop where
  handle : ∀ i, (s.mgr.slots i).state ≠ .connected → (s.mgr.slots i).connHandle = gapConnhandleInit
  ctx : ∀ i, (s.mgr.slots i).state ≠ .connected → s.link.links i = unused (slotByte i) (s.link.links i).mtu
  slot_id : ∀ i, (s.link.links i).slotId = slotByte i
  pending : ∀ i, s.mgr.pendingConnectSlot = slotByte i → (s.mgr.slots i).state ≠ .connected
  pending_slot : s.mgr.pendingConnectSlot = 0xFF ∨ ∃ i, s.mgr.pendingConnectSlot = slotByte i

theorem unused_init (taskId : UInt8) (b : β) : Unused (init taskId b) where
  handle _ _ := rfl
  ctx _ _ := rfl
  slot_id _ := rfl
  pending _ _ := by simp [init]
  pending_slot := .inl rfl

theorem Unused.kept (h : Unused s) (hs : s'.mgr.slots = s.mgr.slots)
    (hp : s'.mgr.pendingConnectSlot = s.mgr.pendingConnectSlot ∨ s'.mgr.pendingConnectSlot = 0xFF)
    (hid : ∀ i, (s'.link.links i).slotId = (s.link.links i).slotId)
    (hc : ∀ i, (s.mgr.slots i).state ≠ .connected → s'.link.links i = unused (slotByte i) (s'.link.links i).mtu) :
    Unused s' where
  handle i hi := by
    rw [hs] at hi ⊢
    exact h.handle i hi
  ctx i hi := hc i (hs ▸ hi)
  slot_id i := (hid i).trans (h.slot_id i)
  pending i hi := by
    rw [hs]
    rcases hp with hp | hp
    · exact h.pending i (hp ▸ hi)
    · exact absurd (hp.symm.trans hi) (slotByte_ne i)
  pending_slot := by
    rcases hp with hp | hp
    · exact hp ▸ h.pending_slot
    · exact .inl hp

theorem Unused.relinked (h : Unused s) {i : Fin bleMaxLinks} {link : BleLink.State β}
    (ho : ∀ j, j ≠ i → link.links j = s.link.links j) (hid : (link.links i).slotId = (s.link.links i).slotId)
    (hc : (s.mgr.slots i).state ≠ .connected → link.links i = unused (slotByte i) (link.links i).mtu) :
    Unused { s with link := link } := by
  refine h.kept rfl (.inl rfl) (fun j => ?_) fun j hj => ?_
  · by_cases hji : j = i
    · exact hji ▸ hid
    · exact congrArg LinkCtx.slotId (ho j hji)
  · by_cases hji : j = i
    · subst hji
      exact hc hj
    · exact (ho j hji).symm ▸ h.ctx j hj

theorem Unused.changed (h : Unused s) {i : Fin bleMaxLinks} (ho : SlotOnly i s s')
    (hh : (s'.mgr.slots i).state ≠ .connected → (s'.mgr.slots i).connHandle = gapConnhandleInit)
    (hc : (s'.mgr.slots i).state ≠ .connected → s'.link.links i = unused (slotByte i) (s'.link.links i).mtu)
    (hid : (s'.link.links i).slotId = slotByte i)
    (hp : s'.mgr.pendingConnectSlot = 0xFF ∨ (s'.mgr.slots i).state ≠ .connected ∧
      (s'.mgr.pendingConnectSlot = slotByte i ∨ s'.mgr.pendingConnectSlot = s.mgr.pendingConnectSlot)) :
    Unused s' where
  handle j hj := by
    by_cases hji : j = i
    · subst hji
      exact hh hj
    · rw [ho.slots j hji] at hj ⊢
      exact h.handle j hj
  ctx j hj := by
    by_cases hji : j = i
    · subst hji
      exact hc hj
    · rw [ho.slots j hji] at hj
      rw [ho.links j hji]
      exact h.ctx j hj
  slot_id j := by
    by_cases hji : j = i
    · exact hji ▸ hid
    · rw [ho.links j hji]
      exact h.slot_id j
  pending j hj := by
    rcases hp with hp | ⟨hi, hp⟩
    · exact absurd (hp.symm.trans hj) (slotByte_ne j)
    by_cases hji : j = i
    · exact hji ▸ hi
    · rw [ho.slots j hji]
      rcases hp with hp | hp
      · exact absurd (slotByte_inj (hp.symm.trans hj)).symm hji
      · exact h.pending j (hp ▸ hj)
  pending_slot := by
    rcases hp with hp | ⟨-, hp | hp⟩
    · exact .inl hp
    · exact .inr ⟨i, hp⟩
    · exact hp ▸ h.pending_slot

theorem reset_links_self (h : Unused s) (i : Fin bleMaxLinks) :
    (BleLink.reset s.link (slotByte i)).links i = unused (slotByte i) attMtuSize := by
  simp only [BleLink.reset, getCtx_slotByte, modify_links_self, h.slot_id]
  rfl

theorem reset_links_of_ne (l : BleLink.State β) {i j : Fin bleMaxLinks} (hj : j ≠ i) :
    (BleLink.reset l (slotByte i)).links j = l.links j := (reset_slotByte l i).1 j hj

/-- A slot that is not connected any more, with its context reset. -/
theorem Unused.left (h : Unused s) {i : Fin bleMaxLinks} (ho : ∀ j, j ≠ i → s'.mgr.slots j = s.mgr.slots j)
    (hl : s'.link.links = (BleLink.reset s.link (slotByte i)).links) (hs : (s'.mgr.slots i).state ≠ .connected)
    (hh : (s'.mgr.slots i).connHandle = gapConnhandleInit)
    (hp : s'.mgr.pendingConnectSlot = 0xFF ∨ s'.mgr.pendingConnectSlot = slotByte i ∨
      s'.mgr.pendingConnectSlot = s.mgr.pendingConnectSlot) : Unused s' := by
  have hself : s'.link.links i = _ := (congrFun hl i).trans (reset_links_self h i)
  have hother : SlotOnly i s s' := ⟨ho, fun j hj => (congrFun hl j).trans (reset_links_of_ne s.link hj)⟩
  refine h.changed hother (fun _ => hh) (fun _ => ?_) ?_ (hp.imp_right fun hp => ⟨hs, hp⟩)
  · rw [hself]
    rfl
  · rw [hself]
    rfl

theorem Commanded.unused (hc : Commanded s s') (h : Unused s) : Unused s' := by
  cases hc with
  | kept hs hp hl => exact h.kept hs (.inl hp) (fun i => by rw [hl]) fun i hi => hl ▸ h.ctx i hi
  | operated hi ho hid => exact h.relinked ho hid fun hne => absurd hi hne
  | @attempted i _ hidle s' ho hs hh hl hp =>
    refine h.left ho hl hs ?_ (hp.imp_right .inl)
    rw [hh]
    exact h.handle i (by rw [hidle]; decide)

theorem linkUp_unused (lib : AttLib β) (h : Unused s) (i : Fin bleMaxLinks) (connectionHandle : UInt16)
    (devAddrType : UInt8) (devAddr : Block UInt8 bAddrLen) :
    let s' := (linkUp lib s i connectionHandle devAddrType devAddr).1
    Unused { s' with mgr := updateState { s'.mgr with pendingConnectSlot := 0xFF } } := by
  intro s'
  have hs : (s'.mgr.slots i).state = .connected := by simp [s', linkUp]
  have ho : SlotOnly i s s' := by
    refine ⟨fun j hj => ?_, fun j hj => ?_⟩
    · simp only [s', linkUp, modify_slots_of_ne _ _ hj]
    · simp only [s', linkUp, attach, getCtx_slotByte, modify_links_of_ne _ _ hj]
  refine h.changed (i := i) ⟨ho.slots, ho.links⟩ (fun hne => absurd hs hne) (fun hne => absurd hs hne) ?_ (.inl rfl)
  simp only [s', linkUp, attach, getCtx_slotByte, modify_links_self]
  exact h.slot_id i

theorem eventCb_unused (lib : AttLib β) (h : Unused s) (evt : GapEvent) : Unused (eventCb lib s evt).1 := by
  cases evt with
  | deviceInitDone | deviceInfo | extAdvDeviceInfo | deviceDiscovery | other =>
    exact h.kept rfl (.inl rfl) (fun _ => rfl) h.ctx
  | linkEstablished status connectionHandle devAddrType devAddr =>
    simp only [eventCb]
    split
    · exact h.kept rfl (.inr rfl) (fun _ => rfl) h.ctx
    next i hi =>
    split
    · exact linkUp_unused lib h i connectionHandle devAddrType devAddr
    · have hp := h.pending i (getCtx_iff.mp hi)
      refine h.left (i := i) (fun j hj => ?_) rfl ?_ ?_ (.inl rfl)
      · simp only [linkFailed, updateState_slots, modify_slots_of_ne _ _ hj]
      · simp [linkFailed]
      · simp only [linkFailed, updateState_slots, modify_slots_self]
        exact h.handle i hp
  | linkTerminated connectionHandle reason =>
    simp only [eventCb]
    split
    · exact h
    next i _ =>
    refine h.left (i := i) (fun j hj => ?_) rfl ?_ ?_ (.inr (.inr rfl))
    · simp only [linkDown, updateState_slots, modify_slots_of_ne _ _ hj]
    · simp [linkDown]
    · simp [linkDown]

/-- A message changes the MTU of an unused context, and nothing else. -/
theorem processGattMsg_unused (lib : AttLib β) (h : Unused s) (msg : GattMsgEvent) :
    Unused (processGattMsg lib s msg).1 := by
  unfold processGattMsg
  split
  · exact h
  next i _ =>
  have hr : Received s.link i (handleGattMsg lib s.link (slotByte i) msg).1 :=
    received_handleGattMsg s.link (getCtx_slotByte i) msg
  dsimp only
  generalize (handleGattMsg lib s.link (slotByte i) msg).1 = link at hr
  cases hr with
  | kept hs => exact h.kept rfl (.inl rfl) (fun j => by rw [hs]) fun j hj => hs ▸ h.ctx j hj
  | mtu mtu hs =>
    refine h.relinked (i := i) (fun j hj => by rw [hs, modify_links_of_ne _ _ hj]) ?_ fun hi => ?_
    · rw [hs, modify_links_self]
    · rw [hs, modify_links_self, h.ctx i hi]
      rfl
  | ended hb mtu hs =>
    refine h.relinked (i := i) (fun j hj => by rw [hs, modify_links_of_ne _ _ hj]) ?_ fun hi => ?_
    · rw [hs, modify_links_self]
      rfl
    · -- an unused context has no procedure that could end
      rw [h.ctx i hi] at hb
      exact absurd rfl hb

theorem step_unused (lib : AttLib β) (h : Unused s) (input : Input) : Unused (step lib s input).1 := by
  cases input with
  | mgmt hdr payload payloadLen => exact (handleMgmt_commanded lib s hdr payload payloadLen).unused h
  | gap evt => exact eventCb_unused lib h evt
  | gattMsg msg => exact processGattMsg_unused lib h msg
  | rssi => exact h

theorem run_unused (lib : AttLib β) (taskId : UInt8) (b : β) (is : List Input) :
    Unused (Mealy.run (step lib) (init taskId b) is) :=
  Mealy.inv_run (I := Unused) (fun _ input h => step_unused lib h input) (unused_init taskId b) is

/-! ## Messages for no link -/

/-- The handle of a message about one link. -/
def Input.connHandle : Input → Option UInt16
  | .gattMsg msg => some msg.connHandle
  | .rssi connHandle _ => some connHandle
  | .gap (.linkTerminated connHandle _) => some connHandle
  | _ => none

/-- A step that changes no slot, no context and not the pending slot, and queues nothing. -/
structure Ignored (lib : AttLib β) (s : State β) (input : Input) : Prop where
  slots : (step lib s input).1.mgr.slots = s.mgr.slots
  pending : (step lib s input).1.mgr.pendingConnectSlot = s.mgr.pendingConnectSlot
  links : (step lib s input).1.link.links = s.link.links
  events : (step lib s input).2 = []

/-- The first slot that is not connected. -/
def firstUnused (m : Mgr) : Option (Fin bleMaxLinks) :=
  (List.finRange bleMaxLinks).find? fun i => (m.slots i).state ≠ .connected

/-- A GATT message that an unused context with this MTU passes over. -/
def PassedOver (mtu : UInt16) : Input → Prop
  | .gattMsg msg => msg.method ≠ attHandleValueNoti ∧ msg.method ≠ attHandleValueInd ∧
      (msg.method = attMtuUpdatedEvent → msg.mtuEvt = mtu)
  | _ => False

/-- A handle that no connected slot has is found at a slot that is not connected, if it is the one for none. -/
theorem findSlot_unknown (h : Unused s) {connHandle : UInt16}
    (hno : ∀ i, (s.mgr.slots i).state = .connected → (s.mgr.slots i).connHandle ≠ connHandle) :
    findSlotByConnHandle s.mgr connHandle = if connHandle = gapConnhandleInit then firstUnused s.mgr else none := by
  split
  · next hh =>
    subst hh
    refine congrArg (List.find? · (List.finRange bleMaxLinks)) (funext fun i => ?_)
    by_cases hi : (s.mgr.slots i).state = .connected
    · simp [hi, hno i hi]
    · simp [hi, h.handle i hi]
  · next hh =>
    refine List.find?_eq_none.mpr fun i _ => ?_
    by_cases hi : (s.mgr.slots i).state = .connected
    · simpa using hno i hi
    · rw [h.handle i hi, beq_iff_eq]
      exact fun he => hh he.symm

theorem ignored_of_unknown {lib : AttLib β} {input : Input} {connHandle : UInt16}
    (hin : input.connHandle = some connHandle) (hf : findSlotByConnHandle s.mgr connHandle = none) :
    Ignored lib s input := by
  have hstep : step lib s input = (s, []) := by
    cases input with
    | mgmt => cases hin
    | gap evt =>
      cases evt with
      | linkTerminated =>
        cases hin
        simp only [step, eventCb, hf]
      | _ => cases hin
    | gattMsg msg =>
      cases hin
      simp only [step, processGattMsg, hf]
    | rssi =>
      cases hin
      simp only [step, rssiCb, hf]
  constructor
  all_goals rw [hstep]

theorem handleGattMsg_unused (lib : AttLib β) (h : Unused s) {i : Fin bleMaxLinks}
    (hi : (s.mgr.slots i).state ≠ .connected) (msg : GattMsgEvent) :
    let r := handleGattMsg lib s.link (slotByte i) msg
    r.1.links = s.link.links ∧ r.2 = [] ↔ PassedOver (s.link.links i).mtu (.gattMsg msg) := by
  intro r
  simp only [r, handleGattMsg, getCtx_slotByte, PassedOver]
  split
  · next hm =>
    have hmtu : (s.link.modify i ({ · with mtu := msg.mtuEvt })).links = s.link.links ↔
        msg.mtuEvt = (s.link.links i).mtu := by
      constructor
      · intro he
        have hself := congrFun he i
        rw [modify_links_self] at hself
        exact congrArg LinkCtx.mtu hself
      · intro he
        simp only [State.modify, he]
        exact Function.update_eq_self i s.link.links
    rw [hmtu, hm]
    exact ⟨fun he => ⟨by decide, by decide, fun _ => he.1⟩, fun hp => ⟨hp.2.2 rfl, rfl⟩⟩
  next hm =>
  split
  · next hn => exact iff_of_false (fun he => by cases he.2) fun hp => hp.1 hn
  next hn =>
  split
  · next hd => exact iff_of_false (fun he => by cases he.2) fun hp => hp.2.1 hd
  next hd =>
  rw [if_pos (by rw [h.ctx i hi]; rfl)]
  exact iff_of_true ⟨rfl, rfl⟩ ⟨hn, hd, fun h => absurd h hm⟩

/-- A message whose handle is found at a slot that is not connected. -/
theorem ignored_iff_passedOver (lib : AttLib β) (h : Unused s) {input : Input} {connHandle : UInt16}
    (hin : input.connHandle = some connHandle) {i : Fin bleMaxLinks}
    (hf : findSlotByConnHandle s.mgr connHandle = some i) (hi : (s.mgr.slots i).state ≠ .connected) :
    Ignored lib s input ↔ PassedOver (s.link.links i).mtu input := by
  cases input with
  | mgmt => cases hin
  | gap evt =>
    cases evt with
    | linkTerminated =>
      cases hin
      refine iff_of_false (fun hg => ?_) id
      have := hg.events
      simp [step, eventCb, hf, linkDown, reportConnState] at this
    | _ => cases hin
  | gattMsg msg =>
    cases hin
    have hstep : step lib s (.gattMsg msg) =
        ({ s with link := (handleGattMsg lib s.link (slotByte i) msg).1 },
          (handleGattMsg lib s.link (slotByte i) msg).2) := by
      simp only [step, processGattMsg, hf]
    refine Iff.trans ?_ (handleGattMsg_unused lib h hi msg)
    constructor
    · intro hg
      have h1 := hg.links
      have h2 := hg.events
      rw [hstep] at h1 h2
      exact ⟨h1, h2⟩
    · rintro ⟨h1, h2⟩
      refine ⟨?_, ?_, ?_, ?_⟩
      all_goals rw [hstep]
      · exact h1
      · exact h2
  | rssi =>
    cases hin
    refine iff_of_false (fun hg => ?_) id
    have := hg.events
    simp [step, rssiCb, hf, reportRssiResult] at this

/-- **Messages for unknown links.** In every state reached, a message with a
handle that no connected slot has is ignored exactly if it is not the handle
that stands for none, or every slot is connected, or it is a GATT message that
says nothing new to the first context without a connection. -/
theorem unknown_link_ignored_iff (lib : AttLib β) (taskId : UInt8) (b : β) (is : List Input) (input : Input)
    (connHandle : UInt16) (hin : input.connHandle = some connHandle) :
    let s := Mealy.run (step lib) (init taskId b) is
    (∀ i, (s.mgr.slots i).state = .connected → (s.mgr.slots i).connHandle ≠ connHandle) →
      (Ignored lib s input ↔ connHandle ≠ gapConnhandleInit ∨
        ∀ i, firstUnused s.mgr = some i → PassedOver (s.link.links i).mtu input) := by
  intro s hno
  have h : Unused s := run_unused lib taskId b is
  have hfind := findSlot_unknown h hno
  by_cases hh : connHandle = gapConnhandleInit
  · rw [if_pos hh] at hfind
    cases hfirst : firstUnused s.mgr with
    | none => exact iff_of_true (ignored_of_unknown hin (hfind.trans hfirst)) (.inr fun _ hi => by cases hi)
    | some i =>
      have hi : (s.mgr.slots i).state ≠ .connected := by simpa using List.find?_some hfirst
      rw [ignored_iff_passedOver lib h hin (hfind.trans hfirst) hi]
      simp [hh]
  · rw [if_neg hh] at hfind
    exact iff_of_true (ignored_of_unknown hin hfind) (.inl hh)

/-- A reading for a link that is not there. -/
theorem unknown_link_ignored_iff_rssi : Ignored BleLink.willing (init 0 ()) (.rssi 5 200) :=
  (unknown_link_ignored_iff BleLink.willing 0 () [] (.rssi 5 200) 5 rfl (by decide)).mpr (.inl (by decide))

/-- The command that asks slot 0 to connect. -/
def connectFirst : Input :=
  .mgmt { VpHdr.zero with opcode := VpBleOpcode.connect.code } (some [0, 1, 16, 17, 18, 19, 20, 21]) 8

/-- While slot 0 is asked to connect, a link that was never there is reported
as gone: a disconnect is reported, and the slot is idle with its attempt pending. -/
theorem phantom_disconnect :
    let s := Mealy.run (step BleLink.willing) (init 0 ()) [connectFirst]
    let down := Input.gap (.linkTerminated gapConnhandleInit 8)
    (∀ i, (s.mgr.slots i).state ≠ .connected) ∧ ¬ Ignored BleLink.willing s down ∧
      (s.mgr.slots 0).state = .connecting ∧ ((step BleLink.willing s down).1.mgr.slots 0).state = .idle ∧
      (step BleLink.willing s down).1.mgr.pendingConnectSlot = 0 ∧ (step BleLink.willing s down).2.length = 1 := by
  intro s down
  refine ⟨by decide, fun h => ?_, by decide, by decide, by decide, by decide⟩
  exact absurd h.events (by decide)

end UsbMux.BleHost
