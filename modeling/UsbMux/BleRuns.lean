/-
Runs of the BLE host manager: any commands, events and messages, whatever the
library answers. Whatever it does, a step for one slot leaves the others alone
(`slots_undisturbed`). Where it keeps its promises about links, slots and link
contexts agree and attempts to connect do not overlap (`slots_consistent`).
-/
import UsbMux.BleSteps

namespace UsbMux.BleHost

open UsbTx BleLink

variable {β : Type}

/-! ## The two copies of a slot -/

/-- What holds whatever the library reports, if only its links have handles. -/
structure Wired (s : State β) : Prop where
  connected_iff : ∀ i, (s.mgr.slots i).state = .connected ↔ (s.mgr.slots i).connHandle ≠ gapConnhandleInit
  link_handle : ∀ i, (s.link.links i).connHandle = (s.mgr.slots i).connHandle
  slot_id : ∀ i, (s.link.links i).slotId = slotByte i
  pending : ∀ i, s.mgr.pendingConnectSlot = slotByte i → (s.mgr.slots i).state ≠ .connected

/-- A link that is reported has a handle. -/
def NamesLink : Input → Prop
  | .gap (.linkEstablished status connHandle _ _) => status = bleSuccess → connHandle ≠ gapConnhandleInit
  | _ => True

theorem wired_init (taskId : UInt8) (b : β) : Wired (init taskId b) where
  connected_iff i := by simp [init]
  link_handle _ := rfl
  slot_id _ := rfl
  pending _ _ := by simp [init]

theorem slotByte_ne (i : Fin bleMaxLinks) : (0xFF : UInt8) ≠ slotByte i := by
  revert i
  decide

/-- Slots stay as they are, and contexts stay with their slots. -/
theorem Wired.kept {s s' : State β} (h : Wired s) (hs : s'.mgr.slots = s.mgr.slots)
    (hp : ∀ i, s'.mgr.pendingConnectSlot = slotByte i → s.mgr.pendingConnectSlot = slotByte i)
    (hl : ∀ i, (s'.link.links i).connHandle = (s.link.links i).connHandle ∧
      (s'.link.links i).slotId = (s.link.links i).slotId) : Wired s' where
  connected_iff i := by rw [hs]; exact h.connected_iff i
  link_handle i := by rw [hs, (hl i).1]; exact h.link_handle i
  slot_id i := (hl i).2.trans (h.slot_id i)
  pending i hi := by rw [hs]; exact h.pending i (hp i hi)

theorem Wired.changed {s s' : State β} (h : Wired s) {i : Fin bleMaxLinks} (ho : SlotOnly i s s')
    (hc : (s'.mgr.slots i).state = .connected ↔ (s'.mgr.slots i).connHandle ≠ gapConnhandleInit)
    (hl : (s'.link.links i).connHandle = (s'.mgr.slots i).connHandle)
    (hid : (s'.link.links i).slotId = (s.link.links i).slotId)
    (hp : ∀ j, s'.mgr.pendingConnectSlot = slotByte j → (s'.mgr.slots j).state ≠ .connected) : Wired s' where
  connected_iff j := by
    by_cases hj : j = i
    · exact hj ▸ hc
    · rw [ho.slots j hj]
      exact h.connected_iff j
  link_handle j := by
    by_cases hj : j = i
    · exact hj ▸ hl
    · rw [ho.slots j hj, ho.links j hj]
      exact h.link_handle j
  slot_id j := by
    by_cases hj : j = i
    · subst hj
      exact hid.trans (h.slot_id j)
    · rw [ho.links j hj]
      exact h.slot_id j
  pending := hp

theorem linkOnly_kept {i : Fin bleMaxLinks} {l l' : BleLink.State (β × List LibEvent)} (h : LinkOnly i l l')
    (j : Fin bleMaxLinks) : (l'.links j).connHandle = (l.links j).connHandle ∧
      (l'.links j).slotId = (l.links j).slotId := by
  by_cases hj : j = i
  · subst hj
    exact ⟨h.handle, h.slotId⟩
  · rw [h.others j hj]
    exact ⟨rfl, rfl⟩

variable {lib : AttLib β} {s : State (β × List LibEvent)}

theorem handle_of_idle (h : Wired s) {i : Fin bleMaxLinks} (hi : (s.mgr.slots i).state ≠ .connected) :
    (s.mgr.slots i).connHandle = gapConnhandleInit := by
  by_contra hne
  exact hi ((h.connected_iff i).mpr hne)

theorem Managed.wired {hdr : VpHdr} {payload : Ptr UInt8} {r : State (β × List LibEvent) × List Enqueue}
    (hr : Managed s hdr payload r) (h : Wired s) : Wired r.1 := by
  cases hr with
  | answered => exact h
  | called _ hs => exact h.kept hs.slots (fun i hi => hs.pending ▸ hi) fun i => by rw [hs.links]; exact ⟨rfl, rfl⟩
  | operated _ hl => exact h.kept rfl (fun _ hi => hi) (linkOnly_kept hl)
  | @claimed i _ _ hidle s' ho hh hl hid _ _ hout =>
    have hinit := handle_of_idle h (i := i) (by rw [hidle]; decide)
    have hstate : (s'.mgr.slots i).state ≠ .connected := by
      rcases hout with ⟨-, hs, -⟩ | ⟨-, hs, -⟩
      · rw [hs]; decide
      · rw [hs]; decide
    refine h.changed ho ?_ ?_ hid ?_
    · rw [hh, hinit]
      exact iff_of_false hstate (not_not.mpr rfl)
    · rw [hh, hinit, hl]
    · intro j hj
      rcases hout with ⟨-, -, hp⟩ | ⟨-, -, hp⟩
      · obtain rfl := slotByte_inj (hp.symm.trans hj)
        exact hstate
      · exact absurd (hp.symm.trans hj) (slotByte_ne j)

theorem Evented.wired {evt : GapEvent} {r : State (β × List LibEvent) × List Enqueue} (hr : Evented s evt r)
    (h : Wired s) (hn : NamesLink (.gap evt)) : Wired r.1 := by
  cases hr with
  | up hp ho hs hh hl hid hp' =>
    refine h.changed ho ?_ (hl.trans hh.symm) hid fun j hj => absurd (hp'.symm.trans hj) (slotByte_ne j)
    rw [hs, hh]
    exact iff_of_true rfl (hn rfl)
  | @failed i hp _ _ _ _ _ _ ho hs hh hl hid hp' =>
    have hinit := handle_of_idle h (h.pending i hp)
    refine h.changed ho ?_ ?_ hid fun j hj => absurd (hp'.symm.trans hj) (slotByte_ne j)
    · rw [hs, hh, hinit]
      decide
    · rw [hl, hh, hinit]
  | unexpected _ hs hl hp' =>
    exact h.kept hs (fun j hj => absurd (hp'.symm.trans hj) (slotByte_ne j)) fun i => by rw [hl]; exact ⟨rfl, rfl⟩
  | @down i _ _ _ _ ho hs hh hl hid hp' =>
    refine h.changed ho ?_ (hl.trans hh.symm) hid ?_
    · rw [hs, hh]
      decide
    · intro j hj
      by_cases hji : j = i
      · subst hji
        rw [hs]
        decide
      · rw [ho.slots j hji]
        exact h.pending j (hp' ▸ hj)
  | unknown => exact h
  | other _ hs hp hl _ => exact h.kept hs (fun i hi => hp ▸ hi) fun i => by rw [hl]; exact ⟨rfl, rfl⟩

/-- What is written down of a report does not touch the slots. -/
theorem note_eq (s : State (β × List LibEvent)) (input : Input) :
    (s.note input).mgr = s.mgr ∧ (s.note input).link.links = s.link.links := by
  cases input <;> exact ⟨rfl, rfl⟩

theorem wired_note (input : Input) : Wired (s.note input) ↔ Wired s := by
  obtain ⟨hm, hl⟩ := note_eq s input
  constructor
  · rintro ⟨h1, h2, h3, h4⟩
    rw [hm] at h1 h2 h4
    rw [hl] at h2 h3
    exact ⟨h1, h2, h3, h4⟩
  · rintro ⟨h1, h2, h3, h4⟩
    rw [← hm] at h1 h2 h4
    rw [← hl] at h2 h3
    exact ⟨h1, h2, h3, h4⟩

/-- A GATT message is for the link whose handle it carries, or for none. -/
theorem processGattMsg_cases (lib : AttLib β) (h : Wired s) (msg : GattMsgEvent) :
    processGattMsg lib.traced s msg = (s, []) ∨
      ∃ i link evts, processGattMsg lib.traced s msg = ({ s with link := link }, evts) ∧
        findSlotByConnHandle s.mgr msg.connHandle = some i ∧ LinkOnly i s.link link ∧
        ∀ call ∈ evts, ForSlot (slotByte i) call := by
  unfold processGattMsg
  cases hf : findSlotByConnHandle s.mgr msg.connHandle with
  | none => exact .inl rfl
  | some i =>
    have hm : msg.connHandle = (s.link.links i).connHandle := (findSlot_some hf).symm.trans (h.link_handle i).symm
    exact .inr ⟨i, _, _, rfl, rfl, handleGattMsg_linkOnly lib (getCtx_slotByte i) hm,
      handleGattMsg_forSlot lib.traced s.link (getCtx_slotByte i) (h.slot_id i) msg⟩

/-- **Every step** keeps slots and contexts together. -/
theorem step_wired (h : Wired s) {input : Input} (hn : NamesLink input) : Wired (tracedStep lib s input).1 := by
  have hs := (wired_note input).mpr h
  cases input with
  | mgmt hdr payload payloadLen => exact (handleMgmt_managed lib h.link_handle hdr payload payloadLen).wired h
  | gap evt => exact (eventCb_evented lib _ evt).wired hs hn
  | gattMsg msg =>
    rcases processGattMsg_cases lib h msg with he | ⟨i, link, evts, he, -, hl, -⟩
    · exact (congrArg Prod.fst he).symm ▸ h
    · exact (congrArg Prod.fst he).symm ▸ h.kept rfl (fun _ hi => hi) (linkOnly_kept hl)
  | rssi connHandle rssi => exact h

/-! ## One slot at a time -/

/-- The handles of connected slots differ. -/
def DistinctLinks (m : Mgr) : Prop :=
  ∀ i j, (m.slots i).state = .connected → (m.slots j).state = .connected →
    (m.slots i).connHandle = (m.slots j).connHandle → i = j

instance (m : Mgr) : Decidable (DistinctLinks m) := by unfold DistinctLinks; infer_instance

/-- A connected slot with its handle. -/
def Holds (s : State β) (i : Fin bleMaxLinks) (connHandle : UInt16) : Prop :=
  (s.mgr.slots i).state = .connected ∧ (s.mgr.slots i).connHandle = connHandle

/-- The steps that are for slot `i`. -/
def Concerns (s : State β) (i : Fin bleMaxLinks) : Input → Prop
  | .mgmt hdr payload _ =>
    (∃ op, VpBleOpcode.ofCode hdr.opcode = some op ∧ namesSlot op = true) ∧ payload.cell 0 = slotByte i
  | .gap (.linkEstablished ..) => s.mgr.pendingConnectSlot = slotByte i
  | .gap (.linkTerminated connHandle _) => Holds s i connHandle
  | .gap _ => False
  | .gattMsg msg => Holds s i msg.connHandle
  | .rssi connHandle _ => Holds s i connHandle

/-- A step that keeps to slot `i`: the other slots and contexts are as they
were, the library is called for the connection the slot has, and what is
queued on the channel of connections carries the slot's number. -/
structure KeepsTo (i : Fin bleMaxLinks) (s s' : State (β × List LibEvent)) (evts : List Enqueue) : Prop where
  only : SlotOnly i s s'
  calls : ∃ new, s'.log = s.log ++ new ∧
    ∀ e ∈ new, ∀ connHandle, e.connHandle = some connHandle → connHandle = (s'.mgr.slots i).connHandle
  events : ∀ chId opcode payload len, .evt VpChannelType.bleConn.code chId opcode payload len ∈ evts → chId = slotByte i

theorem SlotOnly.refl (i : Fin bleMaxLinks) (s : State β) : SlotOnly i s s := ⟨fun _ _ => rfl, fun _ _ => rfl⟩

theorem chId_of_rsp {evts : List Enqueue} {i : Fin bleMaxLinks} (he : ∀ call ∈ evts, Answer i call) :
    ∀ chId opcode payload len, .evt VpChannelType.bleConn.code chId opcode payload len ∈ evts → chId = slotByte i := by
  intro chId opcode payload len hc
  rcases he _ hc with hq | ⟨_, _, _, he⟩
  · cases hq
  · cases he
    rfl

/-- The slot a handle finds is the connected one that has it. -/
theorem found_of_holds (h : Wired s) (hd : DistinctLinks s.mgr) {i j : Fin bleMaxLinks} {connHandle : UInt16}
    (hi : Holds s i connHandle) (hj : findSlotByConnHandle s.mgr connHandle = some j) : j = i := by
  obtain ⟨hc, rfl⟩ := hi
  have hh := findSlot_some hj
  refine hd j i ((h.connected_iff j).mpr ?_) hc hh
  rw [hh]
  exact (h.connected_iff i).mp hc

theorem LinkOnly.keepsTo (h : Wired s) {i : Fin bleMaxLinks} {link : BleLink.State (β × List LibEvent)}
    (hl : LinkOnly i s.link link) {evts : List Enqueue} (he : ∀ call ∈ evts, Answer i call) :
    KeepsTo i s { s with link := link } evts := by
  obtain ⟨new, hlog, hnew⟩ := hl.calls
  refine ⟨⟨fun _ _ => rfl, hl.others⟩, ⟨new, hlog, ?_⟩, chId_of_rsp he⟩
  intro e he connHandle hc
  rw [hnew e he, h.link_handle i] at hc
  exact (Option.some.inj hc).symm

theorem Managed.keepsTo {hdr : VpHdr} {payload : Ptr UInt8} {r : State (β × List LibEvent) × List Enqueue}
    (hr : Managed s hdr payload r) (h : Wired s) {i : Fin bleMaxLinks}
    (hop : ∃ op, VpBleOpcode.ofCode hdr.opcode = some op ∧ namesSlot op = true)
    (hi : payload.cell 0 = slotByte i) : KeepsTo i s r.1 r.2 := by
  cases hr with
  | answered he => exact ⟨.refl i s, ⟨[], by simp, by simp⟩, chId_of_rsp fun call hc => .inl (he call hc)⟩
  | called hno =>
    obtain ⟨op, ho, hname⟩ := hop
    rw [hno op ho] at hname
    cases hname
  | operated hj hl he =>
    obtain rfl := slotByte_inj (hj.symm.trans hi)
    exact LinkOnly.keepsTo h hl he
  | claimed hj _ _ ho _ _ _ hlog _ he =>
    obtain rfl := slotByte_inj (hj.symm.trans hi)
    obtain ⟨addrType, addr, hlog⟩ := hlog
    refine ⟨ho, ⟨_, hlog, ?_⟩, chId_of_rsp fun call hc => .inl (he call hc)⟩
    intro e hm connHandle hc
    rw [List.mem_singleton.mp hm] at hc
    cases hc

theorem Evented.keepsTo {evt : GapEvent} {r : State (β × List LibEvent) × List Enqueue} (hr : Evented s evt r)
    (h : Wired s) (hd : DistinctLinks s.mgr) {i : Fin bleMaxLinks} (hi : Concerns s i (.gap evt)) :
    KeepsTo i s r.1 r.2 := by
  cases hr with
  | up hp ho _ hh _ _ _ hlog he =>
    obtain rfl := slotByte_inj (hp.symm.trans hi)
    refine ⟨ho, ⟨_, hlog, ?_⟩, chId_of_rsp fun call hc => .inr (he call hc)⟩
    intro e hm connHandle hc
    rw [List.mem_singleton.mp hm] at hc
    exact (Option.some.inj hc).symm.trans hh.symm
  | failed hp _ ho _ _ _ _ _ hlog he =>
    obtain rfl := slotByte_inj (hp.symm.trans hi)
    exact ⟨ho, ⟨[], by simpa using hlog, by simp⟩, chId_of_rsp fun call hc => .inr (he call hc)⟩
  | unexpected hp => exact absurd hi (hp i)
  | down hj ho _ _ _ _ _ hlog he =>
    obtain rfl := found_of_holds h hd hi hj
    exact ⟨ho, ⟨[], by simpa using hlog, by simp⟩, chId_of_rsp fun call hc => .inr (he call hc)⟩
  | unknown => exact ⟨.refl i s, ⟨[], by simp, by simp⟩, by simp⟩
  | other hn =>
    cases evt with
    | linkEstablished | linkTerminated => cases hn
    | _ => exact hi.elim

theorem step_keepsTo (h : Wired s) (hd : DistinctLinks s.mgr) {i : Fin bleMaxLinks} {input : Input}
    (hi : Concerns s i input) : KeepsTo i s (tracedStep lib s input).1 (tracedStep lib s input).2 := by
  cases input with
  | mgmt hdr payload payloadLen =>
    exact (handleMgmt_managed lib h.link_handle hdr payload payloadLen).keepsTo h hi.1 hi.2
  | gap evt =>
    have hn : Concerns (s.note (.gap evt)) i (.gap evt) := by cases evt <;> exact hi
    have hk := (eventCb_evented lib (s.note (.gap evt)) evt).keepsTo ((wired_note _).mpr h) hd hn
    obtain ⟨⟨h1, h2⟩, ⟨new, hlog, hnew⟩, h3⟩ := hk
    refine ⟨⟨h1, h2⟩, ⟨.reported evt :: new, ?_, ?_⟩, h3⟩
    · rw [← List.singleton_append, ← List.append_assoc]
      exact hlog
    · intro e hm connHandle hc
      rcases List.mem_cons.mp hm with rfl | hm
      · cases hc
      · exact hnew e hm connHandle hc
  | gattMsg msg =>
    rcases processGattMsg_cases lib h msg with he | ⟨j, link, evts, he, hj, hl, hev⟩
    · rw [show tracedStep lib s (.gattMsg msg) = (s, []) from he]
      exact ⟨.refl i s, ⟨[], by simp, by simp⟩, by simp⟩
    · obtain rfl := found_of_holds h hd hi hj
      rw [show tracedStep lib s (.gattMsg msg) = ({ s with link := link }, evts) from he]
      exact LinkOnly.keepsTo h hl fun call hc => .inr (hev call hc)
  | rssi connHandle rssi =>
    refine ⟨.refl i s, ⟨[], by simp [tracedStep, step, State.note], by simp⟩, ?_⟩
    simp only [tracedStep, step, State.note, rssiCb]
    cases hf : findSlotByConnHandle s.mgr connHandle with
    | none => simp
    | some j =>
      obtain rfl := found_of_holds h hd hi hf
      exact chId_of_rsp fun call hc => .inr (forSlot_single call hc)

theorem run_wired (lib : AttLib β) (taskId : UInt8) (b : β) {is : List Input} (hlib : ∀ input ∈ is, NamesLink input) :
    Wired (Mealy.run (tracedStep lib) (init taskId (b, [])) is) :=
  Mealy.inv_run_along (I := Wired) (P := fun _ input => NamesLink input) (fun _ _ hn h => step_wired h hn)
    (wired_init taskId (b, [])) (Mealy.along_of_forall _ hlib)

/-- **BLE slots do not disturb each other.** In every state that commands and
reports lead to in which the handles of connected slots differ, a step for one
slot keeps to it, whatever the library answers. -/
theorem slots_undisturbed (lib : AttLib β) (taskId : UInt8) (b : β) (is : List Input)
    (hlib : ∀ input ∈ is, NamesLink input) (i : Fin bleMaxLinks) (input : Input) :
    let s := Mealy.run (tracedStep lib) (init taskId (b, [])) is
    DistinctLinks s.mgr → Concerns s i input →
      KeepsTo i s (tracedStep lib s input).1 (tracedStep lib s input).2 := by
  intro s hd hi
  exact step_keepsTo (run_wired lib taskId b hlib) hd hi

/-- Slot 1 is connected. -/
def connecting : List Input :=
  [.mgmt { VpHdr.zero with opcode := VpBleOpcode.connect.code } (some [1, 0, 6, 5, 4, 3, 2, 1]) 8,
    .gap (.linkEstablished bleSuccess 5 0 (Block.fill bAddrLen 0))]

theorem slots_undisturbed_rssi :
    let s := Mealy.run (tracedStep BleLink.willing) (init 0 ((), [])) connecting
    let input := Input.mgmt { VpHdr.zero with opcode := VpBleOpcode.readRssi.code } (some [1]) 1
    DistinctLinks s.mgr ∧ (tracedStep BleLink.willing s input).1.log = s.log ++ [.called (.readRssiCmd 5) bleSuccess] ∧
      KeepsTo 1 s (tracedStep BleLink.willing s input).1 (tracedStep BleLink.willing s input).2 := by
  intro s input
  have hd : DistinctLinks s.mgr := by decide
  exact ⟨hd, by decide,
    slots_undisturbed BleLink.willing 0 () connecting (by simp [connecting, NamesLink]; decide) 1 input hd
    ⟨⟨_, rfl, rfl⟩, rfl⟩⟩

/-! ## Attempts to connect -/

/-- Attempts that were taken and not answered, after one more event. -/
def unansweredStep (n : Nat) : LibEvent → Nat
  | .called (.centralEstablishLink ..) status => if status = bleSuccess then n + 1 else n
  | .reported (.linkEstablished ..) => n - 1
  | _ => n

/-- The links that are up, after one more event. -/
def upStep (up : List UInt16) : LibEvent → List UInt16
  | .reported (.linkEstablished status connHandle _ _) => if status = bleSuccess then connHandle :: up else up
  | .reported (.linkTerminated connHandle _) => up.filter (· ≠ connHandle)
  | _ => up

def unanswered (log : List LibEvent) : Nat := log.foldl unansweredStep 0

def linksUp (log : List LibEvent) : List UInt16 := log.foldl upStep []

def LibEvent.attempts : LibEvent → Bool
  | .called (.centralEstablishLink ..) _ => true
  | _ => false

/-- No attempt is made while one that was taken is unanswered. -/
def NeverOverlaps (log : List LibEvent) : Prop :=
  ∀ before e after, log = before ++ e :: after → LibEvent.attempts e = true → unanswered before = 0

/-- What the library promises of its next report: a link that is established
answers an attempt and has a handle of its own, and only links that are up are
terminated. -/
def Promised (s : State (β × List LibEvent)) : Input → Prop
  | .gap (.linkEstablished status connHandle _ _) =>
    0 < unanswered s.log ∧ (status = bleSuccess → connHandle ≠ gapConnhandleInit ∧ connHandle ∉ linksUp s.log)
  | .gap (.linkTerminated connHandle _) => connHandle ∈ linksUp s.log
  | _ => True

theorem unanswered_snoc (log : List LibEvent) (e : LibEvent) :
    unanswered (log ++ [e]) = unansweredStep (unanswered log) e := by
  rw [unanswered, List.foldl_append]
  rfl

theorem linksUp_snoc (log : List LibEvent) (e : LibEvent) : linksUp (log ++ [e]) = upStep (linksUp log) e := by
  rw [linksUp, List.foldl_append]
  rfl

theorem neverOverlaps_nil : NeverOverlaps [] := by
  intro before e after h
  simp at h

theorem neverOverlaps_snoc {log : List LibEvent} (h : NeverOverlaps log) {e : LibEvent}
    (he : LibEvent.attempts e = true → unanswered log = 0) : NeverOverlaps (log ++ [e]) := by
  intro before e' after heq ha
  rcases List.eq_nil_or_concat after with rfl | ⟨after, last, rfl⟩
  · obtain ⟨rfl, hl⟩ := List.append_inj' heq rfl
    cases hl
    exact he ha
  · rw [List.concat_eq_append, ← List.cons_append, ← List.append_assoc] at heq
    exact h before e' after (List.append_inj' heq rfl).1 ha

theorem quiet_append (log : List LibEvent) {new : List LibEvent} (hq : ∀ e ∈ new, Quiet e) :
    unanswered (log ++ new) = unanswered log ∧ linksUp (log ++ new) = linksUp log ∧
      (NeverOverlaps log → NeverOverlaps (log ++ new)) := by
  induction new generalizing log with
  | nil => simp
  | cons e new ih =>
    obtain ⟨hu, hup, hno⟩ := @ih (log ++ [e]) fun e' he' => hq e' (List.mem_cons_of_mem e he')
    rw [List.append_assoc, List.singleton_append] at hu hup hno
    have hone : unansweredStep (unanswered log) e = unanswered log ∧ upStep (linksUp log) e = linksUp log ∧
        LibEvent.attempts e = false := by
      cases hq e List.mem_cons_self with
      | @called c status hc =>
        cases c with
        | centralEstablishLink a b d f => exact absurd rfl (hc a b d f)
        | _ => exact ⟨rfl, rfl, rfl⟩
      | @reported evt hn =>
        cases evt with
        | linkEstablished | linkTerminated => cases hn
        | _ => exact ⟨rfl, rfl, rfl⟩
      | _ => exact ⟨rfl, rfl, rfl⟩
    refine ⟨hu.trans ((unanswered_snoc log e).trans hone.1),
      hup.trans ((linksUp_snoc log e).trans hone.2.1), fun h => ?_⟩
    exact hno (neverOverlaps_snoc h fun ha => by rw [hone.2.2] at ha; cases ha)

theorem quiet_of_connHandle {e : LibEvent} {connHandle : UInt16} (h : e.connHandle = some connHandle) : Quiet e := by
  cases e with
  | called c status =>
    refine .called ?_
    rintro _ _ _ _ rfl
    cases h
  | bmAlloc => exact .bmAlloc _
  | getMtu => exact .getMtu _
  | handleValueCfm => exact .handleValueCfm _
  | reported => cases h

/-- What holds where the library keeps its promises. -/
structure Agrees (s : State (β × List LibEvent)) : Prop extends Wired s where
  connecting_iff : ∀ i, s.mgr.pendingConnectSlot = slotByte i ↔ (s.mgr.slots i).state = .connecting
  distinct : DistinctLinks s.mgr
  connected_up : ∀ i, (s.mgr.slots i).state = .connected → (s.mgr.slots i).connHandle ∈ linksUp s.log
  up_named : ∀ connHandle ∈ linksUp s.log, connHandle ≠ gapConnhandleInit
  waiting : ∀ i, s.mgr.pendingConnectSlot = slotByte i → unanswered s.log = 1
  free : (∀ i, s.mgr.pendingConnectSlot ≠ slotByte i) → unanswered s.log = 0
  apart : NeverOverlaps s.log

theorem agrees_init (taskId : UInt8) (b : β) : Agrees (init taskId (b, [])) where
  toWired := wired_init taskId (b, [])
  connecting_iff i := iff_of_false (slotByte_ne i) (by simp [init])
  distinct i _ hi := by simp [init] at hi
  connected_up i hi := by simp [init] at hi
  up_named _ h := by cases h
  waiting i hi := absurd hi (slotByte_ne i)
  free _ := rfl
  apart := neverOverlaps_nil

theorem Agrees.kept {s s' : State (β × List LibEvent)} (h : Agrees s) (hw : Wired s')
    (hs : s'.mgr.slots = s.mgr.slots) (hp : s'.mgr.pendingConnectSlot = s.mgr.pendingConnectSlot)
    {new : List LibEvent} (hlog : s'.log = s.log ++ new) (hq : ∀ e ∈ new, Quiet e) : Agrees s' := by
  obtain ⟨hu, hup, hno⟩ := quiet_append s.log hq
  rw [← hlog] at hu hup hno
  refine ⟨hw, ?_, ?_, ?_, ?_, ?_, ?_, hno h.apart⟩
  · simpa only [hs, hp] using h.connecting_iff
  · simpa only [DistinctLinks, hs] using h.distinct
  · simpa only [hs, hup] using h.connected_up
  · simpa only [hup] using h.up_named
  · simpa only [hp, hu] using h.waiting
  · simpa only [hp, hu] using h.free

/-- Where slot `i` is not connected after its step, the connected ones are as they were. -/
theorem SlotOnly.connected {s s' : State β} {i : Fin bleMaxLinks} (ho : SlotOnly i s s')
    (hi : (s'.mgr.slots i).state ≠ .connected) {j : Fin bleMaxLinks} (hj : (s'.mgr.slots j).state = .connected) :
    j ≠ i ∧ s'.mgr.slots j = s.mgr.slots j := by
  have hne : j ≠ i := by
    rintro rfl
    exact hi hj
  exact ⟨hne, ho.slots j hne⟩

theorem SlotOnly.distinct {s s' : State β} {i : Fin bleMaxLinks} (ho : SlotOnly i s s')
    (hi : (s'.mgr.slots i).state ≠ .connected) (hd : DistinctLinks s.mgr) : DistinctLinks s'.mgr := by
  intro j k hj hk hjk
  have hsj := (ho.connected hi hj).2
  have hsk := (ho.connected hi hk).2
  rw [hsj] at hj hjk
  rw [hsk] at hk hjk
  exact hd j k hj hk hjk

/-- A slot that takes a handle no connected one has leaves them apart. -/
theorem SlotOnly.distinct_fresh {s s' : State β} {i : Fin bleMaxLinks} (ho : SlotOnly i s s')
    (hd : DistinctLinks s.mgr) (hfresh : ∀ j, j ≠ i → (s'.mgr.slots j).state = .connected →
      (s'.mgr.slots j).connHandle ≠ (s'.mgr.slots i).connHandle) : DistinctLinks s'.mgr := by
  intro j k hj hk hjk
  by_cases hji : j = i
  · by_cases hki : k = i
    · rw [hji, hki]
    · rw [hji] at hjk
      exact absurd hjk.symm (hfresh k hki hk)
  · by_cases hki : k = i
    · rw [hki] at hjk
      exact absurd hjk (hfresh j hji hj)
    · rw [ho.slots j hji] at hj hjk
      rw [ho.slots k hki] at hk hjk
      exact hd j k hj hk hjk

theorem Agrees.still_up (h : Agrees s) {s' : State (β × List LibEvent)} {i : Fin bleMaxLinks} (ho : SlotOnly i s s')
    (hi : (s'.mgr.slots i).state ≠ .connected) (hup : linksUp s'.log = linksUp s.log) (j : Fin bleMaxLinks)
    (hj : (s'.mgr.slots j).state = .connected) : (s'.mgr.slots j).connHandle ∈ linksUp s'.log := by
  have hsame := (ho.connected hi hj).2
  rw [hup, hsame]
  exact h.connected_up j (hsame ▸ hj)

theorem Agrees.not_connecting (h : Agrees s) (hp : ∀ i, s.mgr.pendingConnectSlot ≠ slotByte i) (i : Fin bleMaxLinks) :
    (s.mgr.slots i).state ≠ .connecting := fun hi => hp i ((h.connecting_iff i).mpr hi)

theorem Managed.agrees {hdr : VpHdr} {payload : Ptr UInt8} {r : State (β × List LibEvent) × List Enqueue}
    (hr : Managed s hdr payload r) (h : Agrees s) : Agrees r.1 := by
  have hw := hr.wired h.toWired
  cases hr with
  | answered => exact h
  | called _ hs =>
    obtain ⟨new, hlog, hq⟩ := hs.log
    exact h.kept hw hs.slots hs.pending hlog hq
  | operated _ hl =>
    obtain ⟨new, hlog, hc⟩ := hl.calls
    exact h.kept hw rfl rfl hlog fun e he => quiet_of_connHandle (hc e he)
  | @claimed i _ hfree _ s' ho _ _ _ status hlog hout =>
    obtain ⟨addrType, addr, hlog⟩ := hlog
    -- no attempt was pending, so this one may be made
    have hnone : ∀ j, s.mgr.pendingConnectSlot ≠ slotByte j := by
      intro j hj
      exact hfree (hj ▸ slotByte_lt j)
    have hzero := h.free hnone
    have hup : linksUp s'.log = linksUp s.log := by rw [hlog, linksUp_snoc]; rfl
    have hun : unanswered s'.log = if status = bleSuccess then 1 else 0 := by
      rw [hlog, unanswered_snoc, hzero]
      rfl
    have hidle : (s'.mgr.slots i).state ≠ .connected := by
      rcases hout with ⟨-, hs, -⟩ | ⟨-, hs, -⟩
      · rw [hs]; decide
      · rw [hs]; decide
    have hother : ∀ j, j ≠ i → (s'.mgr.slots j).state ≠ .connecting := by
      intro j hj
      rw [ho.slots j hj]
      exact h.not_connecting hnone j
    refine ⟨hw, ?_, ho.distinct hidle h.distinct, h.still_up ho hidle hup, hup ▸ h.up_named, ?_, ?_,
      hlog ▸ neverOverlaps_snoc h.apart fun _ => hzero⟩
    · intro j
      rcases hout with ⟨-, hs, hp⟩ | ⟨-, hs, hp⟩
      · rw [hp]
        by_cases hj : j = i
        · subst hj
          exact iff_of_true rfl hs
        · exact iff_of_false (fun he => hj (slotByte_inj he).symm) (hother j hj)
      · rw [hp]
        refine iff_of_false (slotByte_ne j) ?_
        by_cases hj : j = i
        · subst hj
          rw [hs]
          decide
        · exact hother j hj
    · intro j hj
      rcases hout with ⟨hs, -, -⟩ | ⟨-, -, hp⟩
      · rw [hun, if_pos hs]
      · exact absurd (hp.symm.trans hj) (slotByte_ne j)
    · intro hp
      rcases hout with ⟨-, -, hp'⟩ | ⟨hs, -, -⟩
      · exact absurd hp' (hp i)
      · rw [hun, if_neg hs]

/-- The slot that waited has its answer, and nothing waits now. -/
theorem Agrees.answered (h : Agrees s) {s' : State (β × List LibEvent)} (hw : Wired s') {i : Fin bleMaxLinks}
    (hp : s.mgr.pendingConnectSlot = slotByte i) (ho : SlotOnly i s s') (hi : (s'.mgr.slots i).state ≠ .connecting)
    (hp' : s'.mgr.pendingConnectSlot = 0xFF) (hun : unanswered s'.log = unanswered s.log - 1)
    (hd : DistinctLinks s'.mgr)
    (hc : ∀ j, (s'.mgr.slots j).state = .connected → (s'.mgr.slots j).connHandle ∈ linksUp s'.log)
    (hn : ∀ connHandle ∈ linksUp s'.log, connHandle ≠ gapConnhandleInit) (ha : NeverOverlaps s'.log) : Agrees s' := by
  have hnone (j : Fin bleMaxLinks) : s'.mgr.pendingConnectSlot ≠ slotByte j := hp' ▸ slotByte_ne j
  refine ⟨hw, fun j => iff_of_false (hnone j) ?_, hd, hc, hn, fun j hj => absurd hj (hnone j), fun _ => ?_, ha⟩
  · by_cases hj : j = i
    · exact hj ▸ hi
    · rw [ho.slots j hj]
      exact fun hc => hj (slotByte_inj (hp.symm.trans ((h.connecting_iff j).mpr hc))).symm
  · rw [hun, h.waiting i hp]

/-- The slot that waited has its link, with a handle of its own. -/
theorem Agrees.connected (h : Agrees s) {s' : State (β × List LibEvent)} (hw : Wired s') {i : Fin bleMaxLinks}
    (hp : s.mgr.pendingConnectSlot = slotByte i) (ho : SlotOnly i s s') (hs : (s'.mgr.slots i).state = .connected)
    (hp' : s'.mgr.pendingConnectSlot = 0xFF) (hun : unanswered s'.log = unanswered s.log - 1)
    (hup : linksUp s'.log = (s'.mgr.slots i).connHandle :: linksUp s.log)
    (hne : (s'.mgr.slots i).connHandle ≠ gapConnhandleInit) (hfresh : (s'.mgr.slots i).connHandle ∉ linksUp s.log)
    (ha : NeverOverlaps s'.log) : Agrees s' := by
  -- the other connected slots have handles that were up before
  have hold : ∀ j, j ≠ i → (s'.mgr.slots j).state = .connected → (s'.mgr.slots j).connHandle ∈ linksUp s.log := by
    intro j hj hc
    rw [ho.slots j hj] at hc ⊢
    exact h.connected_up j hc
  refine h.answered hw hp ho (by rw [hs]; decide) hp' hun ?_ ?_ ?_ ha
  · refine ho.distinct_fresh h.distinct fun j hj hc he => hfresh ?_
    exact he ▸ hold j hj hc
  · intro j hj
    rw [hup]
    by_cases hji : j = i
    · rw [hji]
      exact List.mem_cons_self
    · exact List.mem_cons_of_mem _ (hold j hji hj)
  · rw [hup]
    exact List.forall_mem_cons.mpr ⟨hne, h.up_named⟩

theorem Agrees.terminated (h : Agrees s) {s' : State (β × List LibEvent)} (hw : Wired s') {connHandle : UInt16}
    {reason : UInt8} (hlog : s'.log = s.log ++ [.reported (.linkTerminated connHandle reason)])
    (hp : s'.mgr.pendingConnectSlot = s.mgr.pendingConnectSlot)
    (hs : ∀ j, (s'.mgr.slots j).state = .connecting ↔ (s.mgr.slots j).state = .connecting)
    (hc : ∀ j, (s'.mgr.slots j).state = .connected →
      s'.mgr.slots j = s.mgr.slots j ∧ (s.mgr.slots j).connHandle ≠ connHandle) : Agrees s' := by
  have hup : linksUp s'.log = (linksUp s.log).filter (· ≠ connHandle) := by rw [hlog, linksUp_snoc]; rfl
  have hun : unanswered s'.log = unanswered s.log := by rw [hlog, unanswered_snoc]; rfl
  refine ⟨hw, fun j => ?_, ?_, ?_, ?_, hp ▸ hun ▸ h.waiting, hp ▸ hun ▸ h.free,
    hlog ▸ neverOverlaps_snoc h.apart (by rintro ⟨⟩)⟩
  · rw [hp, hs, h.connecting_iff]
  · intro j k hj hk hjk
    have hsj := (hc j hj).1
    have hsk := (hc k hk).1
    rw [hsj] at hj hjk
    rw [hsk] at hk hjk
    exact h.distinct j k hj hk hjk
  · intro j hj
    obtain ⟨hsame, hne⟩ := hc j hj
    rw [hsame] at hj ⊢
    rw [hup, List.mem_filter]
    exact ⟨h.connected_up j hj, decide_eq_true hne⟩
  · intro connHandle' hm
    rw [hup] at hm
    exact h.up_named connHandle' (List.mem_of_mem_filter hm)

theorem Evented.agrees {evt : GapEvent} {r : State (β × List LibEvent) × List Enqueue}
    (hr : Evented (s.note (.gap evt)) evt r) (hw : Wired r.1) (h : Agrees s) (hpr : Promised s (.gap evt)) :
    Agrees r.1 := by
  cases hr with
  | @up i hp connHandle _ _ s' hn hs hh _ _ hp' hlog =>
    have ho : SlotOnly i s s' := ⟨hn.slots, hn.links⟩
    obtain ⟨hne, hfresh⟩ := hpr.2 rfl
    have hlog' : s'.log = s.log ++ [.reported _] ++ [.getMtu connHandle] := hlog
    have hup : linksUp s'.log = connHandle :: linksUp s.log := by rw [hlog', linksUp_snoc, linksUp_snoc]; rfl
    have hun : unanswered s'.log = unanswered s.log - 1 := by rw [hlog', unanswered_snoc, unanswered_snoc]; rfl
    subst hh
    exact h.connected hw hp ho hs hp' hun hup hne hfresh
      (hlog' ▸ neverOverlaps_snoc (neverOverlaps_snoc h.apart (by rintro ⟨⟩)) (by rintro ⟨⟩))
  | @failed i hp status _ hbad _ _ s' hn hs _ _ _ hp' hlog =>
    have ho : SlotOnly i s s' := ⟨hn.slots, hn.links⟩
    have hlog' : s'.log = s.log ++ [.reported _] := hlog
    have hup : linksUp s'.log = linksUp s.log := by rw [hlog', linksUp_snoc, upStep, if_neg hbad]
    have hun : unanswered s'.log = unanswered s.log - 1 := by rw [hlog', unanswered_snoc]; rfl
    have hidle : (s'.mgr.slots i).state ≠ .connected := by rw [hs]; decide
    exact h.answered hw hp ho (by rw [hs]; decide) hp' hun (ho.distinct hidle h.distinct) (h.still_up ho hidle hup)
      (hup ▸ h.up_named) (hlog' ▸ neverOverlaps_snoc h.apart (by rintro ⟨⟩))
  | unexpected hp =>
    have hzero := h.free hp
    exact absurd hpr.1 (by rw [hzero]; decide)
  | @down i connHandle hi _ s' hn hs hh _ _ hp' hlog =>
    have ho : SlotOnly i s s' := ⟨hn.slots, hn.links⟩
    have hfound : (s.mgr.slots i).connHandle = connHandle := findSlot_some hi
    have hconn : (s.mgr.slots i).state = .connected := (h.connected_iff i).mpr (hfound ▸ h.up_named connHandle hpr)
    have hidle : (s'.mgr.slots i).state ≠ .connected := by rw [hs]; decide
    refine h.terminated hw hlog hp' ?_ ?_
    · intro j
      by_cases hj : j = i
      · rw [hj, hs, hconn]
        decide
      · rw [ho.slots j hj]
    · intro j hj
      obtain ⟨hne, hslot⟩ := ho.connected hidle hj
      refine ⟨hslot, fun he => hne ?_⟩
      exact h.distinct j i (hslot ▸ hj) hconn (he.trans hfound.symm)
  | @unknown connHandle hi reason =>
    refine h.terminated hw rfl rfl (fun _ => Iff.rfl) fun j _ => ⟨rfl, fun he => ?_⟩
    exact List.find?_eq_none.mp hi j (List.mem_finRange j) (beq_iff_eq.mpr he)
  | @other _ hn s' hs hp hl =>
    refine h.kept hw hs hp (congrArg (·.lib.2) hl) (?_ : ∀ e ∈ [LibEvent.reported evt], Quiet e)
    simpa using Quiet.reported hn

theorem Promised.namesLink {input : Input} (h : Promised s input) : NamesLink input := by
  cases input with
  | gap evt =>
    cases evt with
    | linkEstablished => exact fun hs => (h.2 hs).1
    | _ => trivial
  | _ => trivial

/-- **Every step** keeps the agreement. -/
theorem step_agrees {input : Input} (hp : Promised s input) (h : Agrees s) : Agrees (tracedStep lib s input).1 := by
  have hw : Wired (tracedStep lib s input).1 := step_wired h.toWired hp.namesLink
  cases input with
  | mgmt hdr payload payloadLen => exact (handleMgmt_managed lib h.link_handle hdr payload payloadLen).agrees h
  | gap evt => exact (eventCb_evented lib _ evt).agrees hw h hp
  | gattMsg msg =>
    rcases processGattMsg_cases lib h.toWired msg with he | ⟨i, link, evts, he, -, hl, -⟩
    · exact (congrArg Prod.fst he).symm ▸ h
    · obtain ⟨new, hlog, hc⟩ := hl.calls
      rw [show tracedStep lib s (.gattMsg msg) = ({ s with link := link }, evts) from he] at hw ⊢
      exact h.kept hw rfl rfl hlog fun e hm => quiet_of_connHandle (hc e hm)
  | rssi => exact h

/-- **Slots and links agree, and attempts do not overlap**, after any run in
which the library keeps its promises. -/
theorem slots_consistent (lib : AttLib β) (taskId : UInt8) (b : β) (is : List Input)
    (hlib : Mealy.Along (tracedStep lib) Promised (init taskId (b, [])) is) :
    let s := Mealy.run (tracedStep lib) (init taskId (b, [])) is
    (∀ i, (s.mgr.slots i).state = .connected ↔ (s.mgr.slots i).connHandle ≠ gapConnhandleInit) ∧
      (∀ i, (s.link.links i).connHandle = (s.mgr.slots i).connHandle) ∧ DistinctLinks s.mgr ∧
      (∀ i, s.mgr.pendingConnectSlot = slotByte i ↔ (s.mgr.slots i).state = .connecting) ∧ NeverOverlaps s.log := by
  have h := Mealy.inv_run_along (I := Agrees) (fun _ _ hp h => step_agrees hp h) (agrees_init taskId b) hlib
  exact ⟨h.connected_iff, h.link_handle, h.distinct, h.connecting_iff, h.apart⟩

/-- A second attempt while the first is unanswered is not made. -/
theorem slots_consistent_twice :
    let second := Input.mgmt { VpHdr.zero with opcode := VpBleOpcode.connect.code } (some [2, 0, 6, 5, 4, 3, 2, 1]) 8
    let is := connecting.take 1 ++ second :: connecting.drop 1
    let s := Mealy.run (tracedStep BleLink.willing) (init 0 ((), [])) is
    (s.mgr.slots 1).connHandle = 5 ∧ (s.link.links 1).connHandle = (s.mgr.slots 1).connHandle ∧
      (s.mgr.slots 2).state ≠ .connecting ∧ NeverOverlaps s.log := by
  intro second is s
  obtain ⟨-, hlink, -, hc, ha⟩ :=
    slots_consistent BleLink.willing 0 () is ⟨trivial, trivial, ⟨by decide, by decide⟩, trivial⟩
  exact ⟨by decide, hlink 1, fun h => absurd ((hc 2).mpr h) (by decide), ha⟩

end UsbMux.BleHost
