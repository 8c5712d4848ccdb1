/-
Attempts to connect. One that is pending is ended by the library's report
only: no command of the host does it, and there is no timer (`pending_wedges`).
One that the library refuses is taken back, but the slot keeps the address it
was made for (`refused_connect_iff`).
-/
import UsbMux.BleUnused

namespace UsbMux.BleHost

open Endian UsbTx BleLink

variable {β : Type} {s s' : State β} {hdr : VpHdr} {payload : Ptr UInt8} {payloadLen : UInt16}

/-! ## A pending attempt -/

/-- A management command. -/
structure Command where
  hdr : VpHdr
  payload : Ptr UInt8
  payloadLen : UInt16

def Command.input (c : Command) : Input := .mgmt c.hdr c.payload c.payloadLen

/-- A well-formed command that asks an idle slot to connect. -/
structure ConnectsIdle (s : State β) (c : Command) : Prop where
  opcode : VpBleOpcode.ofCode c.hdr.opcode = some .connect
  payload : c.payload.isSome ∧ c.payloadLen ≥ 8
  idle : ∃ i, getCtx (c.payload.cell 0) = some i ∧ (s.mgr.slots i).state = .idle

/-- Some commands of the host lead to where an idle slot can be asked to connect. -/
def Recovers (lib : AttLib β) (s : State β) : Prop :=
  ∃ cmds : List Command, ∃ c : Command,
    let s' := Mealy.run (step lib) s (cmds.map Command.input)
    ConnectsIdle s' c ∧ (step lib s' c.input).2 ≠ queueStatusRsp c.hdr .errBusy

theorem Commanded.pending (hc : Commanded s s') (hp : s.mgr.pendingConnectSlot < UInt8.ofNat bleMaxLinks) :
    s'.mgr.pendingConnectSlot < UInt8.ofNat bleMaxLinks := by
  cases hc with
  | kept _ hk => rwa [hk]
  | operated => exact hp
  | attempted hfree => exact absurd hp hfree

theorem commands_pending (lib : AttLib β) (hp : s.mgr.pendingConnectSlot < UInt8.ofNat bleMaxLinks)
    (cmds : List Command) :
    (Mealy.run (step lib) s (cmds.map Command.input)).mgr.pendingConnectSlot < UInt8.ofNat bleMaxLinks := by
  induction cmds generalizing s with
  | nil => exact hp
  | cons c cmds ih => exact ih ((handleMgmt_commanded lib s c.hdr c.payload c.payloadLen).pending hp)

theorem connect_busy (lib : AttLib β) (hp : s.mgr.pendingConnectSlot < UInt8.ofNat bleMaxLinks) {c : Command}
    (hc : ConnectsIdle s c) : (step lib s c.input).2 = queueStatusRsp c.hdr .errBusy := by
  obtain ⟨hop, ⟨hsome, hlen⟩, i, hi, -⟩ := hc
  have hwell : ¬ (c.payload.isNone ∨ c.payloadLen < 8) := by
    rintro (h | h)
    · simp [Option.isNone_iff_eq_none.mp h] at hsome
    · exact UInt16.not_le.mpr h hlen
  simp only [step, Command.input, handleMgmt, hop, connect]
  rw [if_neg hwell, hi]
  simp only [hp, true_or, if_true]

theorem not_recovers (lib : AttLib β) (hp : s.mgr.pendingConnectSlot < UInt8.ofNat bleMaxLinks) : ¬ Recovers lib s := by
  rintro ⟨cmds, c, hc, hne⟩
  exact hne (connect_busy lib (commands_pending lib hp cmds) hc)

/-- **A pending attempt.** In every state reached with an attempt pending and
another slot idle, whatever the library is: no commands of the host lead to
where an idle slot can be asked to connect. -/
theorem pending_wedges (lib : AttLib β) (taskId : UInt8) (b : β) (is : List Input) :
    let s := Mealy.run (step lib) (init taskId b) is
    s.mgr.pendingConnectSlot < UInt8.ofNat bleMaxLinks →
      (∃ i, s.mgr.pendingConnectSlot ≠ slotByte i ∧ (s.mgr.slots i).state = .idle) → ¬ Recovers lib s := by
  intro s hp _
  exact not_recovers lib hp

theorem pending_wedges_first :
    ¬ Recovers BleLink.willing (Mealy.run (step BleLink.willing) (init 0 ()) [connectFirst]) :=
  pending_wedges BleLink.willing 0 () [connectFirst] (by decide) ⟨1, by decide, by decide⟩

/-- The peer never answers: slot 0 is pending, and slots 1 and 2 stay idle. -/
theorem silent_peer_wedges :
    let s := Mealy.run (step BleLink.willing) (init 0 ()) [connectFirst]
    (∀ b c, (BleLink.willing.call b c).2 = bleSuccess) ∧ s.mgr.pendingConnectSlot = 0 ∧
      (s.mgr.slots 1).state = .idle ∧ (s.mgr.slots 2).state = .idle ∧ ¬ Recovers BleLink.willing s :=
  ⟨fun _ _ => rfl, by decide, by decide, by decide, not_recovers BleLink.willing (by decide)⟩

/-! ## A refused attempt -/

/-- Nothing that the host or the other modules can see has changed. -/
structure NoTrace (s s' : State β) : Prop where
  connState : ∀ i, connStatePayload s' i = connStatePayload s i
  pending : s'.mgr.pendingConnectSlot = s.mgr.pendingConnectSlot
  links : s'.link.links = s.link.links

/-- The command gets as far as the library, for slot `i`. -/
structure Attempts (s : State β) (payload : Ptr UInt8) (payloadLen : UInt16) (i : Fin bleMaxLinks) : Prop where
  wellFormed : ¬ (payload.isNone ∨ payloadLen < 8)
  slot : getCtx (payload.cell 0) = some i
  free : ¬ (s.mgr.pendingConnectSlot < UInt8.ofNat bleMaxLinks ∨ (s.mgr.slots i).state ≠ .idle)

/-- What the command writes is what the slot and its context hold already. -/
structure WritesSame (s : State β) (payload : Ptr UInt8) (i : Fin bleMaxLinks) : Prop where
  addrType : (s.mgr.slots i).addrType = payload.cell 1
  addr : (s.mgr.slots i).addr.toList = (payload.shift 2).cells bAddrLen
  mtu : (s.link.links i).mtu = attMtuSize

/-- A slot whose attempt the library has refused. -/
def refusedSlot (payload : Ptr UInt8) (slot : Slot) : Slot :=
  { slot with
    state := .idle
    addrType := payload.cell 1
    addr := slot.addr.write 0 ((payload.shift 2).cells bAddrLen) }

theorem connect_at_once (lib : BleLib β) (hno : ∀ i, ¬ Attempts s payload payloadLen i) :
    (connect lib s hdr payload payloadLen).1 = s := by
  have hc := connect_connecting lib s hdr payload payloadLen
  generalize connect lib s hdr payload payloadLen = r at hc ⊢
  cases hc with
  | atOnce => rfl
  | asked hw hi hfree => exact absurd ⟨hw, hi, hfree⟩ (hno _)

theorem connect_refused (lib : BleLib β) {i : Fin bleMaxLinks} (ha : Attempts s payload payloadLen i)
    (hr : (connect lib s hdr payload payloadLen).2 ≠ queueStatusRsp hdr .ok) :
    let s' := (connect lib s hdr payload payloadLen).1
    s'.mgr.slots = (s.mgr.modify i (refusedSlot payload)).slots ∧
      s'.mgr.pendingConnectSlot = 0xFF ∧ s'.link.links = (BleLink.reset s.link (slotByte i)).links := by
  have hc := connect_connecting lib s hdr payload payloadLen
  generalize connect lib s hdr payload payloadLen = r at hc hr ⊢
  cases hc with
  | atOnce hno => exact absurd (hno i ha.slot) (not_or.mpr ⟨ha.wellFormed, ha.free⟩)
  | @asked j _ hj _ _ s' status hs _ _ hrsp =>
    obtain rfl : i = j := Option.some.inj (ha.slot.symm.trans hj)
    have hbad : status ≠ bleSuccess := fun h0 => hr (by rw [hrsp, if_pos h0])
    refine ⟨funext fun k => ?_, hs.pending.trans (if_neg hbad), hs.links⟩
    by_cases hk : k = i
    · rw [hk, hs.slot, if_neg hbad, modify_slots_self]
      rfl
    · rw [hs.others k hk, modify_slots_of_ne _ _ hk]

theorem toList_write_all (a : Block UInt8 bAddrLen) (p : Ptr UInt8) :
    (a.write 0 (p.cells bAddrLen)).toList = p.cells bAddrLen := by
  have := Block.take_write a (Ptr.length_cells p bAddrLen) le_rfl
  rwa [List.take_of_length_le (by simp)] at this

theorem refusedSlot_same {slot : Slot} (hs : slot.state = .idle) (htype : slot.addrType = payload.cell 1)
    (haddr : slot.addr.toList = (payload.shift 2).cells bAddrLen) : refusedSlot payload slot = slot := by
  have hwrite : slot.addr.write 0 ((payload.shift 2).cells bAddrLen) = slot.addr :=
    List.Vector.toList_injective ((toList_write_all _ _).trans haddr.symm)
  simp only [refusedSlot, hwrite, ← htype, ← hs]

/-- The address of a slot is what its state is reported with. -/
theorem addr_of_connState {i : Fin bleMaxLinks} (h : connStatePayload s' i = connStatePayload s i) :
    (s'.mgr.slots i).addrType = (s.mgr.slots i).addrType ∧ (s'.mgr.slots i).addr = (s.mgr.slots i).addr := by
  simp only [connStatePayload, le16, List.cons_append, List.nil_append, List.cons.injEq] at h
  exact ⟨h.2.2.1, List.Vector.toList_injective (by simpa using h.2.2.2.2.2.2.2.2)⟩

theorem connState_congr (hs : s'.mgr.slots = s.mgr.slots) (hl : s'.link.links = s.link.links) (i : Fin bleMaxLinks) :
    connStatePayload s' i = connStatePayload s i := by
  simp only [connStatePayload, getState, hs, hl]

/-- A refused attempt leaves no trace where it wrote what was there. -/
theorem refused_noTrace_iff (h : Unused s) {i : Fin bleMaxLinks} (ha : Attempts s payload payloadLen i)
    (hs : s'.mgr.slots = (s.mgr.modify i (refusedSlot payload)).slots)
    (hp : s'.mgr.pendingConnectSlot = 0xFF) (hl : s'.link.links = (BleLink.reset s.link (slotByte i)).links) :
    NoTrace s s' ↔ WritesSame s payload i := by
  have hidle : (s.mgr.slots i).state = .idle := not_not.mp (not_or.mp ha.free).2
  have hctx := h.ctx i (by rw [hidle]; decide)
  have hself := reset_links_self h i
  constructor
  · intro hn
    obtain ⟨htype, haddr⟩ := addr_of_connState (hn.connState i)
    have hmtu := congrFun (hl.symm.trans hn.links) i
    rw [hs, modify_slots_self] at htype haddr
    rw [hself, hctx] at hmtu
    refine ⟨htype.symm, ?_, (congrArg LinkCtx.mtu hmtu).symm⟩
    rw [← haddr]
    exact toList_write_all _ _
  · rintro ⟨htype, haddr, hmtu⟩
    have hslots : s'.mgr.slots = s.mgr.slots := by
      rw [hs, Mgr.modify, refusedSlot_same hidle htype haddr]
      exact Function.update_eq_self i s.mgr.slots
    have hlinks : s'.link.links = s.link.links := by
      funext j
      rw [hl]
      by_cases hj : j = i
      · rw [hj, hself, hctx, hmtu]
      · exact reset_links_of_ne s.link hj
    refine ⟨connState_congr hslots hlinks, ?_, hlinks⟩
    rw [hp]
    rcases h.pending_slot with hff | ⟨j, hj⟩
    · exact hff.symm
    · exact absurd (.inl (hj ▸ slotByte_lt j)) ha.free

/-- **A refused CONNECT.** In every state reached, a CONNECT that is not
answered with OK leaves no trace exactly if it does not get as far as the
library, or writes what the slot and its context hold already. -/
theorem refused_connect_iff (lib : AttLib β) (taskId : UInt8) (b : β) (is : List Input) (hdr : VpHdr)
    (hop : VpBleOpcode.ofCode hdr.opcode = some .connect) (payload : Ptr UInt8) (payloadLen : UInt16) :
    let s := Mealy.run (step lib) (init taskId b) is
    let r := handleMgmt lib.toBleLib s hdr payload payloadLen
    r.2 ≠ queueStatusRsp hdr .ok →
      (NoTrace s r.1 ↔ ∀ i, Attempts s payload payloadLen i → WritesSame s payload i) := by
  intro s r hr
  have h : Unused s := run_unused lib taskId b is
  have hstep : r = connect lib.toBleLib s hdr payload payloadLen := by
    simp only [r, handleMgmt, hop]
  rw [hstep] at hr ⊢
  by_cases ha : ∃ i, Attempts s payload payloadLen i
  · obtain ⟨i, ha⟩ := ha
    obtain ⟨hs, hp, hl⟩ := connect_refused lib.toBleLib ha hr
    rw [refused_noTrace_iff h ha hs hp hl]
    refine ⟨fun hw j hj => ?_, fun hw => hw i ha⟩
    obtain rfl := Option.some.inj (ha.slot.symm.trans hj.slot)
    exact hw
  · rw [not_exists] at ha
    rw [connect_at_once lib.toBleLib ha]
    exact iff_of_true ⟨fun _ => rfl, rfl, rfl⟩ fun i hi => absurd hi (ha i)

/-- A library that refuses every call. -/
def unwilling : AttLib Unit := { BleLink.willing with call := fun b _ => (b, blePending) }

/-- A second attempt with the address of the first. -/
theorem refused_connect_iff_again :
    let s := Mealy.run (step unwilling) (init 0 ()) [connectFirst]
    NoTrace s (handleMgmt unwilling.toBleLib s { VpHdr.zero with opcode := VpBleOpcode.connect.code }
      (some [0, 1, 16, 17, 18, 19, 20, 21]) 8).1 := by
  refine (refused_connect_iff unwilling 0 () [connectFirst] { VpHdr.zero with opcode := VpBleOpcode.connect.code } rfl
    (some [0, 1, 16, 17, 18, 19, 20, 21]) 8 (by decide)).mpr fun i hi => ?_
  obtain rfl : (0 : Fin bleMaxLinks) = i := Option.some.inj hi.slot
  exact ⟨by decide, by decide, by decide⟩

/-- The first attempt: slot 0 is reported with the address it was refused for. -/
theorem refused_address_stays :
    let s : State Unit := init 0 ()
    let r := handleMgmt unwilling.toBleLib s { VpHdr.zero with opcode := VpBleOpcode.connect.code }
      (some [0, 1, 16, 17, 18, 19, 20, 21]) 8
    r.2 ≠ queueStatusRsp { VpHdr.zero with opcode := VpBleOpcode.connect.code } .ok ∧
      connStatePayload s 0 = [0, 0, 0, 0, 0xFE, 0xFF, 0, 0, 0, 0, 0, 0, 0, 0] ∧
      connStatePayload r.1 0 = [0, 0, 1, 0, 0xFE, 0xFF, 0, 0, 16, 17, 18, 19, 20, 21] ∧ ¬ NoTrace s r.1 := by
  intro s r
  refine ⟨by decide, by decide, by decide, fun h => ?_⟩
  exact absurd (h.connState 0) (by decide)

end UsbMux.BleHost
