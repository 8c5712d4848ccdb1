/-
The discoveries over a range of handles. Behind each response the firmware
asks the library to go on one handle further than the last one it was told of,
up to the end of the range. What it asked for last it does not remember: the
last handle is compared with the end of the range only, so it is the peer that
decides whether the requests move on (`range_discovery_bounded_iff`).
-/
import UsbMux.BleDiscovery
import UsbMux.BleEvents

namespace UsbMux.BleLink

open Endian UsbTx

variable {β : Type}

/-! ## Requests of a discovery -/

namespace Discovery

/-- The start handle of a request of the discovery that was made to the library. -/
def startHandle : Discovery → LibEvent → Option UInt16
  | .chars, .called (.discAllChars _ startHandle _ _) _ => some startHandle
  | .descs, .called (.discAllCharDescs _ startHandle _ _) _ => some startHandle
  | _, _ => none

/-- The start handles of the requests among the calls written down. -/
def requests (d : Discovery) (log : List LibEvent) : List UInt16 := log.filterMap d.startHandle

/-- A response behind whose last handle the discovery goes on. -/
def GoesOn (endHdl : UInt16) (msg : GattMsgEvent) (d : Discovery) : Prop :=
  d.count msg > 0 ∧ d.Regular msg ∧ d.lastHandle msg ≠ 0 ∧ d.lastHandle msg < endHdl

/-- A response with results after which it does not: the range is covered, or
the format of descriptors is not known. -/
def Ends (endHdl : UInt16) (msg : GattMsgEvent) (d : Discovery) : Prop :=
  d.count msg > 0 ∧ if d.Regular msg then d.lastHandle msg ≥ endHdl else d = .descs

instance (endHdl : UInt16) (msg : GattMsgEvent) (d : Discovery) : Decidable (d.GoesOn endHdl msg) :=
  inferInstanceAs (Decidable (_ ∧ _))

instance (endHdl : UInt16) (msg : GattMsgEvent) (d : Discovery) : Decidable (d.Ends endHdl msg) :=
  inferInstanceAs (Decidable (_ ∧ _))

/-- The start handles of the requests that responses lead to. -/
def asked (d : Discovery) (endHdl : UInt16) : List GattMsgEvent → List UInt16
  | [] => []
  | msg :: msgs =>
    if d.Ends endHdl msg then []
    else if d.GoesOn endHdl msg then (d.lastHandle msg + 1) :: asked d endHdl msgs
    else asked d endHdl msgs

/-- Each response behind which the discovery goes on ends in the range asked for, which began at `startHdl`. -/
def KeepsToRange (d : Discovery) (endHdl : UInt16) : UInt16 → List GattMsgEvent → Prop
  | _, [] => True
  | startHdl, msg :: msgs =>
    if d.Ends endHdl msg then True
    else if d.GoesOn endHdl msg then
      startHdl ≤ d.lastHandle msg ∧ KeepsToRange d endHdl (d.lastHandle msg + 1) msgs
    else KeepsToRange d endHdl startHdl msgs

instance KeepsToRange.decidable (d : Discovery) (endHdl : UInt16) :
    ∀ startHdl msgs, Decidable (d.KeepsToRange endHdl startHdl msgs)
  | _, [] => .isTrue trivial
  | startHdl, msg :: msgs =>
    have := KeepsToRange.decidable d endHdl startHdl msgs
    have := KeepsToRange.decidable d endHdl (d.lastHandle msg + 1) msgs
    inferInstanceAs (Decidable (if d.Ends endHdl msg then True else if d.GoesOn endHdl msg then
      startHdl ≤ d.lastHandle msg ∧ d.KeepsToRange endHdl (d.lastHandle msg + 1) msgs
      else d.KeepsToRange endHdl startHdl msgs))

end Discovery

/-- Start handles that rise within a range, so that there are no more of them than handles. -/
structure RisesWithin (startHdl endHdl : UInt16) (handles : List UInt16) : Prop where
  rises : handles.Pairwise (· < ·)
  within : ∀ h ∈ handles, h ≤ endHdl
  few : handles.length ≤ endHdl.toNat - startHdl.toNat + 1

variable {d : Discovery} {startHdl endHdl : UInt16}

theorem length_le_of_rises {handles : List UInt16} (hrises : (startHdl :: handles).Pairwise (· < ·))
    (hwithin : ∀ h ∈ startHdl :: handles, h ≤ endHdl) :
    (startHdl :: handles).length ≤ endHdl.toNat - startHdl.toNat + 1 := by
  induction handles generalizing startHdl with
  | nil => exact Nat.succ_le_succ (Nat.zero_le _)
  | cons h handles ih =>
    obtain ⟨hlt, hrest⟩ := List.pairwise_cons.mp hrises
    have hlt := UInt16.lt_iff_toNat_lt.mp (hlt h (by simp))
    have hle := UInt16.le_iff_toNat_le.mp (hwithin h (by simp))
    have := ih hrest fun h' hm => hwithin h' (List.mem_cons_of_mem _ hm)
    rw [List.length_cons]
    omega

theorem Discovery.GoesOn.succ {msg : GattMsgEvent} (h : d.GoesOn endHdl msg) :
    (d.lastHandle msg + 1).toNat = (d.lastHandle msg).toNat + 1 ∧ d.lastHandle msg + 1 ≤ endHdl := by
  have hlt := UInt16.lt_iff_toNat_lt.mp h.2.2.2
  have hend := endHdl.toNat_lt
  have hs : (d.lastHandle msg + 1).toNat = (d.lastHandle msg).toNat + 1 := by
    rw [UInt16.toNat_add]
    exact Nat.mod_eq_of_lt (by simp; omega)
  exact ⟨hs, UInt16.le_iff_toNat_le.mpr (by omega)⟩

theorem asked_within (d : Discovery) (endHdl : UInt16) (msgs : List GattMsgEvent) :
    ∀ h ∈ d.asked endHdl msgs, h ≤ endHdl := by
  induction msgs with
  | nil => simp [Discovery.asked]
  | cons msg msgs ih =>
    rw [Discovery.asked]
    split
    · simp
    split
    · next hg =>
      rw [List.forall_mem_cons]
      exact ⟨hg.succ.2, ih⟩
    · exact ih

theorem asked_rises_iff (d : Discovery) (startHdl endHdl : UInt16) (msgs : List GattMsgEvent) :
    (startHdl :: d.asked endHdl msgs).Pairwise (· < ·) ↔ d.KeepsToRange endHdl startHdl msgs := by
  induction msgs generalizing startHdl with
  | nil => simp [Discovery.asked, Discovery.KeepsToRange]
  | cons msg msgs ih =>
    rw [Discovery.asked, Discovery.KeepsToRange]
    split
    · simp
    split
    · next hg =>
      rw [← ih (d.lastHandle msg + 1), ← List.isChain_iff_pairwise, ← List.isChain_iff_pairwise,
        List.isChain_cons_cons]
      refine and_congr_left fun _ => ?_
      have := hg.succ.1
      rw [UInt16.lt_iff_toNat_lt, UInt16.le_iff_toNat_le]
      omega
    · exact ih startHdl

theorem risesWithin_iff (hr : startHdl ≤ endHdl) (msgs : List GattMsgEvent) :
    RisesWithin startHdl endHdl (startHdl :: d.asked endHdl msgs) ↔ d.KeepsToRange endHdl startHdl msgs := by
  have hwithin : ∀ h ∈ startHdl :: d.asked endHdl msgs, h ≤ endHdl :=
    List.forall_mem_cons.mpr ⟨hr, asked_within d endHdl msgs⟩
  rw [← asked_rises_iff]
  exact ⟨fun h => h.rises, fun h => ⟨h, hwithin, length_le_of_rises h hwithin⟩⟩

/-! ## What the firmware asks for -/

/-- A discovery of a range runs on link `i`, up to `endHdl`. -/
structure RunsTo (d : Discovery) (i : Fin bleMaxLinks) (endHdl : UInt16) (s : State β) : Prop where
  busy : (s.links i).procBusy ≠ 0
  proc : (s.links i).proc = d.proc
  rangeEnd : (s.links i).rangeEnd = endHdl

/-- The start handles of the requests made so far. -/
def asksFor (d : Discovery) (s : State (β × List LibEvent)) : List UInt16 := d.requests s.lib.2

theorem asksFor_request (d : Discovery) (hd : d ≠ .services) (log : List LibEvent) (connHandle startHdl endHdl : UInt16)
    (taskId status : UInt8) :
    d.requests (log ++ [.called (d.request connHandle startHdl endHdl taskId) status]) =
      d.requests log ++ [startHdl] := by
  rw [Discovery.requests, Discovery.requests, List.filterMap_append]
  cases d with
  | services => exact absurd rfl hd
  | chars | descs => rfl

variable {lib : AttLib β} {s : State (β × List LibEvent)} {slot : UInt8} {i : Fin bleMaxLinks} {msg : GattMsgEvent}

/-- The discovery goes on behind the last handle, as the library accepts every request. -/
theorem continueRange_goesOn (ha : ∀ b c, (lib.call b c).2 = bleSuccess) (hd : d ≠ .services)
    (h : RunsTo d i endHdl s) (hs : msg.status = bleSuccess) (hg : d.GoesOn endHdl msg) :
    let s' := continueRange lib.traced s i msg (d.lastHandle msg) fun connHandle startHdl endHdl taskId =>
      d.request connHandle startHdl endHdl taskId
    RunsTo d i endHdl s' ∧ asksFor d s' = asksFor d s ++ [d.lastHandle msg + 1] := by
  have hok : (lib.traced.call s.lib (d.request (s.links i).connHandle (d.lastHandle msg + 1) endHdl s.taskId)).2 =
      bleSuccess := ha _ _
  simp only [continueRange, h.rangeEnd]
  rw [if_pos ⟨hs, hg.2.2⟩, if_neg (not_not.mpr hok)]
  exact ⟨⟨h.busy, h.proc, h.rangeEnd⟩, asksFor_request d hd ..⟩

theorem continueRange_covered (h : RunsTo d i endHdl s) (hge : d.lastHandle msg ≥ endHdl)
    (call : UInt16 → UInt16 → UInt16 → UInt8 → LibCall) :
    continueRange lib.traced s i msg (d.lastHandle msg) call = endProc s i .ready := by
  simp only [continueRange, h.rangeEnd]
  rw [if_neg fun hc => UInt16.not_le.mpr hc.2.2 hge, if_pos (.inr (.inr hge))]

theorem continueRange_waits (h : RunsTo d i endHdl s) (hs : msg.status = bleSuccess) (h0 : d.lastHandle msg = 0)
    (hlt : d.lastHandle msg < endHdl) (call : UInt16 → UInt16 → UInt16 → UInt8 → LibCall) :
    continueRange lib.traced s i msg (d.lastHandle msg) call = s := by
  simp only [continueRange, h.rangeEnd]
  rw [if_neg fun hc => hc.2.1 h0, if_neg]
  rintro (hc | hc | hc)
  · rw [hs] at hc
    exact absurd hc (by decide)
  · rw [hs] at hc
    exact absurd hc (by decide)
  · exact UInt16.not_le.mpr hlt hc

/-- A response without results, or of another shape: only an unknown format ends the discovery. -/
theorem handle_irregular_state (hd : d ≠ .services) (hm : msg.method = d.response)
    (h : ¬ (d.count msg > 0 ∧ d.Regular msg)) :
    (d.handle lib.traced s i msg).1 = if d.count msg > 0 ∧ d = .descs then endProc s i .ready else s := by
  have hne {p : Prop} := Discovery.response_ne hm (p := p)
  cases d with
  | services => exact absurd rfl hd
  | chars =>
    have hno : ¬ (msg.method = attReadByTypeRsp ∧ msg.readByTypeRsp.numPairs > 0 ∧ msg.readByTypeRsp.len ≥ 5) :=
      fun h' => h h'.2
    simp only [Discovery.handle, handleDiscoverChars, if_neg hno, if_neg hne]
    rw [if_neg fun hc => by cases hc.2]
  | descs =>
    simp only [Discovery.handle, handleDiscoverDescs]
    by_cases hn : msg.findInfoRsp.numInfo > 0
    · rw [if_pos ⟨hm, hn⟩, if_pos (not_or.mp fun hr => h ⟨hn, hr⟩), if_pos ⟨hn, trivial⟩]
    · rw [if_neg fun hc => hn hc.2, if_neg hne, if_neg fun hc => hn hc.1]

theorem response_asks (ha : ∀ b c, (lib.call b c).2 = bleSuccess) (hd : d ≠ .services) (h : RunsTo d i endHdl s)
    (hi : getCtx slot = some i) (hm : msg.method = d.response) (hs : msg.status = bleSuccess) :
    let s' := (handleGattMsg lib.traced s slot msg).1
    if d.Ends endHdl msg then (s'.links i).procBusy = 0 ∧ asksFor d s' = asksFor d s
    else if d.GoesOn endHdl msg then RunsTo d i endHdl s' ∧ asksFor d s' = asksFor d s ++ [d.lastHandle msg + 1]
    else s' = s := by
  intro s'
  have hs' : s' = (d.handle lib.traced s i msg).1 :=
    congrArg Prod.fst (handleGattMsg_running hi h.busy h.proc (.inl hm))
  have hended : ((endProc s i .ready).links i).procBusy = 0 ∧ asksFor d (endProc s i .ready) = asksFor d s :=
    ⟨(ended_endProc s i).1, rfl⟩
  rw [hs']
  by_cases hreg : d.count msg > 0 ∧ d.Regular msg
  · have hafter : (d.handle lib.traced s i msg).1 = continueRange lib.traced s i msg (d.lastHandle msg)
        fun connHandle startHdl endHdl taskId => d.request connHandle startHdl endHdl taskId := by
      rw [Discovery.handle_regular hm hreg.1 hreg.2]
      cases d with
      | services => exact absurd rfl hd
      | chars | descs => rfl
    rw [hafter]
    by_cases hge : d.lastHandle msg ≥ endHdl
    · rw [if_pos ⟨hreg.1, by rwa [if_pos hreg.2]⟩, continueRange_covered h hge]
      exact hended
    · have hlt := UInt16.not_le.mp hge
      rw [if_neg fun he => hge (by have := he.2; rwa [if_pos hreg.2] at this)]
      by_cases h0 : d.lastHandle msg = 0
      · rw [if_neg fun hg => hg.2.2.1 h0]
        exact continueRange_waits h hs h0 hlt _
      · have hg : d.GoesOn endHdl msg := ⟨hreg.1, hreg.2, h0, hlt⟩
        rw [if_pos hg]
        exact continueRange_goesOn ha hd h hs hg
  · rw [handle_irregular_state hd hm hreg, if_neg fun hg : d.GoesOn endHdl msg => hreg ⟨hg.1, hg.2.1⟩]
    by_cases he : d.count msg > 0 ∧ d = .descs
    · rw [if_pos ⟨he.1, by rw [if_neg fun hr => hreg ⟨he.1, hr⟩]; exact he.2⟩, if_pos he]
      exact hended
    · have hnot : ¬ d.Ends endHdl msg := by
        intro hends
        have hno : ¬ d.Regular msg := fun hr => hreg ⟨hends.1, hr⟩
        have := hends.2
        rw [if_neg hno] at this
        exact he ⟨hends.1, this⟩
      rw [if_neg hnot, if_neg he]

theorem response_ignored (hi : getCtx slot = some i) (hb : (s.links i).procBusy = 0) (hm : msg.method = d.response) :
    (handleGattMsg lib.traced s slot msg).1 = s := by
  have hne : msg.method ≠ attMtuUpdatedEvent ∧ msg.method ≠ attHandleValueNoti ∧ msg.method ≠ attHandleValueInd := by
    rw [hm]
    cases d <;> decide
  simp only [handleGattMsg, hi, hne.1, hne.2.1, hne.2.2, hb, if_false, if_true]

theorem responses_ignored (hi : getCtx slot = some i) (hb : (s.links i).procBusy = 0) {msgs : List GattMsgEvent}
    (hm : ∀ msg ∈ msgs, msg.method = d.response) :
    Mealy.run (step lib.traced) s (msgs.map (.gattMsg slot)) = s := by
  induction msgs with
  | nil => rfl
  | cons msg msgs ih =>
    rw [List.map_cons, Mealy.run_cons, step, response_ignored hi hb (hm msg (by simp))]
    exact ih fun msg' h => hm msg' (List.mem_cons_of_mem _ h)

/-- **What a run of responses asks for.** -/
theorem responses_ask (ha : ∀ b c, (lib.call b c).2 = bleSuccess) (hd : d ≠ .services) (h : RunsTo d i endHdl s)
    (hi : getCtx slot = some i) {msgs : List GattMsgEvent}
    (hm : ∀ msg ∈ msgs, msg.method = d.response ∧ msg.status = bleSuccess) :
    asksFor d (Mealy.run (step lib.traced) s (msgs.map (.gattMsg slot))) = asksFor d s ++ d.asked endHdl msgs := by
  induction msgs generalizing s with
  | nil => exact (List.append_nil _).symm
  | cons msg msgs ih =>
    obtain ⟨⟨hmethod, hstatus⟩, hrest⟩ := List.forall_mem_cons.mp hm
    have hr := response_asks ha hd h hi hmethod hstatus
    rw [List.map_cons, Mealy.run_cons, step, Discovery.asked]
    dsimp only at hr
    split
    · next he =>
      rw [if_pos he] at hr
      rw [responses_ignored hi hr.1 fun msg' hmem => (hrest msg' hmem).1, hr.2, List.append_nil]
    next he =>
    rw [if_neg he] at hr
    split
    · next hg =>
      rw [if_pos hg] at hr
      rw [ih hr.1 hrest, hr.2, List.append_assoc]
      rfl
    · next hg =>
      rw [if_neg hg] at hr
      rw [hr]
      exact ih h hrest

/-- The contexts over a library that writes its calls down, with none made yet. -/
def State.noting (s : State β) : State (β × List LibEvent) := { s with lib := (s.lib, []) }

/-- A discovery of a range that is started has asked for all of it. -/
theorem perform_asks (lib : AttLib β) (hd : d ≠ .services) (s : State β)
    (hok : (perform lib.traced s.noting slot (d.op startHdl endHdl)).2.1 = .ok) :
    let s' := (perform lib.traced s.noting slot (d.op startHdl endHdl)).1
    startHdl ≤ endHdl ∧ ∃ i, getCtx slot = some i ∧ RunsTo d i endHdl s' ∧ asksFor d s' = [startHdl] := by
  obtain ⟨i, hi⟩ : ∃ i, getCtx slot = some i := by
    cases hg : getCtx slot with
    | some i => exact ⟨i, rfl⟩
    | none => cases d <;> simp [perform, Discovery.op, startDiscoverServices, startDiscoverChars, startDiscoverDescs,
        startProc, requireReadyCtx, hg] at hok
  have horder (h : ¬ (startHdl = 0 ∨ endHdl < startHdl)) : startHdl ≤ endHdl := UInt16.not_lt.mp (not_or.mp h).2
  have hone {connHandle : UInt16} {taskId status : UInt8} :=
    asksFor_request d hd [] connHandle startHdl endHdl taskId status
  cases d with
  | services => exact absurd rfl hd
  | chars | descs =>
    obtain ⟨hr, -, hlib, hlink⟩ := startProc_ok hi hok
    refine ⟨horder hr, i, hi, ⟨?_, ?_, ?_⟩, ?_⟩
    all_goals simp only [perform, startDiscoverChars, startDiscoverDescs, Discovery.op, asksFor, hlib, hlink]
    · exact show (1 : UInt8) ≠ 0 by decide
    · rfl
    · rfl
    · exact hone

/-- **Discovery of a range.** Started on a range that is accepted, with a
library that accepts every request, and answered by responses with status
SUCCESS: the start handles of its requests rise and stay in the range, so that
there are no more of them than the range has handles, exactly if each response
behind which it goes on ends in the range that was asked for. -/
theorem range_discovery_bounded_iff (lib : AttLib β) (ha : ∀ b c, (lib.call b c).2 = bleSuccess) (s : State β)
    (slot : UInt8) (d : Discovery) (hd : d ≠ .services) (startHdl endHdl : UInt16)
    (hok : (perform lib.traced s.noting slot (d.op startHdl endHdl)).2.1 = .ok) (msgs : List GattMsgEvent)
    (hm : ∀ msg ∈ msgs, msg.method = d.response ∧ msg.status = bleSuccess) :
    let s' := Mealy.run (step lib.traced) (perform lib.traced s.noting slot (d.op startHdl endHdl)).1
      (msgs.map (.gattMsg slot))
    RisesWithin startHdl endHdl (asksFor d s') ↔ d.KeepsToRange endHdl startHdl msgs := by
  obtain ⟨hr, i, hi, hruns, hasks⟩ := perform_asks lib hd s hok
  intro s'
  rw [show asksFor d s' = _ from responses_ask ha hd hruns hi hm, hasks]
  exact risesWithin_iff hr msgs

/-- Two responses, the second of them with the last handle of the range. -/
theorem range_discovery_bounded_iff_covered :
    let first := charsRsp bleSuccess 1 (some [2, 0, 2, 3, 0, 0, 42])
    let second := charsRsp bleSuccess 1 (some [8, 0, 2, 9, 0, 1, 42])
    let rsps := [first, second]
    let s := (perform willing.traced (attach willing (init 0 ()) 0 1).noting 0 (.startDiscoverChars 1 9)).1
    RisesWithin 1 9 (asksFor .chars (Mealy.run (step willing.traced) s (rsps.map (.gattMsg 0)))) := by
  intro first second rsps s
  exact (range_discovery_bounded_iff willing (fun _ _ => rfl) (attach willing (init 0 ()) 0 1) 0 .chars (by decide) 1 9
    (by decide) rsps (by decide)).mpr (by decide)

/-- A peer that reports one handle over and over: four requests for a range of
two handles, and the link is still busy. -/
theorem same_handle_again :
    let rsp := charsRsp bleSuccess 1 (some [1, 0, 2, 1, 0, 0, 42])
    let s := (perform willing.traced (attach willing (init 0 ()) 0 1).noting 0 (.startDiscoverChars 1 2)).1
    let s' := Mealy.run (step willing.traced) s ((List.replicate 3 rsp).map (.gattMsg 0))
    (perform willing.traced (attach willing (init 0 ()) 0 1).noting 0 (.startDiscoverChars 1 2)).2.1 = .ok ∧
      rsp.method = Discovery.chars.response ∧ rsp.status = bleSuccess ∧ asksFor .chars s' = [1, 2, 2, 2] ∧
      (s'.links 0).procBusy = 1 ∧ ¬ RisesWithin 1 2 (asksFor .chars s') := by
  intro rsp s s'
  have hasks : asksFor .chars s' = [1, 2, 2, 2] := by decide
  refine ⟨by decide, rfl, rfl, hasks, by decide, fun h => ?_⟩
  have := h.few
  rw [hasks] at this
  exact absurd this (by decide)

end UsbMux.BleLink
