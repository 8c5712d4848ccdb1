/-
What the host reads: the messages in the packets of all sessions are, class by
class and in order, messages of the enqueue calls that the firmware made. What a
message conveys is laid down when its call is made (`Carries`), and from the
queue to the bus nothing changes but what gets lost.
-/
import UsbMux.Firmware
import UsbMux.Lib.Lossy

namespace UsbMux.Firmware

open Framing List UsbDev UsbTx

/-! ## From a call to its frame -/

/-- A header with the payload. -/
abbrev Message := VpHdr × List UInt8

/-- `m` is the message of `call`: its header with some sequence number, and
its payload where there is one. -/
def Conveys (m : Message) (call : Enqueue) : Prop :=
  ∃ seq, m.1 = VP.encodeHeader (call.hdr seq) ∧ m.2.length = call.payloadLen.toNat ∧
    (call.payload.isSome → m.2 = call.payload.cells call.payloadLen.toNat)

/-- `f` is a frame of the receiver's format with the message of `call`. -/
structure Carries (f : Frame) (call : Enqueue) : Prop where
  conveys : Conveys (InPath.content f) call
  isFrame : IsFrame UsbRx.format (InPath.content f).1 f.bytes

theorem carries_enqueue {c : UsbTx.Ctx} {call : Enqueue} {f : Frame} (h : (enqueue c call).2 = some f) :
    Carries f call := by
  rcases enqueue_cases c call with ⟨⟨bit, hr⟩, -⟩ | ⟨g, hg, hp, -, hw, -⟩
  · rw [hr] at h
    cases h
  obtain rfl : f = g := Option.some.inj (h.symm.trans hg)
  obtain ⟨hdr, hhdr⟩ : ∃ hdr, hdr = VP.encodeHeader (call.hdr c.seq) := ⟨_, rfl⟩
  obtain ⟨rest, hrest⟩ : ∃ rest, rest = if call.payload.isSome then call.payload.cells call.payloadLen.toNat
      else ((c.queue call.queue).slot.data.toList.drop 24).take call.payloadLen.toNat := ⟨_, rfl⟩
  have htot : hdr.totalLen = 24 + call.payloadLen := by
    rw [hhdr, VP.encodeHeader_totalLen, InPath.hdr_payloadLen]
  have hbytes : f.bytes = hdr.bytes hdr.headerCrc16 ++ rest := by
    rw [hw, ← hhdr, writeFrame_bytes _ hp htot, ← hrest]
  have hlen : rest.length = call.payloadLen.toNat := by
    have hd : (c.queue call.queue).slot.data.toList.length = 512 := (c.queue call.queue).slot.data.toList_length
    rw [hrest]
    split
    · exact Ptr.length_cells _ _
    · rw [length_take, length_drop, hd]
      omega
  have hcontent : InPath.content f = (hdr, rest) := by
    refine Prod.ext ?_ ?_
    · rw [InPath.content, hbytes, hhdr, VP.deserializeHeader_own]
    · rw [InPath.content, hbytes]
      exact drop_left' (VpHdr.length_bytes _ _)
  have hpl : (call.hdr c.seq).payloadLen.toNat ≤ 488 := by rw [InPath.hdr_payloadLen]; exact hp
  have hacc := UsbRx.accept_encoded (call.hdr c.seq) hpl rest
  rw [← hhdr, ← hbytes] at hacc
  have htotal := (UsbRx.accept_payloadLen hacc).mp (by rw [hhdr]; exact hpl)
  refine ⟨⟨c.seq, by rw [hcontent, hhdr], by rw [hcontent, hlen], fun hs => ?_⟩, ?_, ?_⟩
  · rw [hcontent, hrest, if_pos hs]
  · rw [hcontent, UsbRx.format_size, htotal, hbytes, length_append, VpHdr.length_bytes, VP.headerLen_eq, hlen,
      hhdr, VP.encodeHeader_payloadLen, InPath.hdr_payloadLen]
    omega
  · rw [hcontent, UsbRx.format_window, UsbRx.accept_take]
    exact hacc

/-- The frames of one class that a handler's calls put into its queue. -/
theorem carries_enqueueAll (c : UsbTx.Ctx) (cs : List Enqueue) (q : UsbTx.Class) :
    SublistForall₂ Carries (accepted q (enqueueAll c cs).2) (cs.filter (·.queue = q)) := by
  induction cs generalizing c with
  | nil => exact .nil
  | cons call cs ih =>
    have hcons : accepted q (enqueueAll c (call :: cs)).2 =
        accepted q [enqueued call.queue (enqueue c call).2] ++ accepted q (enqueueAll (enqueue c call).1 cs).2 := by
      rw [← accepted_append]
      rfl
    have hfilter : (call :: cs).filter (·.queue = q) = [call].filter (·.queue = q) ++ cs.filter (·.queue = q) :=
      filter_append [call] cs
    rw [hcons, hfilter]
    refine Lossy.append ?_ (ih _)
    cases hf : (enqueue c call).2 with
    | none => exact .nil
    | some f =>
      rw [enqueued, accepted_queued]
      by_cases hq : call.queue = q
      · rw [if_pos hq, filter_cons_of_pos (by simpa using hq)]
        exact .cons (carries_enqueue hf) .nil
      · rw [if_neg hq]
        exact .nil

/-! ## From the queues to the bus -/

/-- The message type of a class. -/
def msgType : UsbTx.Class → VpMsgType
  | .rsp => .rsp
  | .evt => .evt
  | .data => .data

/-- The message is of the type of a class. -/
def OfClass (q : UsbTx.Class) (m : Message) : Bool := m.1.msgType == (msgType q).code

theorem Conveys.ofClass {m : Message} {call : Enqueue} (h : Conveys m call) (q : UsbTx.Class) :
    OfClass q m = decide (call.queue = q) := by
  obtain ⟨seq, hm, -⟩ := h
  rw [OfClass, hm]
  cases call <;> cases q <;> rfl

/-- What `USBTX_Process` does to the driver, with what it says it sent. -/
theorem process_handed (c : UsbTx.Ctx) (d : UsbDev.Ctx) :
    let r := UsbTx.process device c d
    (∀ q, accepted q r.2.2 = []) ∧
    ((ep2In r.2.1 = ep2In d ∧ InPath.handed r.2.2 = [] ∧ ∀ q, sent q r.2.2 = []) ∨
      ∃ q f d₁, ep2In d₁ = ep2In d ∧ d₁.ep2TxActive = 0 ∧ 0 < f.len.toNat ∧ f.len.toNat ≤ 512 ∧
        InPath.handed r.2.2 = [f] ∧ (∀ q', sent q' r.2.2 = if q = q' then [f] else []) ∧
        f ∈ (c.queue q).toList ∧ r.2.1 = loadEp2Chunk (stageFrame d₁ (some f.data.toList) f.len)) := by
  intro r
  obtain ⟨hs, hhs, htrace⟩ := process_trace device c d
  have hcases := (InPath.process_cases c d).2
  have hhint : InPath.handed hs = [] ∧ ∀ q, accepted q hs = [] ∧ sent q hs = [] := by
    rcases hhs with rfl | ⟨hint, rfl⟩ <;> exact ⟨rfl, fun _ => ⟨rfl, rfl⟩⟩
  rcases htrace with ⟨-, he⟩ | ⟨q, f, fs, hq, -, -, he⟩
  · have hr : r.2.2 = hs := he
    rw [hr]
    refine ⟨fun q => (hhint.2 q).1, .inl ⟨?_, hhint.1, fun q => (hhint.2 q).2⟩⟩
    rcases hcases with ⟨h, -⟩ | ⟨_, _, _, -, -, -, -, -, hh, -⟩
    · exact h
    · rw [he, hhint.1] at hh
      cases hh
  · have hr : r.2.2 = hs ++ [.sent q f] := he
    have hh : InPath.handed r.2.2 = [f] := by
      rw [hr, InPath.handed, filterMap_append]
      exact (congrArg (· ++ [f]) hhint.1)
    refine ⟨fun q' => by rw [hr, accepted_append, (hhint.2 q').1, accepted_sent]; rfl, .inr ?_⟩
    rcases hcases with ⟨-, h⟩ | ⟨q₁, f₁, d₁, -, hd, hact, h0, hl, h, hdev⟩
    · exact absurd (hh.symm.trans h) (by simp)
    · obtain rfl : f₁ = f := by
        have := h.symm.trans hh
        simpa using this
      refine ⟨q, f₁, d₁, hd, hact, h0, hl, hh, ?_, by rw [hq]; simp, hdev⟩
      intro q'
      rw [hr, sent_append, (hhint.2 q').2, sent_sent, nil_append]

/-- What the host reads from the packets since the last reset of the bus. -/
def hostReads {β : Type} (s : State β) : List Message := UsbRx.reference s.wire.packets.flatten

/-- What it has read in the sessions before. A session is read from its first
byte: what a reset cuts off is not continued. -/
def pastReads {β : Type} (s : State β) : List Message :=
  s.wire.past.flatMap fun packets => UsbRx.reference packets.flatten

/-- What the host reads over all sessions. -/
def allReads {β : Type} (s : State β) : List Message := pastReads s ++ hostReads s

/-- What has been made of the calls so far: the queues hold what was accepted
and is not sent, the frames carry the calls they were made for, the packets on
the bus hold frames that were sent, and so did those of the sessions before. -/
structure OnItsWay {β : Type} (s : State β) (tr : List Output) : Prop where
  history : History s.tx (events tr)
  carried : ∀ q, SublistForall₂ Carries (accepted q (events tr)) ((calls tr).filter (·.queue = q))
  flow : InPath.Flow (ep2In s.dev) s.wire.frames s.wire.packets s.wire.completed
  origin : ∀ f ∈ s.wire.frames, ∃ q, f ∈ sent q (events tr)
  inOrder : ∃ gs, pastReads s = gs.map InPath.content ∧
    ∀ q, (gs ++ s.wire.frames).filter (OfClass q ∘ InPath.content) <+ sent q (events tr)

section

variable {β : Type} {s : State β} {tr : List Output}

theorem OnItsWay.carries (h : OnItsWay s tr) {q : UsbTx.Class} {f : Frame}
    (hf : f ∈ sent q (events tr) ++ (s.tx.queue q).toList) : ∃ call, call.queue = q ∧ Carries f call := by
  rw [← h.history.conserved q] at hf
  obtain ⟨l, hall, hsub⟩ := sublistForall₂_iff.mp (h.carried q)
  obtain ⟨n, hn, rfl⟩ := mem_iff_getElem.mp hf
  have hn' : n < l.length := hall.length_eq ▸ hn
  refine ⟨l[n], ?_, hall.get hn hn'⟩
  have hmem := mem_filter.mp (hsub.subset (getElem_mem hn'))
  exact of_decide_eq_true hmem.2

theorem reference_frames {fs : List Frame} (hfs : ∀ f ∈ fs, IsFrame UsbRx.format (InPath.content f).1 f.bytes)
    {tail : List UInt8} (htail : Pending UsbRx.format tail) :
    UsbRx.reference (fs.flatMap Frame.bytes ++ tail) = fs.map InPath.content := by
  have hframes : ∀ p ∈ fs.map fun f => ((InPath.content f).1, f.bytes), IsFrame UsbRx.format p.1 p.2 := by
    intro p hp
    obtain ⟨f, hf, rfl⟩ := mem_map.mp hp
    exact hfs f hf
  have htokens := tokens_frames hframes tail
  rw [flatMap_map, tokens_of_pending htail, append_nil, map_map] at htokens
  rw [UsbRx.reference_eq_bodies, htokens, bodies, filterMap_map]
  exact congrFun filterMap_eq_map' _

theorem OnItsWay.reads (h : OnItsWay s tr) :
    ∃ fs, fs <+ s.wire.frames ∧ hostReads s = fs.map InPath.content := by
  let path : InPath.State := ⟨s.tx, s.dev, s.rx.ctx, [], s.wire.frames, s.wire.packets, s.wire.completed⟩
  have hframe : ∀ f ∈ s.wire.frames, IsFrame UsbRx.format (InPath.content f).1 f.bytes := by
    intro f hf
    obtain ⟨q, hq⟩ := h.origin f hf
    obtain ⟨call, -, hc⟩ := h.carries (mem_append_left _ hq)
    exact hc.isFrame
  have hflow : InPath.Flow (ep2In path.dev) path.frames path.packets path.completed := h.flow
  obtain ⟨-, -, -, tail, htail, hcut⟩ := hflow.packets_eq
  have hsub : InPath.complete path <+ s.wire.frames := by
    simp only [InPath.complete]
    split
    · exact Sublist.refl _
    · exact dropLast_sublist _
  refine ⟨InPath.complete path, hsub, ?_⟩
  have hpend : Pending UsbRx.format tail := by
    rcases hcut with rfl | ⟨f, hf, hpre, hlt⟩
    · exact pending_nil
    · exact pending_of_cut (hframe f hf) hpre hlt
  have hpackets : s.wire.packets.flatten = (InPath.complete path).flatMap Frame.bytes ++ tail := htail
  rw [hostReads, hpackets]
  exact reference_frames (fun f hf => hframe f (hsub.subset hf)) hpend

theorem sent_enqueueAll (q : UsbTx.Class) (c : UsbTx.Ctx) (cs : List Enqueue) : sent q (enqueueAll c cs).2 = [] := by
  induction cs generalizing c with
  | nil => rfl
  | cons call cs ih =>
    have hone : sent q [enqueued call.queue (enqueue c call).2] = [] := by
      cases (enqueue c call).2 <;> rfl
    calc sent q (enqueueAll c (call :: cs)).2
        = sent q [enqueued call.queue (enqueue c call).2] ++ sent q (enqueueAll (enqueue c call).1 cs).2 :=
          (sent_append ..).symm ▸ rfl
      _ = [] := by rw [hone, ih, nil_append]

/-- Calls are made, and the bus goes on with the frames it had, or what was read
of them is past. -/
theorem OnItsWay.queued (h : OnItsWay s tr) {s' : State β} {us : List Output}
    (htx : s'.tx = (enqueueAll s.tx (calls us)).1 ∧ events us = (enqueueAll s.tx (calls us)).2)
    (hflow : InPath.Flow (ep2In s'.dev) s'.wire.frames s'.wire.packets s'.wire.completed)
    (hkept : ∃ fs, pastReads s' = pastReads s ++ fs.map InPath.content ∧ fs ++ s'.wire.frames <+ s.wire.frames) :
    OnItsWay s' (tr ++ us) := by
  have hsent (q : UsbTx.Class) : sent q (events (tr ++ us)) = sent q (events tr) := by
    rw [events_append, sent_append, htx.2, sent_enqueueAll, append_nil]
  obtain ⟨fs, hpast', hsub⟩ := hkept
  obtain ⟨gs, hpast, hin⟩ := h.inOrder
  refine ⟨?_, ?_, hflow, ?_, gs ++ fs, ?_, ?_⟩
  · rw [htx.1, events_append, htx.2]
    exact h.history.enqueueAll _
  · intro q
    rw [events_append, accepted_append, calls_append, filter_append, htx.2]
    exact Lossy.append (h.carried q) (carries_enqueueAll _ _ _)
  · intro f hf
    obtain ⟨q, hq⟩ := h.origin f (hsub.subset (mem_append_right _ hf))
    exact ⟨q, by rwa [hsent]⟩
  · rw [hpast', hpast, map_append]
  · intro q
    rw [hsent, append_assoc]
    exact (((Sublist.refl gs).append hsub).filter _).trans (hin q)

/-- An interrupt of the controller: the packets hold the frames as before, or a
reset has ended the session with what was read of them. -/
theorem OnItsWay.interrupted (h : OnItsWay s tr) (i : Irq) :
    let s' := usbIrq s i
    InPath.Flow (ep2In s'.dev) s'.wire.frames s'.wire.packets s'.wire.completed ∧
      ∃ fs, pastReads s' = pastReads s ++ fs.map InPath.content ∧ fs ++ s'.wire.frames <+ s.wire.frames := by
  have quiet {i : Irq} (hr : i ≠ .busReset) (h1 : i ≠ .ep1In) (h2 : i ≠ .ep2In) :
      InPath.Flow (ep2In (interrupt s.dev s.rx.ctx i).1) s.wire.frames s.wire.packets s.wire.completed := by
    rw [(sameIn_interrupt s.dev s.rx.ctx hr h1 h2).2]
    exact h.flow
  have kept {s' : State β} (hw : s'.wire.past = s.wire.past ∧ s'.wire.frames = s.wire.frames) :
      ∃ fs, pastReads s' = pastReads s ++ fs.map InPath.content ∧ fs ++ s'.wire.frames <+ s.wire.frames := by
    refine ⟨[], ?_, ?_⟩
    · rw [pastReads, hw.1, map_nil, append_nil, pastReads]
    · rw [hw.2, nil_append]
  cases i with
  | setup packet => exact ⟨quiet (by simp) (by simp) (by simp), kept ⟨rfl, rfl⟩⟩
  | ep0In => exact ⟨quiet (by simp) (by simp) (by simp), kept ⟨rfl, rfl⟩⟩
  | ep0Out data => exact ⟨quiet (by simp) (by simp) (by simp), kept ⟨rfl, rfl⟩⟩
  | ep3Out data pid => exact ⟨quiet (by simp) (by simp) (by simp), kept ⟨rfl, rfl⟩⟩
  | ep1In =>
    refine ⟨?_, kept ⟨rfl, rfl⟩⟩
    simp only [usbIrq, (ep_ep1In s.dev s.rx.ctx).2]
    exact h.flow
  | busReset =>
    obtain ⟨fs, hsub, hreads⟩ := h.reads
    refine ⟨.idle ?_ rfl rfl, fs, ?_, ?_⟩
    · simp only [usbIrq, (ep_busReset s.dev s.rx.ctx).2]
      decide
    · rw [← hreads]
      simp [usbIrq, pastReads, hostReads]
    · simpa [usbIrq] using hsub
  | ep2In =>
    cases ha : armed s.dev.regs.uep2TxCtrl with
    | false =>
      simp only [usbIrq, ha, Bool.false_eq_true, if_false]
      exact ⟨h.flow, kept ⟨rfl, rfl⟩⟩
    | true =>
      simp only [usbIrq, ha, if_true]
      exact ⟨(InPath.flow_ep2In s.rx.ctx h.flow ha).1, kept ⟨rfl, rfl⟩⟩

/-- `USBTX_Process` sends nothing, or hands the oldest frame of a queue to the driver. -/
theorem OnItsWay.scheduled (h : OnItsWay s tr) (lib : AttLib β) (map : UartMgr.Map) :
    OnItsWay (step lib map s .txProcess).1 (tr ++ (step lib map s .txProcess).2) := by
  obtain ⟨hacc, hcases⟩ := process_handed s.tx s.dev
  have hhist : History (UsbTx.process device s.tx s.dev).1 (events tr ++ (UsbTx.process device s.tx s.dev).2.2) :=
    h.history.process device s.dev
  have hev : events (step lib map s .txProcess).2 = (UsbTx.process device s.tx s.dev).2.2 := append_nil _
  have hcalls : calls (step lib map s .txProcess).2 = [] := rfl
  have hcarried (q : UsbTx.Class) : SublistForall₂ Carries
      (accepted q (events (tr ++ (step lib map s .txProcess).2)))
      ((calls (tr ++ (step lib map s .txProcess).2)).filter (·.queue = q)) := by
    rw [events_append, hev, accepted_append, hacc, append_nil, calls_append, hcalls, append_nil]
    exact h.carried q
  have hpast : pastReads (step lib map s .txProcess).1 = pastReads s := rfl
  obtain ⟨gs, hgs, hin⟩ := h.inOrder
  rcases hcases with ⟨hdev, hh, hs⟩ | ⟨q, f, d₁, hd, hact, h0, hl, hh, hs, hmem, hdev⟩
  · refine ⟨by rwa [events_append, hev], hcarried, ?_, ?_, gs, hpast.trans hgs, ?_⟩
    · simp only [step, hh, hdev, map_nil, append_nil]
      exact h.flow
    · intro f hf
      obtain ⟨q, hq⟩ := h.origin f (by simpa only [step, hh, append_nil] using hf)
      exact ⟨q, by rw [events_append, sent_append]; exact mem_append_left _ hq⟩
    · intro q
      rw [events_append, hev, sent_append, hs, append_nil]
      simp only [step, hh, append_nil]
      exact hin q
  · obtain ⟨call, hq, hc⟩ := h.carries (mem_append_right (sent q (events tr)) hmem)
    have hsent (q' : UsbTx.Class) : sent q' (events (tr ++ (step lib map s .txProcess).2)) =
        sent q' (events tr) ++ if q = q' then [f] else [] := by
      rw [events_append, hev, sent_append, hs]
    have hframes : (step lib map s .txProcess).1.wire.frames = s.wire.frames ++ [f] := by simp only [step, hh]
    refine ⟨by rwa [events_append, hev], hcarried, ?_, ?_, gs, hpast.trans hgs, ?_⟩
    · simp only [step, hh, hdev, map_cons, map_nil]
      exact (InPath.flow_begin (hd.symm ▸ h.flow) hact h0 hl).2.2.1
    · rw [hframes]
      intro g hg
      rcases mem_append.mp hg with hg | hg
      · obtain ⟨q', hq'⟩ := h.origin g hg
        exact ⟨q', by rw [hsent]; exact mem_append_left _ hq'⟩
      · rw [mem_singleton.mp hg]
        exact ⟨q, by rw [hsent, if_pos rfl]; simp⟩
    · intro q'
      have hclass : OfClass q' (InPath.content f) = decide (q = q') := by rw [hc.conveys.ofClass, hq]
      rw [hsent, hframes, ← append_assoc, filter_append]
      refine (hin q').append ?_
      by_cases he : q = q'
      · rw [filter_cons_of_pos (by simpa [hclass] using he), if_pos he]
        exact Sublist.refl _
      · rw [filter_cons_of_neg (by simpa [hclass] using he)]
        exact nil_sublist _

/-- **Every input** keeps what has been made of the calls. -/
theorem onItsWay_step (h : OnItsWay s tr) (lib : AttLib β) (map : UartMgr.Map) (i : Input) :
    OnItsWay (step lib map s i).1 (tr ++ (step lib map s i).2) := by
  by_cases hi : i = .txProcess
  · rw [hi]
    exact h.scheduled lib map
  have hcalls := step_calls lib map s hi
  by_cases hu : ∃ j, i = .usb j
  · obtain ⟨j, rfl⟩ := hu
    obtain ⟨h1, h2⟩ := h.interrupted j
    exact h.queued hcalls h1 h2
  · obtain ⟨h1, h2⟩ := step_same lib map s hi fun j hj => hu ⟨j, hj⟩
    exact h.queued hcalls (by rw [h1, h2]; exact h.flow) ⟨[], by simp [pastReads, h2], by simp [h2]⟩

end

variable {β : Type} (lib : AttLib β) (map : UartMgr.Map) (hw : UartHw.Hw) (taskId : UInt8) (b : β)

theorem onItsWay_start : OnItsWay (start lib map hw taskId b) [] where
  history := History.init
  carried _ := .nil
  flow := .idle (show armed UsbDev.init.regs.uep2TxCtrl = false from rfl) rfl rfl
  origin := by simp [start]
  inOrder := ⟨[], rfl, fun _ => nil_sublist _⟩

theorem onItsWay_run (is : List Input) :
    OnItsWay (Mealy.run (step lib map) (start lib map hw taskId b) is)
      (Mealy.outs (step lib map) (start lib map hw taskId b) is) := by
  have := Mealy.history_run (J := OnItsWay) (fun s tr i h => onItsWay_step h lib map i)
    (onItsWay_start lib map hw taskId b) is
  simpa using this

/-! ## On the host's side -/

/-- Class by class, the host reads messages of the calls, in their order. -/
theorem OnItsWay.conveyed {s : State β} {tr : List Output} (h : OnItsWay s tr) (q : UsbTx.Class) :
    SublistForall₂ Conveys ((allReads s).filter (OfClass q)) ((calls tr).filter (·.queue = q)) := by
  obtain ⟨fs, hsub, hreads⟩ := h.reads
  obtain ⟨gs, hpast, hin⟩ := h.inOrder
  have hsent : (gs ++ fs).filter (OfClass q ∘ InPath.content) <+ sent q (events tr) :=
    (((Sublist.refl gs).append hsub).filter _).trans (hin q)
  have hacc : (gs ++ fs).filter (OfClass q ∘ InPath.content) <+ accepted q (events tr) := by
    rw [h.history.conserved q]
    exact hsent.trans (sublist_append_left _ _)
  rw [allReads, hpast, hreads, ← map_append, filter_map, sublistForall₂_map_left_iff]
  exact Lossy.mono (fun _ _ _ hc => hc.conveys) (Lossy.of_sublist hacc (h.carried q))

/-! ## Responses -/

/-- `m` is a response to the message of a header. -/
def Responds (m : Message) (hdr : VpHdr) : Prop :=
  m.1.msgType = VpMsgType.rsp.code ∧ m.1.chType = hdr.chType ∧ m.1.chId = hdr.chId ∧ m.1.opcode = hdr.opcode ∧
    m.1.refSeq = hdr.seq

/-- The headers of the messages that get a response: all but UART data. -/
def answered (es : List UsbRx.Delivery) : List VpHdr :=
  (es.map fun e => e.2.hdr).filter fun hdr => ¬ Router.IsUartData hdr

theorem answered_append (es es' : List UsbRx.Delivery) : answered (es ++ es') = answered es ++ answered es' := by
  rw [answered, map_append, filter_append]
  rfl

/-- A call of `USBTX_QueueRsp` with the header of a message. -/
def IsResponseTo (call : Enqueue) (hdr : VpHdr) : Prop :=
  ∃ status rsp rspLen, call = .rsp hdr status rsp rspLen

theorem Conveys.responds {m : Message} {call : Enqueue} {hdr : VpHdr} (h : Conveys m call)
    (hc : IsResponseTo call hdr) : Responds m hdr := by
  obtain ⟨status, rsp, rspLen, rfl⟩ := hc
  obtain ⟨seq, hm, -⟩ := h
  rw [Responds, hm]
  exact ⟨rfl, rfl, rfl, rfl, rfl⟩

/-- The router makes one response call for a message, and none for UART data. -/
theorem dispatch_responds (P : Router.Platform UartHw.Hw β) (fw : Router.Fw UartHw.Hw β) (hdr : VpHdr)
    (payload : Ptr UInt8) (payloadLen : UInt16) :
    Forall₂ IsResponseTo ((Router.dispatch P fw hdr payload payloadLen).2.filter (·.queue = .rsp))
      ([hdr].filter fun hdr => ¬ Router.IsUartData hdr) := by
  by_cases hd : Router.IsUartData hdr
  · rw [(Router.dispatch_calls P fw hdr payload payloadLen).1 hd, filter_cons_of_neg (by simpa using hd)]
    exact .nil
  · obtain ⟨status, rsp, rspLen, hr⟩ := Router.dispatch_rspCalls P fw payload payloadLen hd
    rw [rspCalls] at hr
    rw [hr, filter_cons_of_pos (by simpa using hd)]
    exact .cons ⟨status, rsp, rspLen, rfl⟩ .nil

theorem filter_rsp_of_events {cs : List Enqueue} (h : ∀ call ∈ cs, call.queue = .evt) :
    cs.filter (·.queue = .rsp) = [] := by
  rw [filter_eq_nil_iff]
  intro call hc
  simp [h call hc]

/-- One input: a response call for each message it hands on that gets one, and no other. -/
theorem step_responds {s : State β} (h : BleHost.Unused s.fw.ble) (i : Input) :
    Forall₂ IsResponseTo ((calls (step lib map s i).2).filter (·.queue = .rsp))
      (answered (messages (step lib map s i).2)) := by
  obtain ⟨hgap, hgatt, hrssi⟩ := callback_events lib h
  -- a callback of the library queues events only
  have callback (s' : State β) {cs : List Enqueue} (hcs : ∀ call ∈ cs, call.queue = .evt) :
      Forall₂ IsResponseTo ((calls (s'.call cs).2).filter (·.queue = .rsp)) (answered (messages (s'.call cs).2)) := by
    rw [calls_call, filter_rsp_of_events hcs, messages_call]
    exact .nil
  cases i with
  | usb i => exact .nil
  | uart u statr datar =>
    simp only [step]
    cases irqSends map s.fw.uart u statr datar with
    | none => exact .nil
    | some r => exact .nil
  | rxTurn =>
    simp only [step]
    rcases rxTurn_cases lib map s with ⟨-, he⟩ | ⟨byte, rb, -, ⟨-, he⟩ | ⟨d, -, he⟩⟩
    · rw [he]
      exact .nil
    · rw [he]
      exact .nil
    · rw [he]
      change Forall₂ IsResponseTo ((calls (State.call _ _).2).filter (·.queue = .rsp)) (answered [(_, d)])
      rw [calls_call]
      exact dispatch_responds (platform lib map) s.fw d.hdr d.payload d.payloadLen
  | uartTurn p =>
    rcases uartTurn_cases lib map s p with he | ⟨chunk, rest, f, -, -, -, -, he⟩
    · rw [he]
      exact .nil
    · rw [he]
      exact .nil
  | txProcess => exact .nil
  | gap evt => exact callback _ (hgap evt)
  | gattMsg msg => exact callback _ (hgatt msg)
  | rssi connHandle rssi => exact callback s (hrssi connHandle rssi)

theorem calls_respond (is : List Input) :
    let tr := Mealy.outs (step lib map) (start lib map hw taskId b) is
    Forall₂ IsResponseTo ((calls tr).filter (·.queue = .rsp)) (answered (messages tr)) := by
  have hstep (s : State β) (tr : List Output) (i : Input)
      (h : BleHost.Unused s.fw.ble ∧
        Forall₂ IsResponseTo ((calls tr).filter (·.queue = .rsp)) (answered (messages tr))) :
      BleHost.Unused (step lib map s i).1.fw.ble ∧
        Forall₂ IsResponseTo ((calls (tr ++ (step lib map s i).2)).filter (·.queue = .rsp))
          (answered (messages (tr ++ (step lib map s i).2))) := by
    refine ⟨unused_step lib map h.1 i, ?_⟩
    rw [calls_append, messages_append, filter_append, answered_append]
    exact rel_append h.2 (step_responds lib map h.1 i)
  have hstart : BleHost.Unused (start lib map hw taskId b).fw.ble ∧
      Forall₂ IsResponseTo ((calls []).filter (·.queue = .rsp)) (answered (messages [])) :=
    ⟨BleHost.unused_init taskId b, .nil⟩
  exact (Mealy.history_run hstep hstart is).2

/-! ## Messages -/

/-- The messages handed on are those in the bytes taken from the raw ring. -/
structure Parsed {β : Type} (s : State β) (tr : List Output) : Prop where
  stands : UsbRx.Stands s.rx
  located : (messages tr).map UsbRx.Delivery.frame = located [] (tokens UsbRx.format s.rx.taken)

theorem Parsed.same {s s' : State β} {tr us : List Output} (h : Parsed s tr) (hf : s'.rx.ctx.fsm = s.rx.ctx.fsm)
    (ht : s'.rx.taken = s.rx.taken) (hm : messages us = []) : Parsed s' (tr ++ us) where
  stands := by
    rw [UsbRx.Stands, hf, ht]
    exact h.stands
  located := by rw [messages_append, hm, append_nil, ht, h.located]

theorem Parsed.taken {s s' : State β} {tr us : List Output} (h : Parsed s tr) (byte : UInt8)
    (hf : s'.rx.ctx.fsm = (UsbRx.processByte s.rx.ctx.fsm byte).1) (ht : s'.rx.taken = s.rx.taken ++ [byte])
    (hm : messages us = (UsbRx.processByte s.rx.ctx.fsm byte).2.toList.map fun d => (s.rx.taken ++ [byte], d)) :
    Parsed s' (tr ++ us) where
  stands := by
    rw [UsbRx.Stands, hf, ht]
    exact UsbRx.observe_sim UsbRx.deliver h.stands [byte] ([], [])
  located := by
    rw [messages_append, hm, ht]
    exact UsbRx.deliver_run h.stands h.located [byte]

theorem usbIrq_fsm (s : State β) (i : Irq) : (usbIrq s i).rx.ctx.fsm = s.rx.ctx.fsm := by
  have hfsm : (interrupt s.dev s.rx.ctx i).2.fsm = s.rx.ctx.fsm := by rw [interrupt_rx, UsbRx.pushBytes_fsm]
  cases i with
  | ep2In =>
    simp only [usbIrq]
    split
    · exact hfsm
    · rfl
  | busReset | setup | ep0In | ep0Out | ep1In | ep3Out => exact hfsm

theorem parsed_step {s : State β} {tr : List Output} (h : Parsed s tr) (i : Input) :
    Parsed (step lib map s i).1 (tr ++ (step lib map s i).2) := by
  cases i with
  | usb i => exact h.same (usbIrq_fsm s i) (usbIrq_same s i).2.2 rfl
  | uart u statr datar =>
    refine h.same rfl rfl ?_
    simp only [step]
    cases irqSends map s.fw.uart u statr datar with
    | none => rfl
    | some r => rfl
  | rxTurn =>
    simp only [step]
    rcases rxTurn_cases lib map s with ⟨-, he⟩ | ⟨byte, rb, -, ⟨hd, he⟩ | ⟨d, hd, he⟩⟩
    · rw [he]
      exact h.same rfl rfl rfl
    · rw [he]
      exact h.taken byte rfl rfl (by rw [hd]; rfl)
    · rw [he]
      exact h.taken byte rfl rfl (by rw [hd]; rfl)
  | uartTurn p =>
    rcases uartTurn_cases lib map s p with he | ⟨chunk, rest, f, -, -, -, -, he⟩
    · rw [he]
      exact h.same rfl rfl rfl
    · rw [he]
      exact h.same rfl rfl rfl
  | txProcess => exact h.same rfl rfl rfl
  | gap evt => exact h.same rfl rfl rfl
  | gattMsg msg => exact h.same rfl rfl rfl
  | rssi connHandle rssi => exact h.same rfl rfl rfl

theorem parsed_run (is : List Input) :
    Parsed (Mealy.run (step lib map) (start lib map hw taskId b) is)
      (Mealy.outs (step lib map) (start lib map hw taskId b) is) := by
  have h0 : Parsed (start lib map hw taskId b) [] :=
    ⟨UsbRx.stands_start, by rw [start, UsbRx.start, tokens_of_pending pending_nil]; rfl⟩
  have := Mealy.history_run (J := Parsed) (fun s tr i h => parsed_step lib map h i) h0 is
  simpa using this

theorem Parsed.reference {s : State β} {tr : List Output} (h : Parsed s tr) :
    (messages tr).map (fun e => (e.2.hdr, e.2.body)) = UsbRx.reference s.rx.taken := by
  rw [UsbRx.reference_eq_bodies, bodies_eq_located [], ← h.located, map_map]
  rfl

/-- A handler gets the bytes of the message it is called for, but where the payload
length is beyond a frame. -/
theorem Parsed.payload_eq_body {s : State β} {tr : List Output} (h : Parsed s tr) {e : UsbRx.Delivery}
    (he : e ∈ messages tr) (hl : e.2.hdr.payloadLen.toNat ≤ 488) :
    e.2.payload.cells e.2.payloadLen.toNat = e.2.body := by
  have hm : e.frame ∈ Framing.located [] (tokens UsbRx.format s.rx.taken) := h.located ▸ mem_map_of_mem he
  obtain ⟨-, -, hraw, hacc⟩ := of_mem_located hm
  have hraw : e.2.raw.length = max 24 e.2.hdr.totalLen.toNat := hraw
  exact UsbRx.payload_eq_body hraw ((UsbRx.accept_payloadLen hacc).mp hl) (UsbRx.accept_totalLen hacc).2

/-- One input: bytes come into the ring as delivered, or leave it to be taken. -/
theorem received_step_sublist (s : State β) (i : Input) :
    (step lib map s i).1.rx.received <+ s.rx.received ++ i.delivered := by
  have same {s' : State β} (hs : s'.rx = s.rx) : s'.rx.received <+ s.rx.received ++ i.delivered := by
    rw [hs]
    exact sublist_append_left _ _
  cases i with
  | usb i =>
    have hpush : ({ s.rx with ctx := (interrupt s.dev s.rx.ctx i).2 } : UsbRx.Run).received <+
        s.rx.received ++ i.bytes := by
      obtain ⟨l, hl, hpre, -⟩ := UsbRx.push_prefix s.rx.ctx i.bytes
      rw [interrupt_rx, UsbRx.Run.received, hl, ← append_assoc]
      exact (Sublist.refl _).append hpre.sublist
    cases i with
    | ep2In =>
      simp only [step, usbIrq]
      split
      · exact hpush
      · exact sublist_append_left _ _
    | busReset | setup | ep0In | ep0Out | ep1In | ep3Out => exact hpush
  | rxTurn =>
    simp only [step]
    rcases rxTurn_cases lib map s with ⟨-, he⟩ | ⟨byte, rb, hring, hcases⟩
    · rw [he]
      exact same rfl
    · have moved {s' : State β} (hs : s'.rx.received = s.rx.taken ++ [byte] ++ rb.toList) :
          s'.rx.received <+ s.rx.received ++ [] := by
        rw [hs, append_nil, UsbRx.Run.received, hring, append_assoc]
        exact Sublist.refl _
      rcases hcases with ⟨-, he⟩ | ⟨d, -, he⟩
      · rw [he]
        exact moved rfl
      · rw [he]
        exact moved rfl
  | uartTurn p =>
    rcases uartTurn_cases lib map s p with he | ⟨chunk, rest, f, -, -, -, -, he⟩
    · rw [he]
      exact same rfl
    · rw [he]
      exact same rfl
  | uart u statr datar | txProcess | gap evt | gattMsg msg | rssi connHandle rssi => exact same rfl

/-- **What the firmware takes in** is some of what the host delivered, in order. -/
theorem received_delivered (is : List Input) :
    (Mealy.run (step lib map) (start lib map hw taskId b) is).rx.received <+ is.flatMap Input.delivered := by
  have hrun := Mealy.lossy_run (fun s : State β => s.rx.received) (fun _ i => Input.delivered i) (fun _ _ => [])
    (I := fun _ => True) (s := start lib map hw taskId b) (fun _ _ _ => trivial)
    (fun s i _ => received_step_sublist lib map s i) trivial is
  have h0 : (start lib map hw taskId b).rx.received = [] := UsbRx.received_start
  rw [Mealy.readings_inputs Input.delivered, h0, nil_append] at hrun
  exact (sublist_append_right _ _).trans hrun

/-- **Request and response, end to end.** Over every run of the firmware, in
whatever order interrupts, turns and callbacks come and however often the bus is
reset: the responses the host reads in all sessions are, in order, responses to
messages in the bytes the firmware took, one at most for each and none for UART
data; and these bytes are some of those the host delivered, in order. -/
theorem responses_in_order (is : List Input) :
    let s := Mealy.run (step lib map) (start lib map hw taskId b) is
    SublistForall₂ Responds ((allReads s).filter (OfClass .rsp))
        (((UsbRx.reference s.rx.taken).map Prod.fst).filter fun hdr => ¬ Router.IsUartData hdr) ∧
      s.rx.taken <+ is.flatMap Input.delivered := by
  intro s
  have hparsed := parsed_run lib map hw taskId b is
  have hconv := (onItsWay_run lib map hw taskId b is).conveyed .rsp
  have hcalls := calls_respond lib map hw taskId b is
  constructor
  · rw [← hparsed.reference, map_map]
    exact Lossy.comp (fun _ _ _ hm hc => hm.responds hc) hconv
      (sublistForall₂_iff.mpr ⟨_, hcalls, Sublist.refl _⟩)
  · exact (sublist_append_left _ _).trans (received_delivered lib map hw taskId b is)

end UsbMux.Firmware
