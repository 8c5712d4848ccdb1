/-
The firmware from packet to response: EP3 packets fill the raw ring,
`USBRX_Process` empties it and hands every message to the router at once, the
handlers queue their responses without looking at the answer, and only
`USBTX_Process` takes responses out again, one a call.

How many slots of the response queue the messages of one `USBRX_Process`
fill is counted on their headers alone (`fill`), and a response is lost
exactly where a command finds all of them filled.
-/
import UsbMux.RxRuns
import UsbMux.DevFacts
import UsbMux.Router

namespace UsbMux.System

open UsbDev UsbTx UsbRx

/-! ## The machine -/

/-- Receive path, managers, scheduler and driver. -/
structure State (η β : Type) where
  rx : UsbRx.Ctx
  fw : Router.Fw η β
  tx : UsbTx.Ctx
  dev : UsbDev.Ctx

/-- An interrupt of the controller, `USBRX_Process`, or `USBTX_Process`. -/
inductive Input
  | irq (i : Irq)
  | rxProcess
  | txProcess
deriving DecidableEq

/-- A message with what its handler did to the queues, or what `USBTX_Process` did. -/
inductive Output
  | handled (hdr : VpHdr) (events : List Event)
  | scheduled (events : List Event)
deriving DecidableEq

def Output.events : Output → List Event
  | .handled _ events | .scheduled events => events

/-- What a handler changes. -/
structure Handlers (η β : Type) where
  fw : Router.Fw η β
  tx : UsbTx.Ctx

variable {η β : Type} (P : Router.Platform η β)

/-- `VendorRouter_Dispatch` with the enqueue calls it makes. -/
def handle : Mealy.Step (Handlers η β) Dispatch Output := fun h d =>
  let r := Router.dispatch P h.fw d.hdr d.payload d.payloadLen
  let e := enqueueAll h.tx r.2
  (⟨r.1, e.1⟩, [.handled d.hdr e.2])

/-- A turn of the receive loop that hands its call, if any, to `g`. -/
def report {σ ο : Type} (g : Mealy.Step σ Dispatch ο) (s : σ × List ο) (_ : UInt8) : Option Dispatch → σ × List ο
  | none => s
  | some d => ((g s.1 d).1, s.2 ++ (g s.1 d).2)

/-- After the initialisation of all modules. -/
def start (hw : η) (taskId : UInt8) (lib : β) : State η β :=
  ⟨UsbRx.init, Router.init P hw taskId lib, UsbTx.init, UsbDev.init⟩

/-- One input. -/
def step : Mealy.Step (State η β) Input Output
  | s, .irq i =>
    let r := interrupt s.dev s.rx i
    ({ s with dev := r.1, rx := r.2 }, [])
  | s, .rxProcess =>
    let r := UsbRx.process (report (handle P)) s.rx (⟨s.fw, s.tx⟩, [])
    ({ s with rx := r.1, fw := r.2.1.fw, tx := r.2.1.tx }, r.2.2)
  | s, .txProcess =>
    let r := UsbTx.process device s.tx s.dev
    ({ s with tx := r.1, dev := r.2.1 }, [.scheduled r.2.2])

/-! ## One run of the receive loop -/

/-- The calls of the waiting bytes. -/
def waiting (c : UsbRx.Ctx) : List Dispatch := Mealy.outs byteStep c.fsm c.rawRb.toList

theorem observe_report {σ ο : Type} (g : Mealy.Step σ Dispatch ο) (f : Fsm) (bs : List UInt8) (s : σ)
    (tr : List ο) : observe (report g) f bs (s, tr) = (Mealy.run byteStep f bs,
      Mealy.run g s (Mealy.outs byteStep f bs), tr ++ Mealy.outs g s (Mealy.outs byteStep f bs)) := by
  induction bs generalizing f s tr with
  | nil => simp [observe]
  | cons b bs ih =>
    rw [observe, Mealy.run_cons, Mealy.outs_cons, Mealy.run_append, Mealy.outs_append]
    cases hd : (processByte f b).2 with
    | none => rw [report, ih]; simp [byteStep, hd]
    | some d => rw [report, ih]; simp [byteStep, hd]

theorem rxProcess_eq (s : State η β) :
    let r := step P s .rxProcess
    r.1.rx.fsm = Mealy.run byteStep s.rx.fsm s.rx.rawRb.toList ∧
      r.1.tx = (Mealy.run (handle P) ⟨s.fw, s.tx⟩ (waiting s.rx)).tx ∧
      r.2 = Mealy.outs (handle P) ⟨s.fw, s.tx⟩ (waiting s.rx) := by
  obtain ⟨h1, -, -⟩ := process_eq (report (handle P)) s.rx (⟨s.fw, s.tx⟩, [])
  rw [observe_report, List.nil_append, Prod.ext_iff, Prod.ext_iff] at h1
  obtain ⟨hf, hs, ho⟩ := h1
  exact ⟨hf, congrArg Handlers.tx hs, ho⟩

/-- Their headers are those of the messages in what the parser holds and the ring. -/
theorem waiting_hdr {c : UsbRx.Ctx} {r : List UInt8} (h : Sim c.fsm r) :
    (waiting c).map Dispatch.hdr = (reference (held c.fsm ++ c.rawRb.toList)).map Prod.fst := by
  have hrest : Framing.rest format r = r := Framing.rest_of_pending h.pending
  have hnone : ([] : List Delivery).map Delivery.frame = Framing.located [] (Framing.tokens format r) := by
    rw [Framing.tokens_of_pending h.pending]; rfl
  have hrun := deliver_run (show Sim c.fsm (Framing.rest format r) by rwa [hrest]) hnone c.rawRb.toList
  rw [h.held, reference_eq_bodies, Framing.bodies_eq_located [], ← hrun, waiting, ← observe_calls _ _ r]
  simp only [List.map_map]
  rfl

/-- The machine stands for the bytes it holds. -/
def Standing (s : State η β) : Prop := ∃ r, Sim s.rx.fsm r

theorem standing_step (s : State η β) (i : Input) (h : Standing s) : Standing (step P s i).1 := by
  obtain ⟨r, h⟩ := h
  cases i with
  | irq i =>
    refine ⟨r, ?_⟩
    simpa only [step, interrupt_rx, pushBytes_fsm] using h
  | rxProcess =>
    rw [Standing, (rxProcess_eq P s).1]
    exact Mealy.inv_run (I := fun f => ∃ r, Sim f r) (fun f b ⟨_, hf⟩ => ⟨_, (processByte_sim hf b).1⟩) ⟨r, h⟩ _
  | txProcess => exact ⟨r, h⟩

/-! ## Slots of the response queue -/

/-- A well-formed command. -/
def IsCommand (hdr : VpHdr) : Prop := hdr.msgType = VpMsgType.cmd.code ∧ hdr.payloadLen.toNat ≤ 488

instance (hdr : VpHdr) : Decidable (IsCommand hdr) := inferInstanceAs (Decidable (_ ∧ _))

/-- A message whose response fits a frame. -/
def Takes (hdr : VpHdr) : Prop := ¬ Router.IsUartData hdr ∧ (Router.Echoes hdr → hdr.payloadLen.toNat ≤ 488)

instance (hdr : VpHdr) : Decidable (Takes hdr) := inferInstanceAs (Decidable (_ ∧ _))

theorem IsCommand.takes {hdr : VpHdr} (h : IsCommand hdr) : Takes hdr :=
  ⟨Router.not_isUartData_of_cmd h.1, fun _ => h.2⟩

/-- The filled slots after one more message. -/
def fill : Mealy.Step Nat VpHdr Empty := fun n hdr => (if Takes hdr ∧ n < queueDepth then n + 1 else n, [])

/-- A command finds a slot. -/
def Slot (n : Nat) (hdr : VpHdr) : Prop := IsCommand hdr → n < queueDepth

instance (n : Nat) (hdr : VpHdr) : Decidable (Slot n hdr) := inferInstanceAs (Decidable (_ → _))

/-- Before a `USBRX_Process`: with the responses queued, and those of the
messages before it, every command among the messages that wait finds a slot. -/
def HasRoom (s : State η β) : Input → Prop
  | .rxProcess => Mealy.Along fill Slot s.tx.rspQ.toList.length
      ((reference (held s.rx.fsm ++ s.rx.rawRb.toList)).map Prod.fst)
  | _ => True

/-- One message: its response is accepted, and fills a slot, exactly when it
fits a frame and there is a free slot. -/
theorem handle_spec (h : Handlers η β) (d : Dispatch) :
    ∃ tr, (handle P h d).2 = [.handled d.hdr tr] ∧
      (Responded d.hdr tr ↔ Takes d.hdr ∧ h.tx.rspQ.toList.length < queueDepth) ∧
      (handle P h d).1.tx.rspQ.toList.length = (fill h.tx.rspQ.toList.length d.hdr).1 := by
  obtain ⟨hdata, hans⟩ := Router.dispatch_calls P h.fw d.hdr d.payload d.payloadLen
  refine ⟨_, rfl, ?_⟩
  simp only [handle, fill]
  by_cases hd : Router.IsUartData d.hdr
  · rw [hdata hd]
    simp [enqueueAll, Takes, hd, Responded, responses]
  have hout : Outcome d.hdr h.tx (enqueueAll h.tx (Router.dispatch P h.fw d.hdr d.payload d.payloadLen).2)
      (Takes d.hdr ∧ h.tx.rspQ.toList.length < queueDepth) := by
    by_cases he : Router.Echoes d.hdr
    · rw [Router.dispatch_echo P h.fw d.payload d.payloadLen he]
      simpa only [Takes, Dispatch.payloadLen, hd, he, not_false_eq_true, true_and, forall_true_left] using
        enqueue_rsp h.tx d.hdr .ok d.payload d.payloadLen
    · simpa only [Takes, hd, he, not_false_eq_true, true_and, false_implies] using (hans hd he).outcome h.tx
  exact ⟨hout.responded_iff, hout.length⟩

/-! ## Runs -/

/-- A command has its response in the queue. -/
def Answered : Output → Prop
  | .handled hdr tr => IsCommand hdr → Responded hdr tr
  | .scheduled _ => True

theorem handle_answered (h : Handlers η β) (d : Dispatch) :
    (∀ o ∈ (handle P h d).2, Answered o) ↔ Slot h.tx.rspQ.toList.length d.hdr := by
  obtain ⟨tr, ho, hr, -⟩ := handle_spec P h d
  rw [ho, List.forall_mem_singleton]
  exact forall_congr' fun hc => hr.trans (and_iff_right hc.takes)

/-- One input: all commands it handles are answered exactly when there is room. -/
theorem step_answered (s : State η β) (hs : Standing s) (i : Input) :
    (∀ o ∈ (step P s i).2, Answered o) ↔ HasRoom s i := by
  cases i with
  | irq i => simp [step, HasRoom]
  | txProcess => simp [step, HasRoom, Answered]
  | rxProcess =>
    obtain ⟨r, hr⟩ := hs
    rw [(rxProcess_eq P s).2.2, HasRoom, ← waiting_hdr hr]
    rw [Mealy.forall_outs_iff (I := fun _ => True) (fun _ _ _ => trivial) (fun h d _ => handle_answered P h d)
      trivial]
    refine Mealy.sim_along (R := fun (h : Handlers η β) (n : Nat) => h.tx.rspQ.toList.length = n)
      (s := ⟨s.fw, s.tx⟩) (g := Dispatch.hdr) ?_ ?_ rfl _
    · rintro h _ d rfl
      exact (handle_spec P h d).choose_spec.2.2
    · rintro h _ d rfl
      exact Iff.rfl

/-- All that happened to the queues. -/
def events (tr : List Output) : List Event := tr.flatMap Output.events

theorem history_handle (h : Handlers η β) (d : Dispatch) {tr : List Event} (hh : History h.tx tr) :
    History (handle P h d).1.tx (tr ++ events (handle P h d).2) := by
  simpa [handle, events, Output.events] using hh.enqueueAll _

theorem history_step (s : State η β) (i : Input) {tr : List Event} (h : History s.tx tr) :
    History (step P s i).1.tx (tr ++ events (step P s i).2) := by
  cases i with
  | irq i => simpa [step, events] using h
  | txProcess => simpa [step, events, Output.events] using h.process device s.dev
  | rxProcess =>
    obtain ⟨-, h2, h3⟩ := rxProcess_eq P s
    rw [h2, h3]
    have h0 : History (Handlers.mk s.fw s.tx).tx (tr ++ events []) := by simpa [events] using h
    have hrun := Mealy.history_run (J := fun (h : Handlers η β) us => History h.tx (tr ++ events us))
      (fun h us d hh => by simpa [events] using history_handle P h d hh) h0 (waiting s.rx)
    simpa using hrun

/-- What a run has to give: every well-formed command that was handled has
one response, which was queued with the command's sequence number as its
reference and is sent or still queued. -/
def AllAnswered (s : State η β) (tr : List Output) : Prop :=
  ∀ hdr us, .handled hdr us ∈ tr → IsCommand hdr →
    ∃ f, responses us = [.queued .rsp f] ∧ RespondsTo hdr f ∧ f ∈ sent .rsp (events tr) ++ s.tx.rspQ.toList

/-- **Every command its response.** Over every run from initialisation, for
every platform: the responses accepted are those sent and, after them, those
in the queue; and all commands are answered if and only if no
`USBRX_Process` of the run comes to a command when four responses, queued
before or for messages it handled before, fill the queue. -/
theorem commands_answered_iff (hw : η) (taskId : UInt8) (lib : β) (is : List Input) :
    let s := Mealy.run (step P) (start P hw taskId lib) is
    let tr := Mealy.outs (step P) (start P hw taskId lib) is
    accepted .rsp (events tr) = sent .rsp (events tr) ++ s.tx.rspQ.toList ∧
      (AllAnswered s tr ↔ Mealy.Along (step P) HasRoom (start P hw taskId lib) is) := by
  intro s tr
  have hhist : History s.tx (events tr) := by
    have h0 : History (start P hw taskId lib).tx (events []) := History.init
    have hrun := Mealy.history_run (J := fun (s : State η β) us => History s.tx (events us))
      (fun s us i h => by simpa [events] using history_step P s i h) h0 is
    simpa using hrun
  have hcons : accepted .rsp (events tr) = sent .rsp (events tr) ++ s.tx.rspQ.toList := hhist.conserved .rsp
  refine ⟨hcons, ?_⟩
  rw [← Mealy.forall_outs_iff (I := Standing) (fun s i h => standing_step P s i h)
    (fun s i h => step_answered P s h i) ⟨_, .idle rfl⟩ is]
  constructor
  · intro h o ho
    cases o with
    | scheduled => trivial
    | handled hdr us =>
      intro hc
      obtain ⟨f, h1, h2, -⟩ := h hdr us ho hc
      exact ⟨f, h1, h2⟩
  · intro h hdr us ho hc
    obtain ⟨f, h1, h2⟩ := h _ ho hc
    refine ⟨f, h1, h2, hcons ▸ mem_accepted ?_⟩
    have hq : .queued .rsp f ∈ responses us := by rw [h1]; exact List.mem_singleton_self _
    exact List.mem_flatMap.mpr ⟨_, ho, (List.mem_filter.mp hq).1⟩

/-- A platform with nothing attached. -/
def idlePlatform : Router.Platform Unit Unit where
  drv := ⟨fun hw _ _ _ _ _ => (hw, .ok), fun hw _ => hw, fun hw _ => hw⟩
  lib := ⟨fun lib _ => (lib, 0), fun lib _ _ _ => (lib, none), fun lib _ _ => lib, fun lib _ _ => lib⟩
  map := UartMgr.uartMapCfg

/-- A `GET_CAPS` command. -/
def getCaps (seq : UInt16) : List UInt8 :=
  let hdr := VP.encodeHeader (requestHdr seq VpChannelType.sys.code 0 .cmd Router.VpSysOpcode.getCaps.code 0 .ok 0)
  hdr.bytes hdr.headerCrc16

/-- A command whose response was refused. -/
def Output.unanswered : Output → Bool
  | .handled hdr us => decide (IsCommand hdr ∧ responses us = [.refused .rsp])
  | .scheduled _ => false

/-- Five commands of 24 bytes in two packets, on a device that is configured:
the fifth response is refused. -/
theorem fifth_command_unanswered :
    ¬ ∀ is : List Input, AllAnswered (Mealy.run (step idlePlatform) (start idlePlatform () 0 ()) is)
      (Mealy.outs (step idlePlatform) (start idlePlatform () 0 ()) is) := by
  intro h
  let cmds := getCaps 1 ++ getCaps 2 ++ getCaps 3 ++ getCaps 4 ++ getCaps 5
  let is : List Input := [.irq .busReset, .irq (.setup [0x00, 0x09, 0x01, 0x00, 0x00, 0x00, 0x00, 0x00]),
    .irq .ep0In, .irq (.ep3Out ⟨cmds.take 64, by simp⟩ false),
    .irq (.ep3Out ⟨cmds.drop 64, by decide +kernel⟩ true), .rxProcess]
  have hlost : (Mealy.outs (step idlePlatform) (start idlePlatform () 0 ()) is).any Output.unanswered := by
    decide +kernel
  obtain ⟨o, ho, hu⟩ := List.any_eq_true.mp hlost
  cases o with
  | scheduled => cases hu
  | handled hdr us =>
    obtain ⟨hc, hr⟩ := of_decide_eq_true hu
    obtain ⟨f, hf, -⟩ := h is hdr us ho hc
    rw [hr] at hf
    cases hf

end UsbMux.System
