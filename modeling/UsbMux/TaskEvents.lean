/-
What the events of the task stand for. Each is raised when something comes up
that it is for, and served when the handler takes it: no event is lost and none
is made up, the first that is set is taken, and each call does all the work of
its event, in order, before the next.
-/
import UsbMux.Lib.Recent
import UsbMux.TaskRuns
import UsbMux.UartLines

namespace UsbMux.AppTask

open Bits UsbDev UsbTx

/-! ## What raises an event -/

section

variable {β : Type} (lib : AttLib β) (map : UartMgr.Map)

/-- A call puts a frame into a queue. -/
def queues : Firmware.Output → Bool
  | .called _ events => events.any fun
    | .queued .. => true
    | _ => false
  | _ => false

/-- A message is written to a port. -/
def writesIn (s : UartMgr.State UartHw.Hw) : Firmware.Output → Bool
  | .message e => writes s e.2.hdr
  | _ => false

/-- An input comes up with something that the event is for: a packet on EP3; a
frame that is queued, or the last packet of a frame that has gone out; a byte in
the ring of a port, or a message that is written to one. -/
def raises (fw : Firmware.State β) (i : Firmware.Input) : Event → Bool
  | .usbRx =>
    match i with
    | .usb (.ep3Out ..) => true
    | _ => false
  | .usbTx => (Firmware.step lib map fw i).2.any queues ||
    match i with
    | .usb .ep2In => armed fw.dev.regs.uep2TxCtrl && !decide (fw.dev.ep2TxOffset < fw.dev.ep2TxLen)
    | _ => false
  | .uart => (List.finRange UartMgr.uartPortCount).any (fun p =>
      decide ((fw.fw.uart.ports p).rxRb.toList.length <
        ((Firmware.step lib map fw i).1.fw.uart.ports p).rxRb.toList.length)) ||
    (Firmware.step lib map fw i).2.any (writesIn fw.fw.uart)
  | .message | .heartbeat | .poll => false

/-- A byte that an interrupt puts into a ring makes the ring of its port longer. -/
theorem takesByte_iff (s : UartMgr.State UartHw.Hw) (u : Fin 4) (statr datar : UInt16) :
    takesByte map s u statr datar = true ↔
      ∃ p, (s.ports p).rxRb.toList.length < ((UartHw.irqHandler map s u statr datar).ports p).rxRb.toList.length := by
  unfold takesByte UartHw.irqHandler UartHw.commonIrq
  cases UartHw.findLogicPortByPhy map (UInt8.ofNat (u + 1)) with
  | none => simp
  | some q =>
    dsimp only
    cases UartHw.getHwDesc map (UInt8.ofNat q) with
    | none => simp
    | some v =>
      have htx (p : Fin UartMgr.uartPortCount) :=
        (Firmware.txIrq_rings (UartHw.rxIrq s q v statr datar) q v statr p).1
      simp only [htx]
      simp only [UartHw.rxIrq]
      cases hit : UartHw.usartGetITStatus (s.hw.usart v) statr UartHw.usartItRxne with
      | false => simp
      | true =>
        simp only [if_true, UartMgr.irqRxByte, UartMgr.getPort_ofNat, Bool.true_and]
        by_cases ho : (s.ports q).state = .opened
        · simp only [ho, ne_eq, not_true_eq_false, if_false, beq_self_eq_true, Bool.true_and]
          have other {f : UartMgr.PortCtx → UartMgr.PortCtx} {p : Fin UartMgr.uartPortCount} (hp : p ≠ q) :
              ((s.modify q f).ports p).rxRb = (s.ports p).rxRb := by rw [UartMgr.modify_of_ne _ _ hp]
          cases hb : (s.ports q).rxRb.pushByte (UartHw.usartReceiveData datar).toUInt8 with
          | none =>
            refine iff_of_false (by simp) ?_
            rintro ⟨p, hlt⟩
            by_cases hp : p = q
            · rw [hp, UartMgr.modify_self] at hlt
              exact Nat.lt_irrefl _ hlt
            · rw [other hp] at hlt
              exact Nat.lt_irrefl _ hlt
          | some rb =>
            refine iff_of_true (by simp) ⟨q, ?_⟩
            rw [UartMgr.modify_self]
            change (s.ports q).rxRb.toList.length < rb.toList.length
            rw [(RingBuffer.pushByte_toList hb).1, List.length_append]
            exact Nat.lt_succ_self _
        · simp [ho]

theorem rxRb_length_le (fw : Firmware.State β) {i : Firmware.Input} (hi : ∀ u statr datar, i ≠ .uart u statr datar)
    (p : Fin UartMgr.uartPortCount) :
    ((Firmware.step lib map fw i).1.fw.uart.ports p).rxRb.toList.length ≤
      (fw.fw.uart.ports p).rxRb.toList.length := by
  cases i with
  | uart u statr datar => exact absurd rfl (hi u statr datar)
  | usb i => simp only [Firmware.step, (Firmware.usbIrq_same fw i).2.1, le_refl]
  | rxTurn =>
    simp only [Firmware.step]
    rcases Firmware.rxTurn_cases lib map fw with ⟨-, he⟩ | ⟨byte, rb, -, ⟨-, he⟩ | ⟨d, -, he⟩⟩
    · rw [he]
    · rw [he]
    · rw [he]
      exact (Firmware.dispatch_rings lib map fw.fw (fw.rx.taken, d) p).1.length_le
  | uartTurn q =>
    rcases Firmware.uartTurn_cases lib map fw q with he | ⟨chunk, rest, f, hring, -, hrest, -, he⟩
    · rw [he]
    · rw [he]
      change ((fw.fw.uart.modify q f).ports p).rxRb.toList.length ≤ _
      by_cases hp : p = q
      · rw [hp, UartMgr.modify_self, hrest, hring, List.length_append]
        exact Nat.le_add_left ..
      · rw [UartMgr.modify_of_ne _ _ hp]
  | txProcess | gap | gattMsg | rssi => exact Nat.le_refl _

/-- The event of a kick. -/
def Kick.raised : Kick → Event
  | .usbRx => .usbRx
  | .usbTx => .usbTx
  | .uart => .uart
  | .poll => .poll

theorem has_kick_event (c : Kick) (e : Event) : Has c.event e.mask ↔ c.raised = e := by
  cases c <;> cases e <;> decide

theorem mem_outputKicks (s : UartMgr.State UartHw.Hw) (o : Firmware.Output) :
    (Kick.usbRx ∉ outputKicks s o ∧ Kick.poll ∉ outputKicks s o) ∧
      (Kick.usbTx ∈ outputKicks s o ↔ queues o = true) ∧ (Kick.uart ∈ outputKicks s o ↔ writesIn s o = true) := by
  cases o with
  | scheduled | transmitted => simp [outputKicks, queues, writesIn]
  | message e => cases hw : writes s e.2.hdr <;> simp [outputKicks, queues, writesIn, hw]
  | called calls events =>
    have hmem (c : Kick) : c ∈ outputKicks s (.called calls events) ↔
        c = .usbTx ∧ queues (.called calls events) = true := by
      simp only [outputKicks, queues, List.mem_filterMap, List.any_eq_true]
      constructor
      · rintro ⟨event, he, hc⟩
        cases event with
        | queued q f => exact ⟨(Option.some.inj hc).symm, _, he, rfl⟩
        | refused | sent | hint => cases hc
      · rintro ⟨rfl, event, he, hc⟩
        cases event with
        | queued q f => exact ⟨_, he, rfl⟩
        | refused | sent | hint => cases hc
    simp [hmem, writesIn]

theorem mem_outputs (s : UartMgr.State UartHw.Hw) (outs : List Firmware.Output) :
    (Kick.usbRx ∉ outs.flatMap (outputKicks s) ∧ Kick.poll ∉ outs.flatMap (outputKicks s)) ∧
      (Kick.usbTx ∈ outs.flatMap (outputKicks s) ↔ outs.any queues = true) ∧
      (Kick.uart ∈ outs.flatMap (outputKicks s) ↔ outs.any (writesIn s) = true) := by
  simp only [List.mem_flatMap, not_exists, not_and, List.any_eq_true]
  refine ⟨⟨fun o _ => (mem_outputKicks s o).1.1, fun o _ => (mem_outputKicks s o).1.2⟩, ?_, ?_⟩
  · exact exists_congr fun o => and_congr_right fun _ => (mem_outputKicks s o).2.1
  · exact exists_congr fun o => and_congr_right fun _ => (mem_outputKicks s o).2.2

/-- **Kicks** are made exactly for the events that an input raises. -/
theorem kicks_raise (fw : Firmware.State β) (i : Firmware.Input) (e : Event) :
    (∃ c ∈ kicks map fw i (Firmware.step lib map fw i).2, Has c.event e.mask) ↔ raises lib map fw i e = true := by
  have hmem (c : Kick) (he : c.raised = e) :
      (∃ c ∈ kicks map fw i (Firmware.step lib map fw i).2, Has c.event e.mask) ↔
        c ∈ kicks map fw i (Firmware.step lib map fw i).2 := by
    have hone (c' : Kick) : Has c'.event e.mask ↔ c' = c := by
      rw [has_kick_event, ← he]
      cases c' <;> cases c <;> decide
    simp only [hone, exists_eq_right]
  obtain ⟨⟨hrx, hpoll⟩, htx, huart⟩ := mem_outputs fw.fw.uart (Firmware.step lib map fw i).2
  cases e with
  | message | heartbeat =>
    refine iff_of_false ?_ (by simp [raises])
    rintro ⟨c, -, hc⟩
    exact not_has_kick (by simp) c hc
  | poll =>
    rw [hmem .poll rfl]
    unfold kicks
    refine iff_of_false (fun h => ?_) (by simp [raises])
    refine (List.mem_append.mp h).elim (fun h => ?_) hpoll
    split at h
    · split at h <;> simp at h
    · split at h <;> simp at h
    · split at h <;> simp at h
    · cases h
  | usbRx =>
    rw [hmem .usbRx rfl]
    unfold kicks
    rw [List.mem_append, or_iff_left hrx]
    simp only [raises]
    split
    · split <;> simp
    · split <;> simp
    · split <;> simp
    · next h1 h2 h3 =>
      refine iff_of_false List.not_mem_nil ?_
      split
      · exact absurd rfl (h1 _ _)
      · simp
  | usbTx =>
    rw [hmem .usbTx rfl]
    unfold kicks
    rw [List.mem_append, htx]
    simp only [raises, Bool.or_eq_true]
    rw [or_comm]
    refine or_congr_right ?_
    split
    · split <;> simp
    · split <;> simp_all
    · split <;> simp
    · next h1 h2 h3 =>
      refine iff_of_false List.not_mem_nil ?_
      split
      · exact absurd rfl h2
      · simp
  | uart =>
    rw [hmem .uart rfl]
    unfold kicks
    rw [List.mem_append, huart]
    simp only [raises, Bool.or_eq_true]
    refine or_congr_left ?_
    simp only [List.any_eq_true, List.mem_finRange, true_and, decide_eq_true_eq]
    by_cases hi : ∃ u statr datar, i = .uart u statr datar
    · obtain ⟨u, statr, datar, rfl⟩ := hi
      refine Iff.trans ?_ (takesByte_iff map fw.fw.uart u statr datar)
      dsimp only
      split <;> simp_all
    · have hi : ∀ u statr datar, i ≠ .uart u statr datar := fun u statr datar he => hi ⟨u, statr, datar, he⟩
      refine iff_of_false (fun h => ?_) fun ⟨p, hlt⟩ => absurd hlt (Nat.not_lt.mpr (rxRb_length_le lib map fw hi p))
      split at h
      · split at h <;> simp at h
      · split at h <;> simp at h
      · exact hi _ _ _ rfl
      · cases h

end

/-! ## The account of a run -/

/-- Something comes up that the event is for, the handler takes the event, or a
piece of its work is done. -/
inductive Mark
  | raised (e : Event)
  | served (e : Event)
  | done (w : Work)
deriving DecidableEq

namespace Mark

def servedEvent : Mark → Option Event
  | .served e => some e
  | _ => none

def doneWork : Mark → Option Work
  | .done w => some w
  | _ => none

end Mark

/-- The turns of the firmware that a piece of work is. -/
def Work.turns : Work → List Firmware.Input
  | .uart p => [.uartTurn p]
  | .usbTx => [.txProcess]
  | .receiveMessages | .heartbeat | .startTask .. | .usbRx => []

/-- `UartMgr_Process` for a port or `USBTX_Process`. -/
def isTurn : Firmware.Input → Bool
  | .uartTurn _ | .txProcess => true
  | _ => false

section

variable {κ β : Type} (T : Tmos κ) (lib : AttLib β) (map : UartMgr.Map)

def raisedBy (fw : Firmware.State β) (i : Firmware.Input) : List Mark :=
  (Event.all.filter fun e => raises lib map fw i e).map .raised

/-- The events that are set, as raised. -/
def raisedIn (w : UInt16) : List Mark := (Event.among w).map .raised

/-- What happens to the events in a step. The receive loop is done when the ring is empty. -/
def marks (s : State κ β) : Input → List Mark
  | .message => [.raised .message]
  | .expired events => raisedIn (T.timers s.tmos &&& events)
  | .firmware i => if admits s.call.isSome i then raisedBy lib map s.fw i else []
  | .run =>
    match s.call with
    | none => (Event.first (T.pending s.tmos)).toList.map .served
    | some ([], _) => []
    | some (.usbRx :: _, _) => if waiting s.fw = [] then [.done .usbRx] else raisedBy lib map s.fw .rxTurn
    | some (w :: _, _) => w.turns.flatMap (raisedBy lib map s.fw) ++ [.done w]

/-- How the account goes on: an event is served, or events are raised and work is done. -/
inductive Accounted (s : State κ β) : List Mark → State κ β → Prop
  | served {s' : State κ β} (e : Event) (hw : s.work = []) (hw' : s'.work = e.work) (hc : Has (coming T s) e.mask)
      (hc' : coming T s' = coming T s ^^^ e.mask) : Accounted s [.served e] s'
  | went {s' : State κ β} {ms : List Mark} (hs : ∀ e, .served e ∉ ms)
      (hw : s.work = ms.filterMap Mark.doneWork ++ s'.work)
      (hc : ∀ e : Event, Has (coming T s') e.mask ↔ Has (coming T s) e.mask ∨ .raised e ∈ ms) : Accounted s ms s'

theorem mem_raisedIn {w : UInt16} {e : Event} : .raised e ∈ raisedIn w ↔ Has w e.mask := by
  rw [raisedIn, List.mem_map_of_injective fun _ _ h => Mark.raised.inj h, Event.mem_among]

theorem mem_raisedBy {fw : Firmware.State β} {i : Firmware.Input} {e : Event} :
    .raised e ∈ raisedBy lib map fw i ↔ raises lib map fw i e = true := by
  rw [raisedBy, List.mem_map_of_injective fun _ _ h => Mark.raised.inj h, List.mem_filter]
  exact and_iff_right e.mem_all

theorem raised_only (es : List Event) :
    (∀ e, .served e ∉ es.map Mark.raised) ∧ (es.map Mark.raised).filterMap Mark.doneWork = [] := by
  refine ⟨fun e h => ?_, ?_⟩
  · obtain ⟨e', -, he⟩ := List.mem_map.mp h
    cases he
  · rw [List.filterMap_map, List.filterMap_eq_nil_iff]
    exact fun e _ => rfl

/-- An input of the firmware sets the events it raises, and no other. -/
theorem has_drive (s : State κ β) (i : Firmware.Input) (e : Event) :
    Has (coming T (drive T lib map s i).1) e.mask ↔
      Has (coming T s) e.mask ∨ .raised e ∈ raisedBy lib map s.fw i := by
  rw [mem_raisedBy, ← kicks_raise, coming, has_or, coming, has_or]
  change Has (T.pending (List.foldl (kick T) s.tmos _)) e.mask ∨ Has s.returned e.mask ↔ _
  rw [has_kicks, or_right_comm]

/-- A piece of work is done, with what the firmware does in it. -/
theorem accounted_done {s s' : State κ β} {w : Work} {ws : List Work} {returned : UInt16} {ms : List Mark}
    (hc : s.call = some (w :: ws, returned)) (hc' : s'.call = some (ws, returned))
    (hs : (∀ e, .served e ∉ ms) ∧ ms.filterMap Mark.doneWork = [])
    (hm : ∀ e : Event, Has (coming T s') e.mask ↔ Has (coming T s) e.mask ∨ .raised e ∈ ms) :
    Accounted T s (ms ++ [.done w]) s' := by
  refine .went ?_ ?_ ?_
  · intro e h
    rcases List.mem_append.mp h with h | h
    · exact hs.1 e h
    · cases List.mem_singleton.mp h
  · rw [List.filterMap_append, hs.2, State.work, State.work, hc, hc']
    rfl
  · intro e
    rw [hm, List.mem_append]
    refine or_congr_right (or_iff_left fun h => ?_).symm
    cases List.mem_singleton.mp h

theorem accounted_step (s : State κ β) (i : Input) :
    Accounted T s (marks T lib map s i) (step T lib map s i).1 := by
  -- the call stays as it is
  have kept (s' : State κ β) (es : List Event) (hc : s'.call = s.call)
      (hm : ∀ e : Event, Has (T.pending s'.tmos) e.mask ↔ Has (T.pending s.tmos) e.mask ∨ e ∈ es) :
      Accounted T s (es.map .raised) s' := by
    obtain ⟨h1, h2⟩ := raised_only es
    refine .went h1 (by rw [h2, State.work, State.work, hc]; rfl) fun e => ?_
    rw [coming, has_or, hm, coming, has_or, State.returned, State.returned, hc,
      List.mem_map_of_injective fun _ _ h => Mark.raised.inj h, or_right_comm]
  have driven (i : Firmware.Input) : Accounted T s (raisedBy lib map s.fw i) (drive T lib map s i).1 :=
    .went (raised_only _).1 (by rw [raisedBy, (raised_only _).2]; rfl) (has_drive T lib map s i)
  cases i with
  | message =>
    refine kept (step T lib map s .message).1 [.message] rfl fun e => ?_
    have hmask : Has sysEventMsg e.mask ↔ e ∈ [Event.message] := by cases e <;> decide
    rw [step, T.setEvent_pending, has_or, hmask]
  | expired events =>
    refine kept (step T lib map s (.expired events)).1 (Event.among _) rfl fun e => ?_
    rw [step, T.expire_pending, has_or, Event.mem_among]
  | firmware i =>
    simp only [step, marks]
    split
    · exact driven i
    · exact .went (by simp) rfl (by simp)
  | run =>
    simp only [step, turn, marks]
    cases hc : s.call with
    | none =>
      dsimp only
      have hwork : s.work = [] := by rw [State.work, hc]; rfl
      cases hf : Event.first (T.pending s.tmos) with
      | some e =>
        have hhas := Event.has_of_first hf
        have hne : T.pending s.tmos ≠ 0 := fun h0 => not_has_zero e.mask (h0 ▸ hhas)
        rw [if_neg hne, processEvent_first, hf]
        refine .served e hwork rfl (by rwa [coming_none T hc]) ?_
        rw [coming_none T hc, coming, T.call_pending]
        exact UInt16.zero_or
      | none =>
        by_cases h0 : T.pending s.tmos = 0
        · rw [if_pos h0]
          exact .went (by simp) rfl (by simp)
        · rw [if_neg h0, processEvent_first, hf]
          refine .went (by simp) (by rw [hwork]; rfl) fun e => ?_
          rw [coming_none T hc, coming, T.call_pending]
          refine iff_of_false ?_ (by simpa using Event.not_has_of_first hf e)
          change ¬ Has (0 ||| 0) e.mask
          rw [UInt16.or_zero]
          exact not_has_zero _
    | some c =>
      obtain ⟨ws, returned⟩ := c
      cases ws with
      | nil =>
        refine .went (by simp) (by rw [State.work, hc]; rfl) fun e => ?_
        rw [coming_none T rfl, T.answer_pending, coming, State.returned, hc]
        simp
      | cons w ws =>
        have hcoming (k : κ) (hk : T.pending k = T.pending s.tmos) :
            coming T { s with tmos := k, call := some (ws, returned) } = coming T s := by
          simp only [coming, State.returned, hc, hk]
          rfl
        -- work that is an input of the firmware
        have worked (i : Firmware.Input) : Accounted T s (raisedBy lib map s.fw i ++ [.done w])
            (drive T lib map { s with call := some (ws, returned) } i).1 := by
          refine accounted_done T hc rfl (raised_only _) fun e => ?_
          rw [has_drive, hcoming s.tmos rfl]
        -- and work that leaves the firmware alone
        have quiet (k : κ) (hk : T.pending k = T.pending s.tmos) :
            Accounted T s [.done w] { s with tmos := k, call := some (ws, returned) } :=
          accounted_done T hc rfl (raised_only []) fun e => by rw [hcoming k hk]; simp
        cases w with
        | receiveMessages | heartbeat => exact quiet s.tmos rfl
        | startTask event time => exact quiet _ (T.startTask_pending ..)
        | usbRx =>
          simp only [perform]
          by_cases hr : waiting s.fw = []
          · rw [if_pos hr, if_pos ((readByte_isNone_iff s.fw).mpr hr)]
            exact quiet s.tmos rfl
          · rw [if_neg hr, if_neg (fun h => hr ((readByte_isNone_iff s.fw).mp h))]
            exact driven .rxTurn
        | uart p =>
          simp only [Work.turns, List.flatMap_cons, List.flatMap_nil, List.append_nil]
          exact worked (.uartTurn p)
        | usbTx =>
          simp only [Work.turns, List.flatMap_cons, List.flatMap_nil, List.append_nil]
          exact worked .txProcess

/-- What the account says of a state: an event is set, or will be when the call is
over, if it has been raised and not served since; and of the work of the events
served, what is not done is left. -/
structure Balanced (s : State κ β) (ms : List Mark) : Prop where
  owed : ∀ e : Event, Has (coming T s) e.mask ↔ Recent (fun m => m ≠ .served e) (.raised e) ms
  work : (ms.filterMap Mark.servedEvent).flatMap Event.work = ms.filterMap Mark.doneWork ++ s.work

/-- **Every step** goes on with the account. -/
theorem Balanced.step {s s' : State κ β} {hist ms : List Mark} (h : Balanced T s hist) (ha : Accounted T s ms s') :
    Balanced T s' (hist ++ ms) := by
  cases ha with
  | served e hw hw' hc hc' =>
    refine ⟨fun e' => ?_, ?_⟩
    · rw [hc', Recent.concat_iff]
      by_cases he : e = e'
      · subst he
        obtain ⟨k, hk⟩ := e.mask_single
        exact iff_of_false (not_has_xor_self hk hc) (by simp)
      · rw [has_xor_of_disjoint (Event.mask_disjoint he), h.owed]
        simp [he]
    · rw [List.filterMap_append, List.flatMap_append, h.work, hw, List.append_nil, List.filterMap_append, hw']
      simp [Mark.servedEvent, Mark.doneWork]
  | went hs hw hc =>
    refine ⟨fun e => ?_, ?_⟩
    · have hkeep : ∀ m ∈ ms, m ≠ .served e := fun m hm he => hs e (he ▸ hm)
      rw [hc, h.owed, Recent.append_iff hkeep, or_comm]
    · have hnone : ms.filterMap Mark.servedEvent = [] := by
        refine List.filterMap_eq_nil_iff.mpr fun m hm => ?_
        cases m with
        | served e => exact absurd hm (hs e)
        | raised | done => rfl
      rw [List.filterMap_append, hnone, List.append_nil, h.work, hw, List.filterMap_append, List.append_assoc]

theorem balanced_idle {s : State κ β} (hc : s.call = none) : Balanced T s (raisedIn (T.pending s.tmos)) := by
  obtain ⟨hserved, hdone⟩ := raised_only (Event.among (T.pending s.tmos))
  refine ⟨fun e => ?_, ?_⟩
  · have hkeep : ∀ m ∈ raisedIn (T.pending s.tmos), m ≠ .served e := fun m hm he => hserved e (he ▸ hm)
    rw [← List.nil_append (raisedIn _), Recent.append_iff hkeep, or_iff_left Recent.not_nil, mem_raisedIn,
      coming_none T hc]
  · rw [raisedIn, hdone, State.work, hc, List.filterMap_map]
    simp [Function.comp_def, Mark.servedEvent]

/-- The turns of the ports and of `USBTX_Process` are those of the work that is done. -/
theorem performed_turns (s : State κ β) (i : Input) :
    (performed s i).toList.filter isTurn = ((marks T lib map s i).filterMap Mark.doneWork).flatMap Work.turns := by
  have silent (es : List Event) : (es.map Mark.raised).filterMap Mark.doneWork = [] := (raised_only es).2
  cases i with
  | message => rfl
  | expired events =>
    rw [marks, raisedIn, silent]
    rfl
  | firmware i =>
    simp only [performed, marks]
    split
    · next ha =>
      rw [raisedBy, silent]
      cases i with
      | rxTurn | uartTurn p | txProcess => cases ha
      | usb i | uart u statr datar | gap evt | gattMsg msg | rssi connHandle rssi => rfl
    · rfl
  | run =>
    simp only [performed, marks]
    cases s.call with
    | none =>
      dsimp only
      cases Event.first (T.pending s.tmos) with
      | none => rfl
      | some e => rfl
    | some c =>
      obtain ⟨ws, returned⟩ := c
      cases ws with
      | nil => rfl
      | cons w ws =>
        cases w with
        | receiveMessages | heartbeat | startTask event time => rfl
        | usbRx =>
          dsimp only
          by_cases hr : waiting s.fw = []
          · rw [if_pos hr, if_pos ((readByte_isNone_iff s.fw).mpr hr)]
            rfl
          · rw [if_neg hr, if_neg (fun h => hr ((readByte_isNone_iff s.fw).mp h)), raisedBy, silent]
            rfl
        | uart p | usbTx =>
          simp only [Work.turns, List.flatMap_cons, List.flatMap_nil, List.append_nil, List.filterMap_append, raisedBy,
            silent, List.nil_append]
          rfl

theorem performedAll_turns (s : State κ β) (is : List Input) :
    (performedAll T lib map s is).filter isTurn =
      ((Mealy.readings (step T lib map) (marks T lib map) s is).filterMap Mark.doneWork).flatMap Work.turns := by
  induction is generalizing s with
  | nil => rfl
  | cons i is ih =>
    rw [Mealy.readings, List.filterMap_append, List.flatMap_append, ← performed_turns, ← ih]
    exact List.filter_append ..

variable (hw : UartHw.Hw) (taskId : UInt8) (b : β) (k : κ)

/-- **No event is lost, and none is made up.** Over every run of the task, with
interrupts and callbacks at any time: an event is set, or handed back by the call
under way, exactly if something it is for has come up since the handler last took
it. The handler takes the first that is set and does all the work of it, piece by
piece and before it takes another: what was done, with what is left of the call, is
the work of the events taken, in order. The firmware goes through a run of its own
machine in which the turns of the ports and of `USBTX_Process` are those of that work,
and which has every interrupt, in order. -/
theorem events_served (is : List Input) :
    let s₀ := start T lib map hw taskId b k
    let s := Mealy.run (step T lib map) s₀ is
    let ms := raisedIn (T.pending s₀.tmos) ++ Mealy.readings (step T lib map) (marks T lib map) s₀ is
    let js := performedAll T lib map s₀ is
    (∀ e : Event, Has (T.pending s.tmos ||| s.returned) e.mask ↔
        Recent (fun m => m ≠ .served e) (.raised e) ms) ∧
      (ms.filterMap Mark.servedEvent).flatMap Event.work = ms.filterMap Mark.doneWork ++ s.work ∧
      s.fw = Mealy.run (Firmware.step lib map) s₀.fw js ∧
      js.filter isTurn = (ms.filterMap Mark.doneWork).flatMap Work.turns ∧ js.filter isInterrupt = interrupts is := by
  intro s₀ s ms js
  have hbalanced : Balanced T s ms := Mealy.readings_run (J := Balanced T)
    (fun s _ i h => h.step T (accounted_step T lib map s i)) (balanced_idle T (s := s₀) rfl) is
  obtain ⟨hrun, -, hint⟩ := firmware_run T lib map s₀ is
  refine ⟨hbalanced.owed, hbalanced.work, hrun, ?_, hint⟩
  rw [List.filterMap_append, raisedIn, (raised_only _).2]
  exact performedAll_turns T lib map s₀ is

end

end UsbMux.AppTask
