/-
The task over whole runs: no event gets lost between the interrupts, the
kernel and the handler. Bytes received are never left without the event
that has them taken, the two timers go on until the kernel refuses one, and as
the task is run the bytes get taken.
-/
import UsbMux.AppTask
import UsbMux.HostReads
import UsbMux.Lib.Progress

namespace UsbMux.AppTask

open Bits UsbDev UsbTx

variable {κ β : Type} (T : Tmos κ) (lib : AttLib β) (map : UartMgr.Map) (hw : UartHw.Hw) (taskId : UInt8) (b : β)
  (k : κ)

/-- After the initialisation all events are set but that of messages. -/
theorem has_start {e : Event} (he : e ≠ .message) : Has (T.pending (start T lib map hw taskId b k).tmos) e.mask := by
  rw [start, T.setEvent_pending, has_or]
  refine .inr ?_
  cases e with
  | message => exact absurd rfl he
  | heartbeat | usbRx | usbTx | uart | poll => decide

theorem coming_none {s : State κ β} (h : s.call = none) : coming T s = T.pending s.tmos := by
  rw [coming, State.returned, h]
  exact UInt16.or_zero

/-! ## Bytes that were received -/

/-- Bytes that wait are going to be taken: the event of the receive loop is set
or will be, or the loop is in the call. -/
def Awake (s : State κ β) : Prop :=
  waiting s.fw = [] ∨ Has (coming T s) evtUsbRx ∨ .usbRx ∈ s.work

theorem awake_step {s : State κ β} (h : Awake T s) (i : Input) : Awake T (step T lib map s i).1 := by
  -- the call stays as it is, and events come
  have kept {s' : State κ β} (hw : waiting s'.fw = waiting s.fw) (hc : s'.call = s.call)
      (hm : Has (coming T s) evtUsbRx → Has (coming T s') evtUsbRx) : Awake T s' := by
    rw [Awake, hw, State.work, hc]
    exact h.imp_right (Or.imp_left hm)
  cases i with
  | message =>
    refine kept rfl rfl fun h => ?_
    rw [coming, has_or] at h ⊢
    exact h.imp_left fun h => by rw [step, T.setEvent_pending, has_or]; exact .inl h
  | expired events =>
    refine kept rfl rfl fun h => ?_
    rw [coming, has_or] at h ⊢
    exact h.imp_left fun h => by rw [step, T.expire_pending, has_or]; exact .inl h
  | firmware i =>
    simp only [step]
    split
    · next ha =>
      have hi : i ≠ .rxTurn := fun hi => by
        rw [hi] at ha
        cases ha
      obtain ⟨hcall, -, hcoming, -⟩ := drive_spec T lib map s i
      obtain ⟨l, hl, hlen⟩ := waiting_step lib map s.fw hi
      by_cases hd : i.delivered = []
      · rw [hd, List.length_nil, Nat.le_zero, List.length_eq_zero_iff] at hlen
        rw [hlen, List.append_nil] at hl
        exact kept hl hcall (hcoming _)
      · refine .inr (.inl ?_)
        rw [coming, has_or]
        exact .inl ((has_kicks T _ _ _).mpr (.inr ⟨_, kicks_delivered map s.fw hd _, by decide⟩))
    · exact h
  | run =>
    simp only [step]
    rcases turn_cases T lib map s with ⟨-, -, he⟩ | ⟨e, hc, hp, he⟩ | ⟨hc, hnone, he⟩ | ⟨r, hc, he⟩ |
      ⟨w, ws, r, hc, he⟩
    · rw [he]
      exact h
    · rw [he]
      rw [Awake, coming_none T hc, State.work, hc] at h
      -- another event is taken, or the loop is in the call
      rcases h with h | h | h
      · exact .inl h
      · refine .inr ?_
        rw [coming, has_or]
        by_cases hrx : e = .usbRx
        · rw [hrx]
          exact .inr (show Work.usbRx ∈ runIo by decide)
        · exact .inl (.inr ((has_xor_of_disjoint (Event.mask_disjoint (show e ≠ .usbRx from hrx)) _).mpr h))
      · cases h
    · rw [he]
      rw [Awake, coming_none T hc, State.work, hc] at h
      rcases h with h | h | h
      · exact .inl h
      · exact absurd h (hnone .usbRx)
      · cases h
    · rw [he]
      rw [Awake, coming, State.returned, State.work, hc] at h
      rcases h with h | h | h
      · exact .inl h
      · refine .inr (.inl ?_)
        rw [coming, has_or, T.answer_pending]
        exact .inl h
      · cases h
    · rw [he]
      rcases perform_spec T lib map s hc with ⟨hw, -, hs⟩ | ⟨hrx, hcall, hwait, hcoming, -⟩
      · rw [hs, Awake, State.work, (drive_spec T lib map s .rxTurn).1, hc, hw]
        exact .inr (.inr List.mem_cons_self)
      · rw [Awake, hwait, State.work, hcall]
        rw [Awake, State.work, hc] at h
        rcases h with h | h | h
        · exact .inl h
        · exact .inr (.inl (hcoming _ h))
        · rcases List.mem_cons.mp h with h | h
          · exact .inl (hrx h.symm)
          · exact .inr (.inr h)

theorem awake_start : Awake T (start T lib map hw taskId b k) := by
  have h : waiting (start T lib map hw taskId b k).fw = [] := UsbRx.toList_init
  exact .inl h

theorem awake_run (is : List Input) : Awake T (Mealy.run (step T lib map) (start T lib map hw taskId b k) is) :=
  Mealy.inv_run (I := Awake T) (fun _ i h => awake_step T lib map h i)
    (awake_start T lib map hw taskId b k) is

/-- **No byte is left behind.** Over every run of the task: the messages handed
on are those in the bytes taken, and these are all bytes received, or the
event of the receive loop is set, or handed back by the call under way, or the
loop is in that call. -/
theorem not_stranded (is : List Input) :
    let s := Mealy.run (step T lib map) (start T lib map hw taskId b k) is
    let tr := Mealy.outs (step T lib map) (start T lib map hw taskId b k) is
    (Firmware.messages tr).map (fun e => (e.2.hdr, e.2.body)) = UsbRx.reference s.fw.rx.taken ∧
      (s.fw.rx.taken = s.fw.rx.received ∨ Has (T.pending s.tmos) evtUsbRx ∨ Has s.returned evtUsbRx ∨
        .usbRx ∈ s.work) := by
  intro s tr
  obtain ⟨hrun, houts, -⟩ := firmware_run T lib map (start T lib map hw taskId b k) is
  have hparsed : Firmware.Parsed s.fw tr := by
    rw [show s.fw = _ from hrun, show tr = _ from houts]
    exact Firmware.parsed_run lib map hw taskId b _
  refine ⟨hparsed.reference, ?_⟩
  rcases awake_run T lib map hw taskId b k is with h | h | h
  · refine .inl ?_
    rw [UsbRx.Run.received, show s.fw.rx.ctx.rawRb.toList = [] from h, List.append_nil]
  · rw [coming, has_or] at h
    exact .inr (or_assoc.mp (.inl h))
  · exact .inr (.inr (.inr h))

/-! ## The timers -/

/-- An event that starts its own timer. -/
def Rearms (e : Event) : Prop := ∃ w ∈ e.work, Has w.starts e.mask

/-- The events that are set, will be when the call is over, or have a timer. -/
def expected (s : State κ β) : UInt16 := T.timers s.tmos ||| coming T s

/-- An event is expected, or a call under way will start its timer. -/
def Alive (e : Event) (s : State κ β) : Prop := Has (expected T s) e.mask ∨ ∃ w ∈ s.work, Has w.starts e.mask

theorem has_expected {s : State κ β} {m : UInt16} :
    Has (expected T s) m ↔ Has (T.timers s.tmos) m ∨ Has (T.pending s.tmos) m ∨ Has s.returned m := by
  rw [expected, coming, has_or, has_or]

/-- A step is the start of the event's timer, the kernel refuses it, and the
event is not expected otherwise. -/
def Loses (e : Event) (s : State κ β) (i : Input) : Prop :=
  i = .run ∧ ∃ w ws returned, s.call = some (w :: ws, returned) ∧ Has w.starts e.mask ∧
    granted T s.tmos w = false ∧ ¬ Has (expected T s) e.mask

theorem not_loses {T : Tmos κ} (hT : T.Grants) (e : Event) (s : State κ β) (i : Input) : ¬ Loses T e s i := by
  rintro ⟨-, w, -, -, -, -, hg, -⟩
  rw [granted_of_grants hT] at hg
  cases hg

theorem alive_step {e : Event} (he : Rearms e) {s : State κ β} (h : Alive T e s) {i : Input} (hl : ¬ Loses T e s i) :
    Alive T e (step T lib map s i).1 := by
  -- the call stays as it is, and what is expected is so still
  have kept {s' : State κ β} (hc : s'.call = s.call)
      (hm : Has (expected T s) e.mask → Has (expected T s') e.mask) : Alive T e s' := by
    rw [Alive, State.work, hc]
    exact h.imp_left hm
  have driven (i : Firmware.Input) : Alive T e (drive T lib map s i).1 := by
    obtain ⟨hcall, htimers, hcoming, -⟩ := drive_spec T lib map s i
    refine kept hcall fun h => ?_
    rw [expected, has_or] at h ⊢
    exact h.imp (fun h => htimers.symm ▸ h) (hcoming _)
  have idle (hc : s.call = none) (h : Alive T e s) : Has (T.timers s.tmos) e.mask ∨ Has (T.pending s.tmos) e.mask := by
    rw [Alive, expected, coming_none T hc, State.work, hc, has_or] at h
    rcases h with h | ⟨w, hw, -⟩
    · exact h
    · cases hw
  cases i with
  | message =>
    refine kept rfl fun h => ?_
    rw [has_expected] at h ⊢
    simp only [step, T.setEvent_timers, T.setEvent_pending, has_or]
    exact h.imp_right (Or.imp_left .inl)
  | expired events =>
    refine kept rfl fun h => ?_
    rw [has_expected] at h ⊢
    simp only [step, T.expire_timers, T.expire_pending, has_or]
    rcases h with h | h | h
    · exact (has_clear_or h events).imp_right fun h => .inl (.inr h)
    · exact .inr (.inl (.inl h))
    · exact .inr (.inr h)
  | firmware i =>
    simp only [step]
    split
    · exact driven i
    · exact h
  | run =>
    simp only [step]
    rcases turn_cases T lib map s with ⟨-, -, ht⟩ | ⟨e', hc, hp, ht⟩ | ⟨hc, hnone, ht⟩ | ⟨r, hc, ht⟩ |
      ⟨w, ws, r, hc, ht⟩
    · rw [ht]
      exact h
    · rw [ht, Alive, has_expected, T.call_timers]
      rcases idle hc h with h | h
      · exact .inl (.inl h)
      · -- another event is taken, or the call starts the timer
        by_cases hee : e' = e
        · exact .inr (hee ▸ he)
        · exact .inl (.inr (.inr ((has_xor_of_disjoint (Event.mask_disjoint hee) _).mpr h)))
    · rw [ht, Alive, has_expected, T.call_timers]
      rcases idle hc h with h | h
      · exact .inl (.inl h)
      · exact absurd h (hnone e)
    · rw [ht, Alive, has_expected, T.answer_timers, T.answer_pending, has_or]
      rw [Alive, has_expected, State.returned, State.work, hc] at h
      rcases h with h | ⟨w, hw, -⟩
      · exact .inl (h.imp_right .inl)
      · cases hw
    · rw [ht]
      rcases perform_spec T lib map s hc with ⟨-, -, hs⟩ | ⟨-, hcall, -, hcoming, -, htimers⟩
      · rw [hs]
        exact driven _
      · rw [Alive, State.work, hcall, expected, has_or, htimers]
        rw [Alive, State.work, hc] at h
        by_cases hx : Has (expected T s) e.mask
        · rw [expected, has_or] at hx
          refine .inl (hx.imp (fun hx => ?_) (hcoming _))
          split
          · exact has_or.mpr (.inl hx)
          · exact hx
        · obtain ⟨w', hw, hs⟩ := h.resolve_left hx
          rcases List.mem_cons.mp hw with rfl | hw
          · have hg : granted T s.tmos w' = true := by
              by_contra hg
              exact hl ⟨rfl, w', ws, r, hc, hs, Bool.not_eq_true _ ▸ hg, hx⟩
            rw [if_pos hg, has_or]
            exact .inl (.inl (.inr hs))
          · exact .inr ⟨w', hw, hs⟩

/-- What is left of the call stays so, gets less by the piece that is done, or
is the work of an event. -/
theorem work_step (s : State κ β) (i : Input) :
    (step T lib map s i).1.work = s.work ∨ (step T lib map s i).1.work = s.work.tail ∨
      ∃ e : Event, (step T lib map s i).1.work = e.work := by
  cases i with
  | message | expired events => exact .inl rfl
  | firmware i =>
    simp only [step]
    split
    · exact .inl rfl
    · exact .inl rfl
  | run =>
    simp only [step]
    rcases turn_cases T lib map s with ⟨-, -, he⟩ | ⟨e, -, -, he⟩ | ⟨hc, -, he⟩ | ⟨r, hc, he⟩ | ⟨w, ws, r, hc, he⟩
    · rw [he]
      exact .inl rfl
    · rw [he]
      exact .inr (.inr ⟨e, rfl⟩)
    · rw [he]
      refine .inl ?_
      rw [State.work, State.work, hc]
      rfl
    · rw [he]
      refine .inl ?_
      rw [State.work, State.work, hc]
      rfl
    · rw [he]
      rcases perform_spec T lib map s hc with ⟨-, -, hs⟩ | ⟨-, hcall, -⟩
      · rw [hs]
        exact .inl rfl
      · refine .inr (.inl ?_)
        rw [State.work, hcall, State.work, hc]
        rfl

/-- Only the last piece of a call starts a timer. -/
def StartsLast (s : State κ β) : Prop := ∀ w ∈ s.work.dropLast, w.starts = 0

theorem startsLast_step {s : State κ β} (h : StartsLast s) (i : Input) : StartsLast (step T lib map s i).1 := by
  have hwork (e : Event) : ∀ w ∈ e.work.dropLast, w.starts = 0 := by
    cases e <;> decide
  rw [StartsLast]
  rcases work_step T lib map s i with he | he | ⟨e, he⟩
  · rw [he]
    exact h
  · rw [he, ← List.tail_dropLast]
    exact fun w hw => h w (List.mem_of_mem_tail hw)
  · rw [he]
    exact hwork e

theorem not_alive_of_loses {e : Event} {s : State κ β} (hs : StartsLast s) {i : Input} (h : Loses T e s i) :
    ¬ Alive T e (step T lib map s i).1 := by
  obtain ⟨rfl, w, ws, r, hc, hw, hg, hx⟩ := h
  have hne : w.starts ≠ 0 := fun h0 => by
    rw [h0] at hw
    exact hw (UInt16.zero_and)
  have hnil : ws = [] := by
    by_contra hws
    refine hne (hs w ?_)
    rw [State.work, hc]
    change w ∈ (w :: ws).dropLast
    rw [List.dropLast_cons_of_ne_nil hws]
    exact List.mem_cons_self
  rw [has_expected, State.returned, hc] at hx
  cases w with
  | receiveMessages | heartbeat | usbRx | uart | usbTx => exact absurd rfl hne
  | startTask event time =>
    have hrefused : (T.startTask s.tmos event time).2 = false := hg
    have hstep : step T lib map s .run =
        ({ s with tmos := (T.startTask s.tmos event time).1, call := some (ws, r) }, []) := by
      simp only [step, turn, hc, perform]
    rw [hstep, Alive, has_expected, State.work, T.startTask_timers, T.startTask_pending, hrefused, hnil]
    rintro (h | ⟨w, hw, -⟩)
    · exact hx h
    · cases hw

theorem rearms_heartbeat : Rearms .heartbeat := ⟨_, List.mem_cons_of_mem _ List.mem_cons_self, by decide⟩

theorem rearms_poll : Rearms .poll := ⟨_, List.mem_append_right _ List.mem_cons_self, by decide⟩

/-- **The timers live as long as none is refused.** Over every run of the task,
polling and heartbeat go on in every state (the event is set, or has a timer, or
will be set or get one when the call under way is over) exactly if `tmos_start_task`
refuses no timer of an event that is not expected otherwise: the handler does not
look at the answer. -/
theorem timers_alive_iff (is : List Input) :
    let s₀ := start T lib map hw taskId b k
    (∀ js, js <+: is → Alive T .heartbeat (Mealy.run (step T lib map) s₀ js) ∧
        Alive T .poll (Mealy.run (step T lib map) s₀ js)) ↔
      Mealy.Along (step T lib map) (fun s i => ¬ Loses T .heartbeat s i ∧ ¬ Loses T .poll s i) s₀ is := by
  intro s₀
  have alive {e : Event} (hm : e ≠ .message) : Alive T e s₀ := by
    refine .inl ?_
    rw [has_expected]
    exact .inr (.inl (has_start T lib map hw taskId b k hm))
  refine Mealy.forall_prefix_iff (I := StartsLast)
    (S := fun s => Alive T .heartbeat s ∧ Alive T .poll s) (fun _ i h => startsLast_step T lib map h i) ?_
    (fun w hw => by cases hw) ⟨alive (by simp), alive (by simp)⟩ is
  rintro s i hs ⟨hh, hp⟩
  constructor
  · rintro ⟨hh', hp'⟩
    exact ⟨fun hl => not_alive_of_loses T lib map hs hl hh', fun hl => not_alive_of_loses T lib map hs hl hp'⟩
  · rintro ⟨hlh, hlp⟩
    exact ⟨alive_step T lib map rearms_heartbeat hh hlh, alive_step T lib map rearms_poll hp hlp⟩

/-! ## Running the task -/

/-- The turns of the kernel that the calls for messages and for the heartbeat take. -/
def cost (w : UInt16) : Nat := (if Has w sysEventMsg then 3 else 0) + if Has w evtHeartbeat then 4 else 0

theorem cost_le (w : UInt16) : cost w ≤ 7 := by
  unfold cost
  split <;> split <;> omega

theorem cost_mono {w w' : UInt16} (h : ∀ e : Event, e = .message ∨ e = .heartbeat → Has w' e.mask → Has w e.mask) :
    cost w' ≤ cost w := by
  have hm : Has w' sysEventMsg → Has w sysEventMsg := h .message (.inl rfl)
  have hb : Has w' evtHeartbeat → Has w evtHeartbeat := h .heartbeat (.inr rfl)
  unfold cost
  by_cases h1 : Has w sysEventMsg
  · by_cases h2 : Has w evtHeartbeat
    · simp only [h1, h2, if_true]
      split <;> split <;> omega
    · simp only [h1, h2, mt hb h2, if_true, if_false]
      split <;> omega
  · simp only [h1, mt hm h1, if_false]
    by_cases h2 : Has w evtHeartbeat
    · simp only [h2, if_true]
      split <;> omega
    · simp only [h2, mt hb h2, if_false, le_refl]

theorem cost_or (w x : UInt16) : cost (w ||| x) ≤ cost w + cost x := by
  simp only [cost, has_or]
  by_cases h1 : Has w sysEventMsg <;> by_cases h2 : Has w evtHeartbeat <;> by_cases h3 : Has x sysEventMsg <;>
    by_cases h4 : Has x evtHeartbeat <;> simp [h1, h2, h3, h4]

/-- An event taken for a message or the heartbeat is one call less. -/
theorem cost_xor {w : UInt16} {e : Event} (he : e = .message ∨ e = .heartbeat) (h : Has w e.mask) :
    cost (w ^^^ e.mask) + e.work.length + 2 = cost w := by
  obtain ⟨n, hn⟩ := e.mask_single
  have hself := not_has_xor_self hn h
  have hother {e' : Event} (hne : e ≠ e') : Has (w ^^^ e.mask) e'.mask ↔ Has w e'.mask :=
    has_xor_of_disjoint (Event.mask_disjoint hne) w
  rcases he with rfl | rfl
  · have h1 : ¬ Has (w ^^^ Event.message.mask) sysEventMsg := hself
    have h2 : Has w sysEventMsg := h
    have h3 : Has (w ^^^ Event.message.mask) evtHeartbeat ↔ Has w evtHeartbeat :=
      hother (show Event.message ≠ .heartbeat from nofun)
    simp only [cost, h1, h2, h3, if_true, if_false, Event.work, List.length_cons, List.length_nil]
    omega
  · have h1 : ¬ Has (w ^^^ Event.heartbeat.mask) evtHeartbeat := hself
    have h2 : Has w evtHeartbeat := h
    have h3 : Has (w ^^^ Event.heartbeat.mask) sysEventMsg ↔ Has w sysEventMsg :=
      hother (show Event.heartbeat ≠ .message from nofun)
    simp only [cost, h1, h2, h3, if_true, if_false, Event.work, List.length_cons, List.length_nil]

/-- The turns of the kernel it takes at most until no byte waits, if nothing
comes in between. -/
def effort (s : State κ β) : Nat :=
  match s.call with
  | none => cost (coming T s) + 1 + (waiting s.fw).length
  | some (.usbRx :: _, _) => (waiting s.fw).length
  | some (ws, _) => ws.length + 1 + cost (coming T s) + 1 + (waiting s.fw).length

theorem effort_le (s : State κ β) : effort T s ≤ s.work.length + 9 + (waiting s.fw).length := by
  have := cost_le (coming T s)
  rw [effort, State.work]
  split
  · next hc =>
    rw [hc]
    change _ ≤ 0 + 9 + _
    omega
  · omega
  · next ws _ _ hc =>
    rw [hc]
    change _ ≤ ws.length + 9 + _
    omega

theorem effort_some_le {s : State κ β} {ws : List Work} {returned : UInt16} (hc : s.call = some (ws, returned)) :
    effort T s ≤ ws.length + 1 + cost (coming T s) + 1 + (waiting s.fw).length := by
  rw [effort, hc]
  split
  · next h => cases h
  · omega
  · next h =>
    cases h
    exact le_refl _

theorem effort_cons {s : State κ β} {w : Work} {ws : List Work} {returned : UInt16}
    (hc : s.call = some (w :: ws, returned)) (hw : w ≠ .usbRx) :
    effort T s = ws.length + 2 + cost (coming T s) + 1 + (waiting s.fw).length := by
  rw [effort, hc]
  cases w with
  | usbRx => exact absurd rfl hw
  | receiveMessages | heartbeat | startTask | uart | usbTx => rfl

/-- A turn of the kernel. -/
def Input.spends : Input → Nat
  | .run => 1
  | _ => 0

/-- What an input adds to the work: a byte is a turn of the receive loop, a
message is a call of three turns, and timers can add calls for both. -/
def Input.earns : Input → Nat
  | .firmware i => i.delivered.length
  | .message => 3
  | .expired _ => 7
  | .run => 0

theorem effort_step {s : State κ β} (h : Awake T s) (hn : waiting s.fw ≠ []) (i : Input) :
    effort T (step T lib map s i).1 + i.spends ≤ effort T s + i.earns := by
  have hpos : 0 < (waiting s.fw).length := List.length_pos_iff.mpr hn
  -- the call stays as it is; bytes and events come in
  have kept (s' : State κ β) {m n : Nat} (hc : s'.call = s.call)
      (hw : (waiting s'.fw).length ≤ (waiting s.fw).length + m) (hm : cost (coming T s') ≤ cost (coming T s) + n) :
      effort T s' ≤ effort T s + (m + n) := by
    rw [effort, effort, hc]
    split <;> omega
  have came (k : κ) {x : UInt16} (hk : T.pending k = T.pending s.tmos ||| x) :
      cost (coming T { s with tmos := k }) ≤ cost (coming T s) + cost x := by
    have hx : coming T { s with tmos := k } = coming T s ||| x := by
      rw [coming, hk, coming, UInt16.or_assoc, UInt16.or_comm x, ← UInt16.or_assoc]
      rfl
    exact hx ▸ cost_or _ _
  cases i with
  | message =>
    have hcost : cost sysEventMsg = 3 := by decide
    exact kept { s with tmos := T.setEvent s.tmos sysEventMsg } (m := 0) (n := 3) rfl (Nat.le_refl _)
      (hcost ▸ came _ (T.setEvent_pending ..))
  | expired events =>
    have hcost := cost_le (T.timers s.tmos &&& events)
    exact kept { s with tmos := T.expire s.tmos events } (m := 0) (n := 7) rfl (Nat.le_refl _)
      ((came _ (T.expire_pending ..)).trans (Nat.add_le_add_left hcost _))
  | firmware i =>
    simp only [step]
    split
    · next ha =>
      have hi : i ≠ .rxTurn := fun hi => by
        rw [hi] at ha
        cases ha
      obtain ⟨hcall, -, -, hcoming⟩ := drive_spec T lib map s i
      obtain ⟨l, hl, hlen⟩ := waiting_step lib map s.fw hi
      have hw : (waiting (drive T lib map s i).1.fw).length ≤ (waiting s.fw).length + i.delivered.length := by
        rw [show waiting (drive T lib map s i).1.fw = waiting s.fw ++ l from hl, List.length_append]
        omega
      exact kept _ (n := 0) hcall hw (cost_mono hcoming)
    · exact Nat.le_add_right _ _
  | run =>
    have hcoming : s.call = none → Has (T.pending s.tmos) evtUsbRx := by
      intro hc
      rw [Awake, coming_none T hc, State.work, hc] at h
      rcases h with h | h | h
      · exact absurd h hn
      · exact h
      · cases h
    simp only [step, Input.spends, Input.earns]
    rcases turn_cases T lib map s with ⟨hc, hp, ht⟩ | ⟨e, hc, hp, ht⟩ | ⟨hc, hnone, ht⟩ | ⟨r, hc, ht⟩ |
      ⟨w, ws, r, hc, ht⟩
    · refine absurd (hcoming hc) ?_
      rw [hp]
      exact not_has_zero _
    · -- a message or the heartbeat is one call less; any other event has the loop run
      rw [ht]
      have hidle : effort T s = cost (T.pending s.tmos) + 1 + (waiting s.fw).length := by
        rw [effort, hc, coming_none T hc]
      have called (he : e = .message ∨ e = .heartbeat) :
          effort T { s with tmos := T.call s.tmos, call := some (e.work, T.pending s.tmos ^^^ e.mask) } + 1 ≤
            effort T s + 0 := by
        have hle := effort_some_le T
          (s := { s with tmos := T.call s.tmos, call := some (e.work, T.pending s.tmos ^^^ e.mask) }) rfl
        have hcost := cost_xor he hp
        rw [coming, T.call_pending, UInt16.zero_or] at hle
        change effort T _ ≤ e.work.length + 1 + cost (T.pending s.tmos ^^^ e.mask) + 1 + (waiting s.fw).length at hle
        omega
      cases e with
      | message => exact called (.inl rfl)
      | heartbeat => exact called (.inr rfl)
      | usbRx | usbTx | uart | poll =>
        change (waiting s.fw).length + 1 ≤ effort T s + 0
        omega
    · exact absurd (hcoming hc) (hnone .usbRx)
    · rw [ht]
      have hback : coming T { s with tmos := T.answer s.tmos r, call := none } = coming T s := by
        rw [coming_none T rfl, coming, State.returned, hc]
        exact T.answer_pending ..
      have hdone : effort T s = 0 + 1 + cost (coming T s) + 1 + (waiting s.fw).length := by rw [effort, hc]; rfl
      change cost (coming T { s with tmos := T.answer s.tmos r, call := none }) + 1 + (waiting s.fw).length + 1 ≤ _
      rw [hback]
      omega
    · rw [ht]
      rcases perform_spec T lib map s hc with ⟨hw, -, hs⟩ | ⟨hrx, hcall, hwait, -, hcoming, -⟩
      · rw [hs, effort, effort, (drive_spec T lib map s .rxTurn).1, hc, hw]
        have htail : waiting (drive T lib map s .rxTurn).1.fw = (waiting s.fw).tail := waiting_rxTurn lib map s.fw
        dsimp only
        rw [htail, List.length_tail]
        omega
      · have hle := effort_some_le T hcall
        have hcost := cost_mono hcoming
        rw [effort_cons T hc fun hw => hn (hrx hw)]
        rw [hwait] at hle
        omega

/-- **The bytes get taken.** From every reachable state of the task and under every
further inputs: some state on the way has no byte waiting, or the kernel has had no
more turns than the work in hand, the bytes that wait and came in, and the calls
for messages and timers account for. -/
theorem bytes_taken (before is : List Input) :
    let s := Mealy.run (step T lib map) (start T lib map hw taskId b k) before
    (∃ js, js <+: is ∧ waiting (Mealy.run (step T lib map) s js).fw = []) ∨
      (is.map Input.spends).sum ≤ s.work.length + 9 + (waiting s.fw).length + (is.map Input.earns).sum := by
  intro s
  have hs : Awake T s := awake_run T lib map hw taskId b k before
  have hle := effort_le T s
  refine (Mealy.budget_run (effort T) Input.spends Input.earns (I := Awake T) (G := fun s => waiting s.fw = [])
    (fun _ i h => awake_step T lib map h i) (fun _ i h hn => effort_step T lib map h hn i) hs is).imp_right fun h => ?_
  omega

end UsbMux.AppTask
