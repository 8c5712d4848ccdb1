/-
The firmware comes to rest. Whatever comes in, as long as the task is run, its
poll timer expires and the host takes packets often enough, there is a time at
which every byte received has been handed on, every byte of a line has been
offered, the queues are empty and the host has acknowledged every packet.

What has to be shown is that a loop that finds something is run: its event is
set, or the poll event will be, which never gets lost (`Alive`), and then a
bounded number of turns of the kernel is between the loop and the next call.
-/
import UsbMux.Lib.Progress
import UsbMux.TaskLoad

namespace UsbMux.AppTask

open Bits UsbDev UsbTx

/-! ## The task between steps -/

section

variable {κ β : Type} (T : Tmos κ) (lib : AttLib β) (map : UartMgr.Map)

def Input.Steady : Input → Prop
  | .firmware i => AppTask.Steady i
  | .message | .expired _ | .run => True

/-- A message or the heartbeat takes a round for itself. -/
def Input.charge : Input → Nat
  | .firmware i => AppTask.charge i
  | .message => 1
  | .expired events => if Has events sysEventMsg ∨ Has events evtHeartbeat then 1 else 0
  | .run => 0

/-- What holds of the task and the firmware while the device is configured, if
the kernel refuses no timer. -/
structure Running (h0 : UartHw.Hw) (s : State κ β) : Prop where
  grants : T.Grants
  ready : Ready map h0 s.fw
  polls : Alive T .poll s
  short : s.work.length ≤ 7

theorem Event.length_work_le (e : Event) : e.work.length ≤ 7 := by
  cases e <;> decide

theorem short_step {s : State κ β} (h : s.work.length ≤ 7) (i : Input) :
    (step T lib map s i).1.work.length ≤ 7 := by
  rcases work_step T lib map s i with he | he | ⟨e, he⟩
  · rw [he]
    exact h
  · rw [he, List.length_tail]
    exact (Nat.sub_le ..).trans h
  · rw [he]
    exact e.length_work_le

/-- What an input of the task is for the firmware comes at the same charge. -/
theorem performed_steady {s : State κ β} {i : Input} (hi : i.Steady) {j : Firmware.Input}
    (hj : performed s i = some j) : Steady j ∧ charge j = i.charge := by
  cases i with
  | message | expired events => cases hj
  | firmware i =>
    simp only [performed] at hj
    split at hj
    · obtain rfl := Option.some.inj hj
      exact ⟨hi, rfl⟩
    · cases hj
  | run =>
    simp only [performed] at hj
    split at hj
    · split at hj
      · cases hj
      · obtain rfl := Option.some.inj hj
        exact ⟨trivial, rfl⟩
    · obtain rfl := Option.some.inj hj
      exact ⟨trivial, rfl⟩
    · obtain rfl := Option.some.inj hj
      exact ⟨trivial, rfl⟩
    · cases hj

/-- **Every input** of the task, for the firmware. -/
theorem within_step {h0 : UartHw.Hw} {s : State κ β} (h : Running T map h0 s) {i : Input} (hi : i.Steady) :
    Running T map h0 (step T lib map s i).1 ∧ Within i.charge (held s.fw) (held (step T lib map s i).1.fw) := by
  have hpolls := alive_step T lib map rearms_poll h.polls (not_loses h.grants .poll s i)
  have hshort := short_step T lib map h.short i
  cases hj : performed s i with
  | none =>
    have hfw := ((component T lib map).skips s i hj).1
    exact ⟨⟨h.grants, hfw ▸ h.ready, hpolls, hshort⟩, .inl (congrArg held hfw)⟩
  | some j =>
    have hfw := ((component T lib map).takes s i j hj).1
    obtain ⟨hs, hc⟩ := performed_steady hi hj
    refine ⟨⟨h.grants, hfw ▸ h.ready.step lib map hs, hpolls, hshort⟩, ?_⟩
    rw [hfw, ← hc]
    exact held_step lib map h.ready hs

/-! ## A loop that finds something -/

/-- The loop that the work runs finds something to do. -/
def Work.Finds (g : Held) : Work → Prop
  | .usbRx => g.raw ≠ []
  | .uart p => g.lines p ≠ []
  | .usbTx => g.queued ≠ [] ∧ g.packets = 0
  | .receiveMessages | .heartbeat | .startTask .. => False

theorem exists_finds {g : Held} (hpos : 0 < g.load) (hp : g.packets = 0) : ∃ x ∈ runIo, x.Finds g := by
  by_cases hr : g.raw = []
  · by_cases hl : ∀ p, g.lines p = []
    · refine ⟨.usbTx, by decide, fun hq => ?_, hp⟩
      have hzero : g.load = 0 := by simp [Held.load, Held.bytes, hr, hl, hq, hp]
      omega
    · rw [not_forall] at hl
      obtain ⟨p, hl⟩ := hl
      exact ⟨.uart p, (by decide : ∀ p, Work.uart p ∈ runIo) p, hl⟩
  · exact ⟨.usbRx, by decide, hr⟩

theorem perform_finds {h0 : UartHw.Hw} {s : State κ β} (h : Running T map h0 s) {x : Work} {ws : List Work}
    {returned : UInt16} (hc : s.call = some (x :: ws, returned)) (hx : x.Finds (held s.fw)) :
    (held (perform T lib map s (ws, returned) x).1.fw).load < (held s.fw).load := by
  cases x with
  | receiveMessages | heartbeat | startTask event time => exact hx.elim
  | usbRx =>
    rcases perform_spec T lib map s hc with ⟨-, -, hs⟩ | ⟨hnil, -⟩
    · rw [hs]
      exact ((rxTurn_held lib map s.fw).resolve_left fun hn => hx hn.1).2
    · exact absurd (hnil rfl) hx
  | uart p => exact (uartTurn_load lib map h.ready.toSound p).resolve_left fun hn => hx hn.1
  | usbTx =>
    refine (txProcess_held lib map h.ready).resolve_left fun hn => ?_
    rcases hn.1 with hq | hp
    · exact hx.1 hq
    · exact absurd hx.2 (Nat.ne_of_gt hp)

/-- The work is in the call, or in that of an event that is set or will be. -/
def Comes (x : Work) (s : State κ β) : Prop := x ∈ s.work ∨ ∃ e : Event, x ∈ e.work ∧ Has (coming T s) e.mask

/-- The turns of the kernel before the one that does the work, if no message and no heartbeat comes in between. -/
def turnsTo (x : Work) (s : State κ β) : Nat :=
  match s.call with
  | none => cost (coming T s) + 7
  | some (ws, _) => if x ∈ ws then ws.idxOf x else ws.length + cost (coming T s) + 8

theorem turnsTo_lt {h0 : UartHw.Hw} {s : State κ β} (h : Running T map h0 s) (x : Work) : turnsTo T x s < 23 := by
  have hcost := cost_le (coming T s)
  have hshort := h.short
  rw [turnsTo]
  split
  · omega
  · next ws r hc =>
    rw [State.work, hc] at hshort
    have hshort : ws.length ≤ 7 := hshort
    split
    · next hx =>
      have := List.idxOf_lt_length_of_mem hx
      omega
    · omega

/-- Inputs that leave the call alone and set events of the loops only. -/
theorem Comes.kept {x : Work} {s s' : State κ β} (h : Comes T x s) (hcall : s'.call = s.call)
    (hm : ∀ m, Has (coming T s) m → Has (coming T s') m) (hc : cost (coming T s') ≤ cost (coming T s)) :
    Comes T x s' ∧ turnsTo T x s' ≤ turnsTo T x s := by
  refine ⟨?_, ?_⟩
  · rw [Comes, State.work, hcall]
    rcases h with hx | ⟨e, hx, he⟩
    · exact .inl hx
    · exact .inr ⟨e, hx, hm _ he⟩
  · rw [turnsTo, turnsTo, hcall]
    split
    · omega
    · split
      · exact Nat.le_refl _
      · omega

theorem quiet_step {s : State κ β} {i : Input} (hi : i ≠ .run) (h0 : i.charge = 0) :
    let s' := (step T lib map s i).1
    s'.call = s.call ∧ (∀ m, Has (coming T s) m → Has (coming T s') m) ∧ cost (coming T s') ≤ cost (coming T s) := by
  cases i with
  | run => exact absurd rfl hi
  | message => cases h0
  | firmware i =>
    simp only [step]
    split
    · obtain ⟨hcall, -, hm, hcost⟩ := drive_spec T lib map s i
      exact ⟨hcall, hm, cost_mono hcost⟩
    · exact ⟨rfl, fun _ h => h, Nat.le_refl _⟩
  | expired events =>
    simp only [Input.charge, ite_eq_right_iff, Nat.one_ne_zero, imp_false, not_or] at h0
    have hcoming : coming T (step T lib map s (.expired events)).1 = coming T s ||| (T.timers s.tmos &&& events) := by
      rw [coming, step, T.expire_pending, coming, UInt16.or_assoc, UInt16.or_comm (T.timers s.tmos &&& events),
        ← UInt16.or_assoc]
      rfl
    refine ⟨rfl, fun m h => hcoming ▸ has_or.mpr (.inl h), cost_mono fun e he h => ?_⟩
    rw [hcoming, has_or] at h
    refine h.resolve_right fun hx => ?_
    -- an event that does not run out is not set
    have hexp : Has events e.mask := fun hz => hx (keep_none hz _)
    rcases he with rfl | rfl
    · exact h0.1 hexp
    · exact h0.2 hexp

/-- **A turn of the kernel** brings the work nearer, or a loop takes from what is held. -/
theorem comes_run {h0 : UartHw.Hw} {s : State κ β} (h : Running T map h0 s) {x : Work} (hx : x ∈ runIo)
    (hf : x.Finds (held s.fw)) (hcomes : Comes T x s) :
    let s' := (step T lib map s .run).1
    (Comes T x s' ∧ turnsTo T x s' < turnsTo T x s) ∨ (held s'.fw).load < (held s.fw).load := by
  intro s'
  have idle (hc : s.call = none) : ∃ e : Event, x ∈ e.work ∧ Has (T.pending s.tmos) e.mask := by
    rw [Comes, State.work, hc, coming_none T hc] at hcomes
    rcases hcomes with hw | he
    · cases hw
    · exact he
  rcases turn_cases T lib map s with ⟨hc, hp, ht⟩ | ⟨e, hc, hp, ht⟩ | ⟨hc, hnone, ht⟩ | ⟨r, hc, ht⟩ |
    ⟨w, ws, r, hc, ht⟩
  · obtain ⟨e, -, he⟩ := idle hc
    rw [hp] at he
    exact absurd he (not_has_zero _)
  · -- the handler is called, for the work or for a message or the heartbeat
    have hs' : s' = { s with tmos := T.call s.tmos, call := some (e.work, T.pending s.tmos ^^^ e.mask) } :=
      congrArg Prod.fst ht
    have hcoming : coming T s' = T.pending s.tmos ^^^ e.mask := by
      rw [hs', coming, T.call_pending]
      exact UInt16.zero_or
    have hcall : s'.call = some (e.work, T.pending s.tmos ^^^ e.mask) := by rw [hs']
    have hnow : turnsTo T x s = cost (T.pending s.tmos) + 7 := by rw [turnsTo, hc, coming_none T hc]
    refine .inl ?_
    rw [Comes, State.work, hcall, turnsTo, hcall, hnow, hcoming]
    by_cases hxe : x ∈ e.work
    · have := List.idxOf_lt_length_of_mem hxe
      have := e.length_work_le
      refine ⟨.inl hxe, ?_⟩
      simp only [hxe, if_true]
      omega
    · have he : e = .message ∨ e = .heartbeat := by
        cases e with
        | message => exact .inl rfl
        | heartbeat => exact .inr rfl
        | usbRx | usbTx | uart => exact absurd hx hxe
        | poll => exact absurd (List.mem_append_left _ hx) hxe
      obtain ⟨e', hxe', he'⟩ := idle hc
      have hne : e ≠ e' := fun heq => hxe (heq ▸ hxe')
      have hcost := cost_xor he hp
      refine ⟨.inr ⟨e', hxe', (has_xor_of_disjoint (Event.mask_disjoint hne) _).mpr he'⟩, ?_⟩
      simp only [hxe, if_false]
      omega
  · obtain ⟨e, -, he⟩ := idle hc
    exact absurd he (hnone e)
  · have hs' : s' = { s with tmos := T.answer s.tmos r, call := none } := congrArg Prod.fst ht
    have hcall : s'.call = none := by rw [hs']
    have hcoming : coming T s' = coming T s := by
      rw [coming_none T hcall, coming, State.returned, hc, hs']
      exact T.answer_pending ..
    refine .inl ⟨?_, ?_⟩
    · rw [Comes, hcoming]
      rw [Comes, State.work, hc] at hcomes
      exact .inr (hcomes.resolve_left List.not_mem_nil)
    · rw [turnsTo, turnsTo, hcall, hc, hcoming]
      simp only [List.not_mem_nil, if_false, List.length_nil]
      omega
  · have hs' : s' = (perform T lib map s (ws, r) w).1 := congrArg Prod.fst ht
    have takes (hw : w.Finds (held s.fw)) : (held s'.fw).load < (held s.fw).load := by
      rw [hs']
      exact perform_finds T lib map h hc hw
    rcases perform_spec T lib map s hc with ⟨hw, hne, -⟩ | ⟨-, hcall, -, hcoming, hcost, -⟩
    · subst hw
      exact .inr (takes hne)
    by_cases hw : w = x
    · exact .inr (takes (hw ▸ hf))
    have hcost := cost_mono hcost
    rw [← hs'] at hcall hcoming hcost
    rw [Comes, State.work, hc] at hcomes
    refine .inl ⟨?_, ?_⟩
    · rw [Comes, State.work, hcall]
      rcases hcomes with hmem | ⟨e, hxe, he⟩
      · exact .inl ((List.mem_cons.mp hmem).resolve_left (Ne.symm hw))
      · exact .inr ⟨e, hxe, hcoming _ he⟩
    · rw [turnsTo, turnsTo, hcall, hc]
      by_cases hxs : x ∈ ws
      · simp only [List.mem_cons, hxs, or_true, if_true, List.idxOf_cons_ne _ hw]
        omega
      · simp only [List.mem_cons, hxs, Ne.symm hw, or_false, if_false, List.length_cons]
        omega

/-! ## The poll timer -/

/-- The call under way will start the poll timer. -/
def Arms (s : State κ β) : Prop := ∃ w ∈ s.work, Has w.starts evtPoll

theorem arms_run {h0 : UartHw.Hw} {s : State κ β} (h : Running T map h0 s) (ha : Arms s) :
    let s' := (step T lib map s .run).1
    (Arms s' ∧ s'.work.length < s.work.length) ∨ Has (T.timers s'.tmos) evtPoll ∨
      (held s'.fw).load < (held s.fw).load := by
  intro s'
  obtain ⟨w₀, hw₀, hst⟩ := ha
  rcases turn_cases T lib map s with ⟨hc, -, -⟩ | ⟨e, hc, -, -⟩ | ⟨hc, -, -⟩ | ⟨r, hc, -⟩ | ⟨w, ws, r, hc, ht⟩
  · rw [State.work, hc] at hw₀
    cases hw₀
  · rw [State.work, hc] at hw₀
    cases hw₀
  · rw [State.work, hc] at hw₀
    cases hw₀
  · rw [State.work, hc] at hw₀
    cases hw₀
  · have hs' : s' = (perform T lib map s (ws, r) w).1 := congrArg Prod.fst ht
    rw [State.work, hc] at hw₀
    rcases perform_spec T lib map s hc with ⟨hw, hne, -⟩ | ⟨-, hcall, -, -, -, htimers⟩
    · subst hw
      refine .inr (.inr ?_)
      rw [hs']
      exact perform_finds T lib map h hc hne
    · rw [← hs'] at hcall htimers
      rcases List.mem_cons.mp hw₀ with rfl | hmem
      · refine .inr (.inl ?_)
        rw [htimers, if_pos (granted_of_grants h.grants s.tmos w₀), has_or]
        exact .inr hst
      · refine .inl ⟨⟨w₀, ?_, hst⟩, ?_⟩
        · rw [State.work, hcall]
          exact hmem
        · rw [State.work, State.work, hcall, hc]
          exact Nat.lt_succ_self _

theorem timed_step {s : State κ β} {m : UInt16} (h : Has (T.timers s.tmos) m) (i : Input) :
    Has (T.timers (step T lib map s i).1.tmos) m ∨ Has (coming T (step T lib map s i).1) m := by
  cases i with
  | message =>
    simp only [step, T.setEvent_timers]
    exact .inl h
  | expired events =>
    simp only [step, coming, T.expire_timers, T.expire_pending, has_or]
    exact (has_clear_or h events).imp_right fun h => .inl (.inr h)
  | firmware i =>
    simp only [step]
    split
    · exact .inl ((drive_spec T lib map s i).2.1.symm ▸ h)
    · exact .inl h
  | run =>
    refine .inl ?_
    simp only [step]
    rcases turn_cases T lib map s with ⟨-, -, he⟩ | ⟨e, -, -, he⟩ | ⟨-, -, he⟩ | ⟨r, -, he⟩ | ⟨w, ws, r, hc, he⟩
    · rw [he]
      exact h
    · rw [he, T.call_timers]
      exact h
    · rw [he, T.call_timers]
      exact h
    · rw [he, T.answer_timers]
      exact h
    · rw [he]
      rcases perform_spec T lib map s hc with ⟨-, -, hs⟩ | ⟨-, -, -, -, -, htimers⟩
      · rw [hs, (drive_spec T lib map s .rxTurn).2.1]
        exact h
      · rw [htimers]
        split
        · exact has_or.mpr (.inl h)
        · exact h

/-! ## A round -/

/-- Turns of the kernel until the poll timer runs, its expiry, turns until the
loops have been run, and a completion on EP2. -/
def round : List Input :=
  List.replicate 8 .run ++ ([.expired evtPoll] ++ (List.replicate 23 .run ++ [.firmware (.usb .ep2In)]))

/-- Inputs that bring nothing in. -/
def Free (i : Input) : Prop := i.Steady ∧ i.charge = 0

theorem free_rounds (n : Nat) : ∀ i ∈ (List.replicate n round).flatten, Free i := by
  intro i hi
  obtain ⟨r, hr, hi⟩ := List.mem_flatten.mp hi
  rw [List.eq_of_mem_replicate hr] at hi
  simp only [round, List.mem_append, List.mem_replicate, List.mem_singleton] at hi
  rcases hi with ⟨-, rfl⟩ | rfl | ⟨-, rfl⟩ | rfl
  · exact ⟨trivial, rfl⟩
  · exact ⟨trivial, by decide⟩
  · exact ⟨trivial, rfl⟩
  · exact ⟨trivial, rfl⟩

/-- The firmware holds `g`. -/
def At (h0 : UartHw.Hw) (g : Held) (s : State κ β) : Prop := Running T map h0 s ∧ held s.fw = g

/-- It has less to do. -/
def Below (g : Held) (s : State κ β) : Prop := (held s.fw).load < g.load

theorem at_step {h0 : UartHw.Hw} {g : Held} {s : State κ β} (h : At T map h0 g s) {i : Input} (hi : Free i) :
    At T map h0 g (step T lib map s i).1 ∨ Below g (step T lib map s i).1 := by
  obtain ⟨hrun, hwithin⟩ := within_step T lib map h.1 hi.1
  rw [h.2] at hwithin
  rcases hwithin with he | hlt | ⟨hpos, -⟩
  · exact .inl ⟨hrun, he⟩
  · exact .inr hlt
  · exact absurd hpos (hi.2 ▸ Nat.lt_irrefl 0)

open Mealy in
/-- Turns of the kernel have the poll event set or its timer run. -/
theorem leads_timed (h0 : UartHw.Hw) (g : Held) {x : Work} (hx : x ∈ runIo) :
    Leads (step T lib map) Free (At T map h0 g) (List.replicate 8 .run)
      fun s => (At T map h0 g s ∧ (Comes T x s ∨ Has (T.timers s.tmos) evtPoll)) ∨ Below g s := by
  have arming : Leads (step T lib map) Free (fun s => (At T map h0 g s ∧ Arms s) ∧ s.work.length < 8)
      (List.replicate 8 .run)
      fun s => (At T map h0 g s ∧ (Comes T x s ∨ Has (T.timers s.tmos) evtPoll)) ∨ Below g s := by
    refine Leads.countdown (fun s : State κ β => s.work.length) ?_ ?_ 8
    · intro s i hi hr h
      have hcall := (quiet_step T lib map hr hi.2 (s := s)).1
      rcases at_step T lib map h.1 hi with hat | hlt
      · refine .inl ⟨⟨hat, ?_⟩, ?_⟩
        · rw [Arms, State.work, hcall]
          exact h.2
        · rw [State.work, State.work, hcall]
      · exact .inr (.inr hlt)
    · intro s hr h
      rcases at_step T lib map h.1 hr with hat | hlt
      · rcases arms_run T lib map h.1.1 h.2 with ⟨ha, hl⟩ | ht | hlt
        · exact .inl ⟨⟨hat, ha⟩, hl⟩
        · exact .inr (.inl ⟨hat, .inr ht⟩)
        · exact .inr (.inr (h.1.2 ▸ hlt))
      · exact .inr (.inr hlt)
  refine ((Leads.of_imp fun s h => .inl h).or arming).imp
    (P := At T map h0 g) (Q := fun s => (At T map h0 g s ∧ (Comes T x s ∨ Has (T.timers s.tmos) evtPoll)) ∨
      ((At T map h0 g s ∧ Arms s) ∧ s.work.length < 8)) fun s h => ?_
  -- the event has a timer, it is set or will be, or the call starts its timer
  rcases h.1.polls with he | ha
  · rw [expected, has_or] at he
    refine .inl ⟨h, he.symm.imp_left fun hc => .inr ⟨.poll, List.mem_append_left _ hx, hc⟩⟩
  · exact .inr ⟨⟨h, ha⟩, Nat.lt_succ_of_le h.1.short⟩

open Mealy in
theorem leads_comes (h0 : UartHw.Hw) (g : Held) {x : Work} (hx : x ∈ runIo) :
    Leads (step T lib map) Free (fun s => At T map h0 g s ∧ (Comes T x s ∨ Has (T.timers s.tmos) evtPoll))
      [.expired evtPoll] fun s => (At T map h0 g s ∧ Comes T x s) ∨ Below g s := by
  have comes {s : State κ β} (h : Has (coming T s) evtPoll) : Comes T x s :=
    .inr ⟨.poll, List.mem_append_left _ hx, h⟩
  have timed : Leads (step T lib map) Free (fun s => At T map h0 g s ∧ Has (T.timers s.tmos) evtPoll)
      [.expired evtPoll] fun s => (At T map h0 g s ∧ Comes T x s) ∨ Below g s := by
    refine Leads.single ?_ ?_
    · intro s i hi h
      rcases at_step T lib map h.1 hi with hat | hlt
      · exact (timed_step T lib map h.2 i).imp (fun ht => ⟨hat, ht⟩) fun hc => .inl ⟨hat, comes hc⟩
      · exact .inr (.inr hlt)
    · intro s hi h
      refine (at_step T lib map h.1 hi).imp_left fun hat => ⟨hat, comes ?_⟩
      simp only [step, coming, T.expire_pending, has_or]
      refine .inl (.inr ?_)
      rw [Has, UInt16.and_assoc, UInt16.and_self]
      exact h.2
  refine ((Leads.of_imp fun s h => .inl h).or timed).imp
    (Q := fun s => (At T map h0 g s ∧ Comes T x s) ∨ (At T map h0 g s ∧ Has (T.timers s.tmos) evtPoll)) fun s h => ?_
  exact h.2.imp (fun hc => ⟨h.1, hc⟩) fun ht => ⟨h.1, ht⟩

open Mealy in
theorem leads_below (h0 : UartHw.Hw) {g : Held} {x : Work} (hx : x ∈ runIo) (hf : x.Finds g) :
    Leads (step T lib map) Free (fun s => At T map h0 g s ∧ Comes T x s) (List.replicate 23 .run) (Below g) := by
  have counting : Leads (step T lib map) Free (fun s => (At T map h0 g s ∧ Comes T x s) ∧ turnsTo T x s < 23)
      (List.replicate 23 .run) (Below g) := by
    refine Leads.countdown (turnsTo T x) ?_ ?_ 23
    · intro s i hi hr h
      obtain ⟨hcall, hm, hcost⟩ := quiet_step T lib map hr hi.2 (s := s)
      obtain ⟨hc, hle⟩ := h.2.kept T hcall hm hcost
      exact (at_step T lib map h.1 hi).imp_left fun hat => ⟨⟨hat, hc⟩, hle⟩
    · rintro s hr ⟨hat, hc⟩
      rcases at_step T lib map hat hr with hat' | hlt
      · rcases comes_run T lib map hat.1 hx (hat.2.symm ▸ hf) hc with ⟨hc', hlt⟩ | hlt
        · exact .inl ⟨⟨hat', hc'⟩, hlt⟩
        · exact .inr (hat.2 ▸ hlt)
      · exact .inr hlt
  exact counting.imp fun s h => ⟨h, turnsTo_lt T map h.1.1 x⟩

open Mealy in
theorem leads_acknowledged (h0 : UartHw.Hw) {g : Held} (hg : 0 < g.packets) :
    Leads (step T lib map) Free (At T map h0 g) [.firmware (.usb .ep2In)] (Below g) := by
  refine Leads.single (fun s i hi h => at_step T lib map h hi) fun s hi h => ?_
  have ha : armed s.fw.dev.regs.uep2TxCtrl = true := by
    rw [← h.2] at hg
    exact InPath.packetsLeft_pos.mp hg
  have hlt := (ep2In_held lib map h.1.ready.pipe).resolve_left fun hn => absurd (ha.symm.trans hn.1) (by decide)
  exact h.2 ▸ hlt

open Mealy in
/-- **One round** has the firmware hold less. -/
theorem rounds (h0 : UartHw.Hw) : Rounds (step T lib map) (Running T map h0) Input.Steady Input.charge
    (fun s => (held s.fw).load) round where
  keeps s i hi h := (within_step T lib map h hi).1
  le s i hi h := by
    rcases (within_step T lib map h hi).2 with he | hlt | ⟨hpos, hlt⟩
    · exact Nat.le_trans (Nat.le_of_eq (congrArg Held.load he)) (Nat.le_add_right ..)
    · omega
    · omega
  leads m := by
    intro s h
    obtain ⟨hrun, hm⟩ := h
    obtain ⟨g, hg⟩ : ∃ g, g = held s.fw := ⟨_, rfl⟩
    -- EP2 waits for the host, or a loop finds something
    have hbelow : Leads (step T lib map) Free (At T map h0 g) round (Below g) := by
      rcases Nat.eq_zero_or_pos g.packets with hp | hp
      · obtain ⟨x, hx, hf⟩ := exists_finds (by rw [hg]; omega) hp
        have hwork := (leads_timed T lib map h0 g hx).trans
          (((leads_comes T lib map h0 g hx).trans ((leads_below T lib map h0 hx hf).or (.of_imp fun _ h => h))).or
            (.of_imp fun _ h => h))
        exact hwork.mono ((List.Sublist.refl _).append ((List.Sublist.refl _).append (List.sublist_append_left ..)))
      · exact (leads_acknowledged T lib map h0 hp).mono
          ((List.sublist_append_right ..).trans ((List.sublist_append_right ..).trans (List.sublist_append_right ..)))
    intro is his hr
    obtain ⟨js, ks, he, hlt⟩ := hbelow s ⟨hrun, hg.symm⟩ is his hr
    refine ⟨js, ks, he, ?_⟩
    rw [Below, hg] at hlt
    omega

/-! ## At rest -/

variable (hw : UartHw.Hw) (taskId : UInt8) (b : β) (k : κ)

theorem reached (hT : T.Grants) (is : List Input) :
    let s := Mealy.run (step T lib map) (start T lib map hw taskId b k) is
    Sound map hw s.fw ∧ Alive T .poll s ∧ s.work.length ≤ 7 := by
  refine Mealy.inv_run (I := fun s : State κ β => Sound map hw s.fw ∧ Alive T .poll s ∧ s.work.length ≤ 7) ?_
    ⟨sound_start lib map hw taskId b, .inl ?_, Nat.zero_le _⟩ is
  · rintro s i ⟨h1, h2, h3⟩
    refine ⟨?_, alive_step T lib map rearms_poll h2 (not_loses hT .poll s i), short_step T lib map h3 i⟩
    cases hj : performed s i with
    | none => exact ((component T lib map).skips s i hj).1 ▸ h1
    | some j => exact ((component T lib map).takes s i j hj).1 ▸ h1.step lib map j
  · rw [has_expected]
    exact .inr (.inl (has_start T lib map hw taskId b k nofun))

open Firmware in
/-- With nothing held, everything that came in has been handed on, and the host
has read every frame that was accepted. -/
theorem rest_of_load (is : List Input)
    (h0 : (held (Mealy.run (step T lib map) (start T lib map hw taskId b k) is).fw).load = 0) :
    let s := Mealy.run (step T lib map) (start T lib map hw taskId b k) is
    let tr := Mealy.outs (step T lib map) (start T lib map hw taskId b k) is
    s.fw.rx.taken = s.fw.rx.received ∧ (∀ p, (s.fw.fw.uart.ports p).rxRb.toList = []) ∧
      (∀ q, sent q (events tr) = accepted q (events tr)) ∧
      s.fw.wire.completed = s.fw.wire.packets.length ∧ hostReads s.fw = s.fw.wire.frames.map InPath.content := by
  intro s tr
  obtain ⟨hraw, hlines, hqueued, hpackets⟩ := Held.load_eq_zero h0
  obtain ⟨hrun, houts, -⟩ := firmware_run T lib map (start T lib map hw taskId b k) is
  have hway : OnItsWay s.fw tr := by
    rw [show s.fw = _ from hrun, show tr = _ from houts]
    exact onItsWay_run lib map hw taskId b _
  have hna : armed s.fw.dev.regs.uep2TxCtrl = false := by
    rw [← Bool.not_eq_true, ← InPath.packetsLeft_pos]
    exact Nat.not_lt.mpr (Nat.le_of_eq hpackets)
  refine ⟨?_, hlines, ?_, ?_⟩
  · have hraw : s.fw.rx.ctx.rawRb.toList = [] := hraw
    rw [UsbRx.Run.received, hraw, List.append_nil]
  · intro q
    have hnil : (s.fw.tx.queue q).toList = [] := by
      by_contra hne
      obtain ⟨f, hf⟩ := List.exists_mem_of_ne_nil _ hne
      have hmem : f ∈ (held s.fw).queued := mem_backlog.mpr ⟨q, hf⟩
      rw [show (held s.fw).queued = [] from hqueued] at hmem
      cases hmem
    rw [hway.history.conserved q, hnil, List.append_nil]
  · cases hway.flow with
    | sending _ _ arm => exact absurd (arm.symm.trans hna) (by decide)
    | idle notArmed sent done =>
      refine ⟨done, ?_⟩
      have hreads : UsbRx.reference (s.fw.wire.frames.flatMap Frame.bytes ++ []) =
          s.fw.wire.frames.map InPath.content := by
        refine reference_frames (fun f hf => ?_) Framing.pending_nil
        obtain ⟨q, hq⟩ := hway.origin f hf
        obtain ⟨call, -, hc⟩ := hway.carries (List.mem_append_left _ hq)
        exact hc.isFrame
      rwa [List.append_nil, ← sent] at hreads

/-- **The firmware comes to rest.** From every state of the task in which the
device is configured, under a kernel that refuses no timer, whatever comes in but
a reset of the bus and a SETUP that takes the configuration away, and in
whatever order: once there have been as many rounds as the load and the
charges of the inputs say, there was a time at which all bytes received had
been taken, no byte of a line was held, every frame that was ever accepted had
been sent, and the host had acknowledged every packet and read every frame
since the last reset, whole. -/
theorem comes_to_rest (hT : T.Grants) (before is : List Input) {n : Nat}
    (hconf : isConfigured (Mealy.run (step T lib map) (start T lib map hw taskId b k) before).fw.dev = true)
    (his : ∀ i ∈ is, i.Steady)
    (hn : (held (Mealy.run (step T lib map) (start T lib map hw taskId b k) before).fw).load +
      (is.map Input.charge).sum ≤ n)
    (hr : (List.replicate n round).flatten.Sublist is) :
    ∃ js, js <+: is ∧
      let s := Mealy.run (step T lib map) (start T lib map hw taskId b k) (before ++ js)
      let tr := Mealy.outs (step T lib map) (start T lib map hw taskId b k) (before ++ js)
      s.fw.rx.taken = s.fw.rx.received ∧ (∀ p, (s.fw.fw.uart.ports p).rxRb.toList = []) ∧
        (∀ q, sent q (Firmware.events tr) = accepted q (Firmware.events tr)) ∧
        s.fw.wire.completed = s.fw.wire.packets.length ∧
        Firmware.hostReads s.fw = s.fw.wire.frames.map InPath.content := by
  obtain ⟨h1, h2, h3⟩ := reached T lib map hw taskId b k hT before
  obtain ⟨js, hjs, h0⟩ := (rounds T lib map hw).exists_eq_zero ⟨hT, ⟨h1, hconf⟩, h2, h3⟩ his hn hr
  rw [← Mealy.run_append] at h0
  exact ⟨js, hjs, rest_of_load T lib map hw taskId b k (before ++ js) h0⟩

/-- A configured device with three bytes in its ring, under rounds only. -/
theorem comes_to_rest_three :
    let before : List Input := [.firmware (.usb .busReset),
      .firmware (.usb (.setup [0x00, 0x09, 0x01, 0x00, 0x00, 0x00, 0x00, 0x00])), .firmware (.usb .ep0In),
      .firmware (.usb (.ep3Out ⟨[1, 2, 3], by decide⟩ false))]
    let run := Mealy.run (step Tmos.words BleLink.willing UartMgr.uartMapCfg)
      (start Tmos.words BleLink.willing UartMgr.uartMapCfg UartHw.Hw.cleared 0 () (0, 0))
    ∃ js, js <+: (List.replicate (held (run before).fw).load round).flatten ∧
      (run (before ++ js)).fw.rx.taken = (run (before ++ js)).fw.rx.received := by
  intro before run
  obtain ⟨js, hjs, h, -⟩ := comes_to_rest Tmos.words BleLink.willing UartMgr.uartMapCfg UartHw.Hw.cleared 0 () (0, 0)
    Tmos.grants_words before (List.replicate (held (run before).fw).load round).flatten (by decide +kernel)
    (fun i hi => (free_rounds _ i hi).1)
    (by
      have hfree : ((List.replicate (held (run before).fw).load round).flatten.map Input.charge).sum = 0 := by
        rw [List.sum_eq_zero_iff_forall_eq_nat, List.forall_mem_map]
        exact fun i hi => (free_rounds _ i hi).2
      rw [hfree]
      exact Nat.le_refl _)
    (List.Sublist.refl _)
  exact ⟨js, hjs, h⟩

end

end UsbMux.AppTask
