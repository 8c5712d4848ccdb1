/-
The log written out: a bound on the turns the task takes until the buffer is
empty, and that no order of turns and timers keeps it from getting there.
-/
import UsbMux.Lib.Progress
import UsbMux.LogTask

namespace UsbMux.LogTask

open AppLog Bits

variable {κ : Type} (T : Tmos κ)

/-! ## Flushes -/

/-- The chunks it takes to write what is in the buffer: those up to the end of
the array, and those from its beginning on. -/
def flushes (g : Log) : Nat :=
  let upper := min (count g) (2048 - g.tail.toNat)
  (upper + 95) / 96 + (count g - upper + 95) / 96

theorem flushes_eq_zero {g : Log} (h : Inside g) : flushes g = 0 ↔ AppLog.hasData g = false := by
  have hhas : AppLog.hasData g = false ↔ count g = 0 := by rw [h.count_eq_zero, AppLog.hasData, bne_eq_false_iff_eq]
  have ht := h.tail
  rw [hhas, flushes]
  omega

theorem flushes_le {g : Log} (h : Inside g) : flushes g ≤ 23 := by
  have hlt : count g < 2048 := Nat.mod_lt _ (by decide)
  have ht := h.tail
  rw [flushes]
  omega

theorem chunks_succ {c t l : Nat} (hc : c < 2048) (ht : t < 2048) (hl : l = min 96 (min c (2048 - t))) (hpos : 0 < l) :
    (min (c - l) (2048 - (t + l) % 2048) + 95) / 96 + (c - l - min (c - l) (2048 - (t + l) % 2048) + 95) / 96 + 1 =
      (min c (2048 - t) + 95) / 96 + (c - min c (2048 - t) + 95) / 96 := by
  rcases Nat.lt_or_ge (t + l) 2048 with hlt | hge
  · rw [Nat.mod_eq_of_lt hlt]
    omega
  · have h0 : (t + l) % 2048 = 0 := by omega
    rw [h0]
    omega

theorem flushes_advanceTail {g : Log} (h : Inside g) (hpos : getContiguousLen g > 0) :
    flushes (advanceTail g (getContiguousLen g)) + 1 = flushes g := by
  have hchunk := chunk_getContiguousLen h hpos
  have hlen := getContiguousLen_toNat h
  generalize getContiguousLen g = len at hchunk hlen ⊢
  obtain ⟨h', hpend⟩ := hchunk.advanceTail h
  have hcount : count (advanceTail g len) = count g - len.toNat := by
    rw [← length_pending, hpend, List.length_drop, length_pending]
  have hlt : count g < 2048 := Nat.mod_lt _ (by decide)
  have htail : (advanceTail g len).tail.toNat = (g.tail.toNat + len.toNat) % 2048 := by
    have hhead := h.tail_add_count
    have hhead' : ((advanceTail g len).tail.toNat + count (advanceTail g len)) % 2048 = g.head.toNat :=
      h'.tail_add_count
    have ht' := h'.tail
    have hle := hchunk.le_count
    rw [hcount] at hhead'
    omega
  rw [flushes, flushes, hcount, htail]
  exact chunks_succ hlt h.tail hlen hchunk.pos

/-! ## The way to an empty buffer -/

/-- The flushes there are still to be, the one under way included. -/
def rounds (s : Sys) : Nat :=
  match s.pc with
  | .idle => flushes s.log
  | .taken _ len | .written _ len => flushes (advanceTail s.log len) + 1

/-- The turns of the calls for the events in a word. -/
def cost (w : UInt16) : Nat := (if Has w sysEventMsg then 3 else 0) + if Has w appLogEvtFlush then 8 else 0

/-- The turns of the call a timer runs for. -/
def timerCost (k : κ) : Nat := if Has (T.timers k) appLogEvtFlush then 8 else 0

/-- The turns of a call from a stage on, and of the call it starts the timer for. -/
def Stage.cost (s : Sys) : Stage → Nat
  | .messages => 2
  | .process =>
    match s.pc with
    | .idle => 7
    | .taken .. => 6
    | .written .. => 5
  | .hasData => if AppLog.hasData s.log then 11 else 2
  | .startTask => 10
  | .done => 1

theorem hasData_cost_le (s : Sys) : Stage.hasData.cost s ≤ 11 := by
  rw [Stage.cost]
  split <;> omega

theorem Stage.cost_bounds (s : Sys) (stage : Stage) : 0 < stage.cost s ∧ stage.cost s ≤ 11 := by
  cases stage with
  | messages | startTask | done => simp [Stage.cost]
  | process =>
    rw [Stage.cost]
    cases s.pc <;> simp
  | hasData =>
    refine ⟨?_, hasData_cost_le s⟩
    rw [Stage.cost]
    split <;> omega

/-- The turns of the task it takes at most until all is written and no event is left. -/
def toDo (s : State κ) : Nat :=
  8 * rounds s.sys + cost (coming T s) + timerCost T s.tmos + (s.stage.map (Stage.cost s.sys)).getD 0

/-- The words made of the two events of the task. -/
abbrev eventWords : List UInt16 := [0, appLogEvtFlush, sysEventMsg, sysEventMsg ||| appLogEvtFlush]

/-- No events but the two are about, and only a call in `AppLog_Process` has a chunk. -/
structure Tidy (s : State κ) : Prop where
  pc : s.sys.pc ≠ .idle → s.stage = some .process
  coming : coming T s ∈ eventWords
  timers : T.timers s.tmos ∈ [0, appLogEvtFlush]

theorem forall_eventWords {p : UInt16 → Prop} (hnone : p 0) (hflush : p appLogEvtFlush) (hmsg : p sysEventMsg)
    (hboth : p (sysEventMsg ||| appLogEvtFlush)) : ∀ w ∈ eventWords, p w := by
  simp only [eventWords, List.forall_mem_cons]
  exact ⟨hnone, hflush, hmsg, hboth, fun _ h => nomatch h⟩

theorem or_mem_eventWords {w v : UInt16} (hw : w ∈ eventWords) (hv : v ∈ eventWords) : w ||| v ∈ eventWords := by
  have hor : ∀ w ∈ eventWords, ∀ v ∈ eventWords, w ||| v ∈ eventWords := by
    refine forall_eventWords ?_ ?_ ?_ ?_ <;> refine forall_eventWords ?_ ?_ ?_ ?_ <;> decide
  exact hor w hw v hv

theorem flush_and (events : UInt16) : appLogEvtFlush &&& events = 0 ∨ appLogEvtFlush &&& events = appLogEvtFlush := by
  rw [UInt16.and_comm]
  by_cases h : Has events appLogEvtFlush
  · exact .inr (and_single (k := 0) rfl h)
  · exact .inl (not_not.mp h)

theorem and_timers {t : UInt16} (h : t ∈ [0, appLogEvtFlush]) (events : UInt16) :
    t &&& events ∈ [0, appLogEvtFlush] := by
  rcases List.mem_pair.mp h with rfl | rfl
  · rw [UInt16.zero_and]
    exact List.mem_cons_self
  · exact List.mem_pair.mpr (flush_and events)

theorem coming_or {s : State κ} {k : κ} {w : UInt16} (h : T.pending k = T.pending s.tmos ||| w) :
    coming T { s with tmos := k } = coming T s ||| w := by
  rw [coming, h, UInt16.or_assoc, UInt16.or_comm w, ← UInt16.or_assoc]
  rfl

theorem coming_none {s : State κ} (h : s.call = none) : coming T s = T.pending s.tmos := by
  rw [coming, State.returned, h]
  exact UInt16.or_zero

/-- What a call that begins does, by the events that are set. -/
theorem processEvent_words {w : UInt16} (h : w ∈ eventWords) (h0 : w ≠ 0) :
    (processEvent w).2 ∈ eventWords ∧
      ((processEvent w).1 = .messages ∧ cost (processEvent w).2 + 3 = cost w ∨
        (processEvent w).1 = .process ∧ cost (processEvent w).2 + 8 = cost w) := by
  have hall : ∀ w ∈ eventWords, w ≠ 0 → (processEvent w).2 ∈ eventWords ∧
      ((processEvent w).1 = .messages ∧ cost (processEvent w).2 + 3 = cost w ∨
        (processEvent w).1 = .process ∧ cost (processEvent w).2 + 8 = cost w) := by
    refine forall_eventWords ?_ ?_ ?_ ?_ <;> decide
  exact hall w h h0

theorem tidy_step {s : State κ} (h : Tidy T s) (i : Input) : Tidy T (step T s i).1 := by
  cases i with
  | printf text =>
    refine ⟨h.pc, ?_, ?_⟩
    · simp only [step]
      split
      · have hp : T.pending (kickTask T s.tmos) = T.pending s.tmos ||| appLogEvtFlush := by
          rw [kickTask, if_pos T.registered, T.setEvent_pending]
        exact coming_or T hp ▸ or_mem_eventWords h.coming (by decide)
      · exact h.coming
    · simp only [step]
      split
      · rw [kickTask, if_pos T.registered, T.setEvent_timers]
        exact h.timers
      · exact h.timers
  | message =>
    refine ⟨h.pc, ?_, ?_⟩
    · exact coming_or T (T.setEvent_pending ..) ▸ or_mem_eventWords h.coming (by decide)
    · rw [step, T.setEvent_timers]
      exact h.timers
  | expired events =>
    refine ⟨h.pc, ?_, ?_⟩
    · have hmem : T.timers s.tmos &&& events ∈ eventWords := by
        rcases List.mem_pair.mp (and_timers h.timers events) with he | he <;> rw [he] <;> decide
      exact coming_or T (T.expire_pending ..) ▸ or_mem_eventWords h.coming hmem
    · rw [step, T.expire_timers]
      exact and_timers h.timers _
  | run =>
    obtain ⟨hpc, hcoming, htimers⟩ := h
    simp only [step, turn]
    cases hc : s.call with
    | none =>
      rw [coming_none T hc] at hcoming
      rw [State.stage, hc] at hpc
      dsimp only
      split
      · exact ⟨fun hne => absurd (hpc hne) (by simp), coming_none T hc ▸ hcoming, htimers⟩
      · next h0 =>
        refine ⟨fun hne => absurd (hpc hne) (by simp), ?_, ?_⟩
        · rw [coming, T.call_pending, UInt16.zero_or]
          exact (processEvent_words hcoming h0).1
        · rw [T.call_timers]
          exact htimers
    | some c =>
      obtain ⟨stage, returned⟩ := c
      rw [State.stage, hc] at hpc
      rw [coming, State.returned, hc] at hcoming
      cases stage with
      | messages => exact ⟨fun hne => absurd (hpc hne) (by simp), hcoming, htimers⟩
      | process =>
        refine ⟨fun hne => ?_, hcoming, htimers⟩
        dsimp only [perform, State.stage, Option.map_some] at hne ⊢
        rw [if_neg hne]
      | hasData => exact ⟨fun hne => absurd (hpc hne) (by simp), hcoming, htimers⟩
      | startTask =>
        refine ⟨fun hne => absurd (hpc hne) (by simp), ?_, ?_⟩
        · simp only [perform, LogTask.coming, T.startTask_pending]
          exact hcoming
        · simp only [perform, T.startTask_timers]
          split
          · rcases List.mem_pair.mp htimers with ht | ht <;> rw [ht] <;> decide
          · exact htimers
      | done =>
        refine ⟨fun hne => absurd (hpc hne) (by simp), ?_, ?_⟩
        · simp only [perform, LogTask.coming, T.answer_pending]
          rw [State.returned, Option.map_none, Option.getD_none, UInt16.or_zero]
          exact hcoming
        · simp only [perform, T.answer_timers]
          exact htimers

theorem pc_printed (s : Sys) (lines : List (Option (List UInt8))) :
    (Mealy.run AppLog.step s (lines.map .printf)).pc = s.pc := by
  induction lines generalizing s with
  | nil => rfl
  | cons line lines ih => exact ih (AppLog.step s (.printf line)).1

theorem tidy_run (g : Log) (lines : List (Option (List UInt8))) {k : κ} (hp : T.pending k = 0) (ht : T.timers k = 0)
    (is : List Input) : Tidy T (Mealy.run (step T) (start T g lines k) is) := by
  refine Mealy.inv_run (I := Tidy T) (fun _ i h => tidy_step T h i) ⟨fun hne => ?_, ?_, ?_⟩ is
  · exact absurd (pc_printed (AppLog.start g) (lines ++ [some (taskLine T.taskId)])) hne
  · rw [coming_none T rfl, start, kickTask, if_pos T.registered, T.setEvent_pending, hp]
    decide
  · rw [start, kickTask, if_pos T.registered, T.setEvent_timers, ht]
    decide

theorem toDo_call (sys : Sys) (k : κ) (stage : Stage) (returned : UInt16) :
    toDo T ⟨sys, k, some (stage, returned)⟩ =
      8 * rounds sys + cost (T.pending k ||| returned) + timerCost T k + stage.cost sys := rfl

theorem toDo_none (sys : Sys) (k : κ) :
    toDo T ⟨sys, k, none⟩ = 8 * rounds sys + cost (T.pending k) + timerCost T k := by
  rw [toDo, coming_none T rfl]
  rfl

/-- A piece of `AppLog_Process`, with the next stage of the call. -/
theorem process_toDo {sys : Sys} (h : AppLog.Inv sys) :
    let sys' := (AppLog.step sys .process).1
    let stage := if sys'.pc = .idle then Stage.hasData else .process
    8 * rounds sys' + stage.cost sys' < 8 * rounds sys + Stage.process.cost sys := by
  obtain ⟨g, pc⟩ := sys
  have hin : Inside g := h.inside
  cases pc with
  | idle =>
    by_cases hpos : getContiguousLen g > 0
    · -- a chunk is taken: it is one of the flushes
      have hflush := flushes_advanceTail hin hpos
      simp only [AppLog.step, snapshot, if_pos hpos, rounds, reduceCtorEq, if_false, Stage.cost, hflush]
      omega
    · -- no chunk: there is no data
      have hdata : AppLog.hasData g = false := by
        have hlen := getContiguousLen_toNat hin
        have hzero : (getContiguousLen g).toNat = 0 := by
          rw [gt_iff_lt, UInt16.lt_iff_toNat_lt, UInt16.toNat_zero] at hpos
          omega
        rw [← flushes_eq_zero hin, flushes]
        have ht := hin.tail
        omega
      simp only [AppLog.step, snapshot, if_neg hpos, rounds, if_true, Stage.cost, hdata, Bool.false_eq_true, if_false]
      omega
  | taken tail len =>
    simp only [AppLog.step, rounds, reduceCtorEq, if_false, Stage.cost]
    omega
  | written tail len =>
    have hprocess : Stage.process.cost ⟨g, .written tail len⟩ = 5 := rfl
    have hdata := hasData_cost_le ⟨advanceTail g len, .idle⟩
    simp only [AppLog.step, rounds, if_true, hprocess]
    omega

/-- **A turn of a task** that is in a call, or gets into one, brings the work down. -/
theorem turn_toDo {s : State κ} (hinv : AppLog.Inv s.sys) (h : Tidy T s)
    (hw : s.call ≠ none ∨ T.pending s.tmos ≠ 0) : toDo T (step T s .run).1 < toDo T s := by
  obtain ⟨hpc, hcoming, -⟩ := h
  obtain ⟨sys, k, call⟩ := s
  cases call with
  | none =>
    have h0 : T.pending k ≠ 0 := hw.resolve_left (not_not_intro rfl)
    have hidle : sys.pc = .idle := by
      by_contra hne
      cases hpc hne
    have hwords : T.pending k ∈ eventWords := coming_none T (s := ⟨sys, k, none⟩) rfl ▸ hcoming
    obtain ⟨-, hcost⟩ := processEvent_words hwords h0
    have hturn : (step T ⟨sys, k, none⟩ .run).1 = ⟨sys, T.call k, some (processEvent (T.pending k))⟩ := by
      simp only [step, turn, if_neg h0]
    have htimer : timerCost T (T.call k) = timerCost T k := by rw [timerCost, T.call_timers]; rfl
    rw [hturn, toDo_none]
    generalize processEvent (T.pending k) = c at hcost
    obtain ⟨stage, returned⟩ := c
    dsimp only at hcost
    rw [toDo_call, T.call_pending, UInt16.zero_or, htimer]
    rcases hcost with ⟨rfl, hcost⟩ | ⟨rfl, hcost⟩
    · rw [← hcost]
      simp only [Stage.cost]
      omega
    · rw [← hcost]
      simp only [Stage.cost, hidle]
      omega
  | some c =>
    obtain ⟨stage, returned⟩ := c
    rw [toDo_call]
    cases stage with
    | messages =>
      simp only [step, turn, perform, toDo_call, Stage.cost]
      omega
    | process =>
      have := process_toDo hinv
      simp only [step, turn, perform, toDo_call]
      dsimp only at this
      omega
    | hasData =>
      simp only [step, turn, perform, toDo_call, Stage.cost]
      cases AppLog.hasData sys.log with
      | true =>
        simp only [if_true]
        omega
      | false =>
        simp only [Bool.false_eq_true, if_false]
        omega
    | startTask =>
      have htimer : timerCost T (T.startTask k appLogEvtFlush (ms1ToSystemTime appLogFlushPeriodMs)).1 ≤ 8 := by
        rw [timerCost]
        split <;> omega
      simp only [step, turn, perform, toDo_call, T.startTask_pending, Stage.cost]
      omega
    | done =>
      have htimer : timerCost T (T.answer k returned) = timerCost T k := by rw [timerCost, T.answer_timers]; rfl
      simp only [step, turn, perform, toDo_none, T.answer_pending, htimer, Stage.cost]
      omega

/-- Timers that run out turn the call they run for into one that is due. -/
theorem expired_toDo {s : State κ} (h : Tidy T s) (events : UInt16) :
    toDo T (step T s (.expired events)).1 ≤ toDo T s := by
  have hcoming : coming T (step T s (.expired events)).1 = coming T s ||| (T.timers s.tmos &&& events) :=
    coming_or T (T.expire_pending ..)
  have hcost : ∀ w ∈ eventWords, cost (w ||| appLogEvtFlush) ≤ cost w + 8 :=
    forall_eventWords (by decide) (by decide) (by decide) (by decide)
  have htimer : cost (coming T s ||| (T.timers s.tmos &&& events)) + timerCost T (T.expire s.tmos events) ≤
      cost (coming T s) + timerCost T s.tmos := by
    rw [timerCost, timerCost, T.expire_timers]
    rcases List.mem_pair.mp h.timers with ht | ht
    · rw [ht, UInt16.zero_and, UInt16.zero_and, UInt16.or_zero]
    · rw [ht]
      rcases flush_and events with he | he
      · have hle : (if Has (appLogEvtFlush &&& ~~~events) appLogEvtFlush then 8 else 0) ≤ 8 := by split <;> omega
        rw [he, UInt16.or_zero, if_pos (show Has appLogEvtFlush appLogEvtFlush by decide)]
        exact Nat.add_le_add_left hle _
      · have hnone : appLogEvtFlush &&& ~~~events = 0 := by
          rw [← he, UInt16.and_assoc, UInt16.and_not_self, UInt16.and_zero]
        rw [he, hnone, if_neg (not_has_zero _), if_pos (show Has appLogEvtFlush appLogEvtFlush by decide)]
        exact hcost _ h.coming
  rw [toDo, toDo, hcoming]
  simp only [step, State.stage]
  omega

/-- What holds of every state of a run, if the kernel refuses no timer. -/
structure Ready (s : State κ) : Prop where
  grants : T.Grants
  inv : AppLog.Inv s.sys
  awake : Awake T s
  tidy : Tidy T s

theorem ready_step {s : State κ} (h : Ready T s) (i : Input) : Ready T (step T s i).1 := by
  refine ⟨h.grants, ?_, awake_step T h.awake (not_loses h.grants s i), tidy_step T h.tidy i⟩
  cases hi : performed s i with
  | none => exact ((component T).skips s i hi).1 ▸ h.inv
  | some j => exact ((component T).takes s i j hi).1 ▸ (step_conserves h.inv j).1

theorem toDo_le {s : State κ} (h : Ready T s) : toDo T s ≤ 222 := by
  have hrounds : rounds s.sys ≤ 24 := by
    obtain ⟨⟨g, pc⟩, k, call⟩ := s
    have hin : Inside g := h.inv.inside
    have hchunk := h.inv.chunk
    cases pc with
    | idle => exact (flushes_le hin).trans (by decide)
    | taken tail len => exact Nat.succ_le_succ (flushes_le ((hchunk tail len rfl).advanceTail hin).1)
    | written tail len => exact Nat.succ_le_succ (flushes_le ((hchunk tail len rfl).advanceTail hin).1)
  have hcost : ∀ w ∈ eventWords, cost w ≤ 11 :=
    forall_eventWords (by decide) (by decide) (by decide) (by decide)
  have hcoming := hcost _ h.tidy.coming
  have htimer : timerCost T s.tmos ≤ 8 := by
    rw [timerCost]
    split <;> omega
  have hstage : (s.stage.map (Stage.cost s.sys)).getD 0 ≤ 11 := by
    cases s.stage with
    | none => exact Nat.zero_le _
    | some stage => exact (stage.cost_bounds s.sys).2
  rw [toDo]
  omega

/-- Nothing comes from outside but timers that run out. -/
def Steady : Input → Prop
  | .expired _ | .run => True
  | .printf _ | .message => False

/-- The task is in a call, or is called next. -/
def Busy (s : State κ) : Prop := s.call ≠ none ∨ T.pending s.tmos ≠ 0

theorem busy_expired {s : State κ} (h : Busy T s) (events : UInt16) : Busy T (step T s (.expired events)).1 := by
  refine h.imp_right fun h h0 => h ?_
  rw [step, T.expire_pending, UInt16.or_eq_zero_iff] at h0
  exact h0.1

/-- With work to do, the task is busy once the timer of its event has run out. -/
theorem busy_of_toDo {s : State κ} (h : Ready T s) (hpos : 0 < toDo T s) :
    Busy T (step T s (.expired appLogEvtFlush)).1 := by
  by_cases hb : Busy T s
  · exact busy_expired T hb _
  rw [Busy, not_or, not_not, not_not] at hb
  obtain ⟨hc, hp⟩ := hb
  have hstage : s.stage = none := by rw [State.stage, hc]; rfl
  have hidle : s.sys.pc = .idle := by
    by_contra hne
    have := h.tidy.pc hne
    rw [hstage] at this
    cases this
  refine .inr ?_
  rw [step, T.expire_pending, hp, UInt16.zero_or]
  -- there is no event, so the work is data in the buffer, and a timer runs for that
  rcases h.awake with hd | hf | hf | hf
  · intro h0
    have hrounds : rounds s.sys = 0 := by
      rw [rounds, hidle]
      exact (flushes_eq_zero h.inv.inside).mpr hd
    rw [toDo, coming_none T hc, hp, hrounds, timerCost, if_neg (show ¬ Has _ _ from not_not_intro h0),
      hstage] at hpos
    have hcost : cost 0 = 0 := by decide
    rw [hcost] at hpos
    exact absurd hpos (Nat.lt_irrefl 0)
  · rw [coming_none T hc, hp] at hf
    exact absurd hf (not_has_zero _)
  · exact hf
  · rw [hstage] at hf
    cases hf

/-- **One round** of the timer and a turn of the task lowers the work, whatever comes between. -/
theorem ranking : Mealy.Ranking (step T) (Ready T) (Busy T) Steady (toDo T) (.expired appLogEvtFlush) .run where
  keeps _ i _ h := ready_step T h i
  le s i hi h := by
    cases i with
    | printf text | message => exact hi.elim
    | expired events => exact expired_toDo T h.tidy events
    | run =>
      by_cases hb : Busy T s
      · exact (turn_toDo T h.inv h.tidy hb).le
      · rw [Busy, not_or, not_not, not_not] at hb
        rw [step, turn, hb.1]
        simp only [hb.2, if_true, le_refl]
  waits s h hpos := .inl (busy_of_toDo T h hpos)
  stays s i hi h hb := by
    cases i with
    | printf text | message => exact hi.elim
    | expired events => exact .inl (busy_expired T hb events)
    | run => exact .inr (turn_toDo T h.inv h.tidy hb)
  helps _ h hb := turn_toDo T h.inv h.tidy hb

theorem ready_run (hT : T.Grants) (g : Log) (lines : List (Option (List UInt8))) {k : κ} (hp : T.pending k = 0)
    (ht : T.timers k = 0) (is : List Input) : Ready T (Mealy.run (step T) (start T g lines k) is) where
  grants := hT
  inv := inv_log T g lines k is
  awake := Mealy.inv_run (I := Awake T) (fun s i h => awake_step T h (not_loses hT s i)) (awake_start T g lines k) is
  tidy := tidy_run T g lines hp ht is

/-- **The log is written out.** From every state of every run of a task that
was registered with no events, under a kernel that refuses no timer, over every further order of turns and timers in
which the timer of the task runs out and the task has a turn 222 times: every
byte accepted by then is written, and buffer and task are at rest. -/
theorem log_drained (hT : T.Grants) (g : Log) (lines : List (Option (List UInt8))) {k : κ} (hp : T.pending k = 0)
    (ht : T.timers k = 0) (is₀ is : List Input) (his : ∀ i ∈ is, Steady i)
    (hr : (List.replicate 222 [Input.expired appLogEvtFlush, .run]).flatten.Sublist is) :
    let s := Mealy.run (step T) (start T g lines k) (is₀ ++ is)
    let events := history T g lines k (is₀ ++ is)
    accepted events = written events ∧ contents s.sys = [] ∧ s.call = none ∧ T.pending s.tmos = 0 ∧
      T.timers s.tmos = 0 := by
  intro s events
  have hready : Ready T s := ready_run T hT g lines hp ht (is₀ ++ is)
  have hready₀ := ready_run T hT g lines hp ht is₀
  have hzero : toDo T s = 0 := by
    have := (ranking T).run_eq_zero hready₀ his (toDo_le T hready₀) hr
    rwa [← Mealy.run_append] at this
  rw [toDo] at hzero
  have hcall : s.call = none := by
    cases hc : s.call with
    | none => rfl
    | some c =>
      have hpos := (c.1.cost_bounds s.sys).1
      rw [State.stage, hc] at hzero
      simp only [Option.map_some, Option.getD_some] at hzero
      omega
  have hidle : s.sys.pc = .idle := by
    by_contra hne
    have := hready.tidy.pc hne
    rw [State.stage, hcall] at this
    cases this
  have hcoming := hready.tidy.coming
  rw [coming_none T hcall] at hzero hcoming
  have hempty : AppLog.hasData s.sys.log = false := by
    rw [← flushes_eq_zero hready.inv.inside]
    rw [rounds, hidle] at hzero
    dsimp only at hzero
    omega
  have hcontents := contents_of_empty hready.inv hempty
  refine ⟨?_, hcontents, hcall, ?_, ?_⟩
  · have := history_eq T g lines k (is₀ ++ is)
    rwa [show contents (Mealy.run (step T) (start T g lines k) (is₀ ++ is)).sys = [] from hcontents,
      List.append_nil] at this
  · have hnone : ∀ w ∈ eventWords, cost w = 0 → w = 0 :=
    forall_eventWords (by decide) (by decide) (by decide) (by decide)
    exact hnone _ hcoming (by omega)
  · rcases List.mem_pair.mp hready.tidy.timers with ht | ht
    · exact ht
    · have hcost : timerCost T s.tmos = 8 := by rw [timerCost, ht]; rfl
      omega

theorem log_drained_words :
    let is : List Input := (List.replicate 222 [Input.expired appLogEvtFlush, .run]).flatten
    let s := Mealy.run (step Tmos.words) (start Tmos.words ⟨Block.fill _ 0, 0, 0, 0⟩ [] (0, 0)) ([.run] ++ is)
    let events := history Tmos.words ⟨Block.fill _ 0, 0, 0, 0⟩ [] (0, 0) ([.run] ++ is)
    accepted events = written events ∧ contents s.sys = [] ∧ s.call = none ∧ Tmos.words.pending s.tmos = 0 ∧
      Tmos.words.timers s.tmos = 0 :=
  log_drained Tmos.words Tmos.grants_words ⟨Block.fill _ 0, 0, 0, 0⟩ [] rfl rfl [.run] _
    (by
      intro i hi
      obtain ⟨l, hl, hil⟩ := List.mem_flatten.mp hi
      rw [List.eq_of_mem_replicate hl] at hil
      rcases List.mem_pair.mp hil with rfl | rfl <;> trivial)
    (List.Sublist.refl _)

end UsbMux.LogTask
