/-
The heartbeat LED of `heartbeat.c`, on readings of the RTC counter.

The task loop starts the timer for the next call once a call is over, so the
readings of two calls are a period apart or more. The deadline moves by one
period a call, whatever the time: what a call was late by, all later calls
are late by too (`Waiting.process`), and the signed comparison sees a deadline
in the future once that adds up to half the counter (`toggles_iff`).
`Heartbeat_X` of the source is `x` here.
-/
import Mathlib.Data.UInt
import UsbMux.Lib.Mealy

namespace UsbMux.Heartbeat

/-! ## The driver -/

/-- `APP_HEARTBEAT_PERIOD_MS` and `CAB_LSIFQ`. -/
abbrev appHeartbeatPeriodMs : UInt64 := 500
abbrev cabLsifq : UInt32 := 32000

inductive BitAction
  | bitReset | bitSet
deriving DecidableEq, Repr

/-- `heartbeat_ctx_t`, and the level of the LED's pin. -/
structure Ctx where
  initialized : UInt8
  ledOn : UInt8
  nextDeadlineTick : UInt32
  level : BitAction
deriving DecidableEq

def getPeriodTick : UInt32 :=
  let periodTick := (appHeartbeatPeriodMs * (cabLsifq / 2).toUInt64 / 1000).toUInt32
  if periodTick = 0 then 1 else periodTick

/-- The LED is active low. -/
def outputLevel (ledOn : UInt8) : BitAction := if ledOn ≠ 0 then .bitReset else .bitSet

def applyOutput (c : Ctx) (ledOn : UInt8) : Ctx := { c with level := outputLevel ledOn }

/-- `Heartbeat_Init`, with the reading it takes. -/
def init (c : Ctx) (nowTick : UInt32) : Ctx :=
  let c := applyOutput { c with initialized := 1, ledOn := 0 } 0
  { c with nextDeadlineTick := nowTick + getPeriodTick }

/-- `Heartbeat_Process`, with the reading it takes. -/
def process (c : Ctx) (nowTick : UInt32) : Ctx :=
  if c.initialized = 0 then c
  else if (nowTick - c.nextDeadlineTick).toInt32 < 0 then c
  else
    let c := { c with ledOn := c.ledOn ^^^ 1 }
    let c := applyOutput c c.ledOn
    { c with nextDeadlineTick := c.nextDeadlineTick + getPeriodTick }

theorem getPeriodTick_toNat : getPeriodTick.toNat = 8000 := by decide

theorem toInt32_neg_iff (d : UInt32) : d.toInt32 < 0 ↔ 2 ^ 31 ≤ d.toNat := by
  have hd := d.toNat_lt
  have hi : d.toInt32.toInt = if 2 * d.toNat < 2 ^ 32 then (d.toNat : Int) else d.toNat - 2 ^ 32 := rfl
  rw [Int32.lt_iff_toInt_lt, hi, Int32.toInt_zero]
  split
  · omega
  · omega

/-! ## Calls on a running counter -/

/-- What the counter advanced by to each reading, modulo 2^32. -/
def advances : UInt32 → List UInt32 → List Nat
  | _, [] => []
  | prev, now :: rest => (now - prev).toNat :: advances now rest

/-- Every reading comes one period to two periods after the one before it. -/
def Paced (now : UInt32) (readings : List UInt32) : Prop :=
  ∀ a ∈ advances now readings, getPeriodTick.toNat ≤ a ∧ a ≤ 2 * getPeriodTick.toNat

/-- What the readings come late by, one after the other, when a period apart is on time. -/
def lateness (now : UInt32) (readings : List UInt32) : Nat :=
  ((advances now readings).map (· - getPeriodTick.toNat)).sum

/-- A call of `Heartbeat_Process`; the output is the level it leaves on the pin. -/
def step : Mealy.Step Ctx UInt32 BitAction := fun c now => (process c now, [(process c now).level])

/-- The call with this reading toggles the LED. -/
def Toggles (c : Ctx) (now : UInt32) : Prop := (process c now).level ≠ c.level

/-- The heartbeat after a reading `prev` that was `late` ticks behind its
deadline: the next deadline is one period after the one that was met. -/
structure Waiting (c : Ctx) (prev : UInt32) (late : Nat) : Prop where
  initialized : c.initialized = 1
  deadline : (prev + getPeriodTick - c.nextDeadlineTick).toNat = late
  level : c.level = outputLevel c.ledOn
  led : c.ledOn = 0 ∨ c.ledOn = 1
  lt : late < 2 ^ 31

theorem led_toggled {ledOn : UInt8} (h : ledOn = 0 ∨ ledOn = 1) :
    (ledOn ^^^ 1 = 0 ∨ ledOn ^^^ 1 = 1) ∧ outputLevel (ledOn ^^^ 1) ≠ outputLevel ledOn := by
  rcases h with rfl | rfl
  · decide
  · decide

theorem Waiting.init (c : Ctx) (now : UInt32) : Waiting (init c now) now 0 where
  initialized := rfl
  deadline := by simp [Heartbeat.init]
  level := rfl
  led := .inl rfl
  lt := by omega

theorem Waiting.distance {c : Ctx} {prev now : UInt32} {late : Nat} (h : Waiting c prev late)
    (h1 : getPeriodTick.toNat ≤ (now - prev).toNat) (h2 : (now - prev).toNat ≤ 2 * getPeriodTick.toNat) :
    (now - c.nextDeadlineTick).toNat = late + ((now - prev).toNat - getPeriodTick.toNat) := by
  have hd := h.deadline
  have hlt := h.lt
  rw [UInt32.toNat_sub, UInt32.toNat_add] at hd
  rw [UInt32.toNat_sub] at h1 h2 ⊢
  rw [UInt32.toNat_sub]
  rw [getPeriodTick_toNat] at *
  have := now.toNat_lt
  have := prev.toNat_lt
  have := c.nextDeadlineTick.toNat_lt
  omega

/-- **A call in time** toggles the LED and keeps what it was late by. -/
theorem Waiting.process {c : Ctx} {prev now : UInt32} {late : Nat} (h : Waiting c prev late)
    (h1 : getPeriodTick.toNat ≤ (now - prev).toNat) (h2 : (now - prev).toNat ≤ 2 * getPeriodTick.toNat)
    (hlt : late + ((now - prev).toNat - getPeriodTick.toNat) < 2 ^ 31) :
    Toggles c now ∧ Waiting (process c now) now (late + ((now - prev).toNat - getPeriodTick.toNat)) := by
  have hd := h.distance h1 h2
  have hinit : ¬ c.initialized = 0 := by rw [h.initialized]; decide
  have hpos : ¬ (now - c.nextDeadlineTick).toInt32 < 0 := by rw [toInt32_neg_iff, hd]; omega
  have hp : Heartbeat.process c now = { applyOutput { c with ledOn := c.ledOn ^^^ 1 } (c.ledOn ^^^ 1) with
      nextDeadlineTick := c.nextDeadlineTick + getPeriodTick } := by
    simp only [Heartbeat.process, if_neg hinit, if_neg hpos]
    rfl
  obtain ⟨hled, hlevel⟩ := led_toggled h.led
  rw [Toggles, hp]
  refine ⟨?_, h.initialized, ?_, rfl, hled, hlt⟩
  · rw [h.level]
    exact hlevel
  · -- the reading and the deadline move on by the same period
    have hmove : now + getPeriodTick - (c.nextDeadlineTick + getPeriodTick) = now - c.nextDeadlineTick := by grind
    rw [← hd, hmove]

/-- **A call half a counter late** takes the deadline for one to come. -/
theorem Waiting.stall {c : Ctx} {prev now : UInt32} {late : Nat} (h : Waiting c prev late)
    (h1 : getPeriodTick.toNat ≤ (now - prev).toNat) (h2 : (now - prev).toNat ≤ 2 * getPeriodTick.toNat)
    (hle : 2 ^ 31 ≤ late + ((now - prev).toNat - getPeriodTick.toNat)) : ¬ Toggles c now := by
  have hd := h.distance h1 h2
  have hneg : (now - c.nextDeadlineTick).toInt32 < 0 := by rw [toInt32_neg_iff, hd]; exact hle
  intro ht
  apply ht
  simp only [Heartbeat.process, if_pos hneg, ite_self]

/-- Every call of a paced run toggles the LED exactly while the lateness, with
what it was before, stays below half the counter. -/
theorem Waiting.along_iff {c : Ctx} {prev : UInt32} {late : Nat} (h : Waiting c prev late) {readings : List UInt32}
    (hp : Paced prev readings) :
    Mealy.Along step Toggles c readings ↔ late + lateness prev readings < 2 ^ 31 := by
  induction readings generalizing c prev late with
  | nil => simpa [lateness, advances] using h.lt
  | cons now rest ih =>
    obtain ⟨⟨h1, h2⟩, hrest⟩ := List.forall_mem_cons.mp hp
    have hsum : lateness prev (now :: rest) = ((now - prev).toNat - getPeriodTick.toNat) + lateness now rest := by
      rw [lateness, advances, List.map_cons, List.sum_cons, lateness]
    rw [Mealy.along_cons, hsum, ← Nat.add_assoc]
    by_cases hlt : late + ((now - prev).toNat - getPeriodTick.toNat) < 2 ^ 31
    · obtain ⟨ht, hw⟩ := h.process h1 h2 hlt
      exact ⟨fun ha => (ih hw hrest).mp ha.2, fun ha => ⟨ht, (ih hw hrest).mpr ha⟩⟩
    · have hs := h.stall h1 h2 (Nat.le_of_not_lt hlt)
      exact ⟨fun ha => absurd ha.1 hs, fun ha => by omega⟩

/-- **The heartbeat toggles at every call** of a run whose readings come one
period to two periods apart exactly if they are late by less than 2^31 ticks
in all. -/
theorem toggles_iff (c : Ctx) (now : UInt32) (readings : List UInt32) (hp : Paced now readings) :
    Mealy.Along step Toggles (init c now) readings ↔ lateness now readings < 2 ^ 31 := by
  rw [(Waiting.init c now).along_iff hp, Nat.zero_add]

/-- A call on time and one half a period late. -/
theorem toggles_iff_two :
    Paced 100 [8100, 20100] ∧
      (Mealy.Along step Toggles (init ⟨0, 0, 0, .bitSet⟩ 100) [8100, 20100] ↔ lateness 100 [8100, 20100] < 2 ^ 31) := by
  have hp : Paced 100 [8100, 20100] := by
    rw [Paced, getPeriodTick_toNat]
    decide
  exact ⟨hp, toggles_iff _ 100 [8100, 20100] hp⟩

theorem advances_iterate (ticks now : UInt32) (n : Nat) :
    advances now (List.iterate (· + ticks) (now + ticks) n) = List.replicate n ticks.toNat := by
  induction n generalizing now with
  | zero => rfl
  | succ n ih =>
    have hsub : now + ticks - now = ticks := by grind
    rw [List.iterate, advances, ih, hsub, List.replicate_succ]

theorem lateness_iterate (ticks now : UInt32) (n : Nat) :
    lateness now (List.iterate (· + ticks) (now + ticks) n) = n * (ticks.toNat - getPeriodTick.toNat) := by
  rw [lateness, advances_iterate, List.map_replicate, List.sum_replicate_nat]

/-- Called every second from 0 on, the heartbeat misses its 268436th call:
each call is half a second late on the one before it. -/
theorem heartbeat_stalls :
    ¬ ∀ (c : Ctx) (now : UInt32) (readings : List UInt32), Paced now readings →
      Mealy.Along step Toggles (init c now) readings := by
  intro h
  have hp : Paced 0 (List.iterate (· + 16000) (0 + 16000) 268436) := by
    rw [Paced, advances_iterate, getPeriodTick_toNat]
    intro a ha
    rw [List.eq_of_mem_replicate ha]
    decide
  have hlt := ((Waiting.init ⟨0, 0, 0, .bitSet⟩ 0).along_iff hp).mp (h _ 0 _ hp)
  rw [lateness_iterate, getPeriodTick_toNat] at hlt
  exact absurd hlt (by decide)

end UsbMux.Heartbeat
