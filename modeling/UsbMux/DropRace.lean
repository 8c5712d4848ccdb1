/-
The receive drop counter of a port, which the foreground and the receive
interrupt both add to. The statement of `UartMgr_Process` is followed as a
load, an addition and a store (`Pc`); an interrupt that counts a byte between
the load and the store is forgotten, and nothing else is (`run_balanced`).
-/
import UsbMux.Lib.Mealy
import UsbMux.UartFacts

namespace UsbMux.DropRace

open UsbTx UartMgr

variable {η τ : Type}

/-! ## The loop, access by access -/

/-- How far a call of `UartMgr_Process` has come, with the ports still to come. -/
inductive Pc
  /-- at the head of the loop; no call where no port is to come -/
  | turns (ps : List (Fin uartPortCount))
  /-- `USBTX_QueueData` has refused `readLen` bytes of a port -/
  | refused (q : Fin uartPortCount) (readLen : UInt32) (ps : List (Fin uartPortCount))
  /-- `ctx->drop_rx_bytes` is read -/
  | loaded (q : Fin uartPortCount) (readLen value : UInt32) (ps : List (Fin uartPortCount))
  /-- `read_len` is added -/
  | added (q : Fin uartPortCount) (value : UInt32) (ps : List (Fin uartPortCount))
deriving DecidableEq

/-- The manager, the scheduler it queues to, and its foreground. -/
structure Sys (η τ : Type) where
  uart : State η
  tx : τ
  pc : Pc

/-- The next access of the foreground, or a byte from the line. -/
inductive Input
  | foreground
  | irqRx (logicPort data : UInt8)

/-- What is seen: an offer of data, and a byte a full ring had no room for, with
whether the foreground was between the load and the store of the port's counter. -/
inductive Event
  | offered (call : DataCall)
  | missed (q : Fin uartPortCount) (meanwhile : Bool)
deriving DecidableEq

variable (usb : Usb τ)

/-- The loop body for a port up to the statement on its counter. -/
def turn (s : Sys η τ) (p : Fin uartPortCount) (ps : List (Fin uartPortCount)) : Sys η τ × List Event :=
  if (s.uart.ports p).state ≠ .opened then ({ s with pc := .turns ps }, [])
  else
    let r := (s.uart.ports p).rxRb.read uartUsbChunkSize
    let uart := s.uart.modify p ({ · with rxRb := r.1 })
    let readLen := UInt16.ofNat r.2.length
    if readLen = 0 then (⟨uart, s.tx, .turns ps⟩, [])
    else
      let a := usb s.tx (.data VpChannelType.uartData.code (UInt8.ofNat p) (some r.2) readLen)
      (⟨uart, a.1, if a.2 then .turns ps else .refused p readLen.toUInt32 ps⟩, [.offered ⟨p, r.2, a.2⟩])

/-- The foreground's next access; with no call under way one begins. -/
def access (s : Sys η τ) : Sys η τ × List Event :=
  match s.pc with
  | .turns [] => ({ s with pc := .turns (List.finRange uartPortCount) }, [])
  | .turns (p :: ps) => turn usb s p ps
  | .refused q readLen ps => ({ s with pc := .loaded q readLen (s.uart.ports q).dropRxBytes ps }, [])
  | .loaded q readLen value ps => ({ s with pc := .added q (value + readLen) ps }, [])
  | .added q value ps =>
    ({ s with uart := s.uart.modify q ({ · with dropRxBytes := value }), pc := .turns ps }, [])

/-- The counter of the port is read and not yet written. -/
def Pc.open (q : Fin uartPortCount) : Pc → Bool
  | .loaded q' .. => q' = q
  | .added q' .. => q' = q
  | _ => false

/-- The ring of an open port has no room for a byte. -/
def Full (s : State η) (q : Fin uartPortCount) (data : UInt8) : Prop :=
  (s.ports q).state = .opened ∧ (s.ports q).rxRb.pushByte data = none

instance (s : State η) (q : Fin uartPortCount) (data : UInt8) : Decidable (Full s q data) :=
  inferInstanceAs (Decidable (_ ∧ _))

def step : Mealy.Step (Sys η τ) Input Event
  | s, .foreground => access usb s
  | s, .irqRx logicPort data =>
    ({ s with uart := irqRxByte s.uart logicPort data },
      match getPort logicPort with
      | none => []
      | some q => if Full s.uart q data then [.missed q (s.pc.open q)] else [])

/-! ### The accesses make up the loop -/

theorem turn_alone (s : State η) (t : τ) (p : Fin uartPortCount) (ps : List (Fin uartPortCount)) :
    let r := processPort usb s t p
    ∃ n, let is := List.replicate n Input.foreground
      Mealy.run (step usb) ⟨s, t, .turns (p :: ps)⟩ is = ⟨r.1, r.2.1, .turns ps⟩ ∧
        Mealy.outs (step usb) ⟨s, t, .turns (p :: ps)⟩ is = r.2.2.map .offered := by
  intro r
  by_cases hs : (s.ports p).state = .opened
  · by_cases h0 : UInt16.ofNat ((s.ports p).rxRb.read uartUsbChunkSize).2.length = 0
    · refine ⟨1, ?_⟩
      simp [r, List.replicate, step, access, turn, processPort, hs, h0]
    · by_cases ha : (usb t (.data VpChannelType.uartData.code (UInt8.ofNat p)
          (some ((s.ports p).rxRb.read uartUsbChunkSize).2)
          (UInt16.ofNat ((s.ports p).rxRb.read uartUsbChunkSize).2.length))).2 = true
      · refine ⟨1, ?_⟩
        simp [r, List.replicate, step, access, turn, processPort, hs, h0, ha]
      · refine ⟨4, ?_⟩
        simp [r, List.replicate, step, access, turn, processPort, hs, h0, ha, modify_modify, Function.comp_def]
        rfl
  · refine ⟨1, ?_⟩
    simp [r, List.replicate, step, access, turn, processPort, hs]

theorem turns_alone (s : State η) (t : τ) (ps : List (Fin uartPortCount)) :
    let r := processPorts usb s t ps
    ∃ n, let is := List.replicate n Input.foreground
      Mealy.run (step usb) ⟨s, t, .turns ps⟩ is = ⟨r.1, r.2.1, .turns []⟩ ∧
        Mealy.outs (step usb) ⟨s, t, .turns ps⟩ is = r.2.2.map .offered := by
  induction ps generalizing s t with
  | nil => exact ⟨0, rfl, rfl⟩
  | cons p ps ih =>
    obtain ⟨n, hrun, houts⟩ := turn_alone usb s t p ps
    obtain ⟨m, hrun', houts'⟩ := ih (processPort usb s t p).1 (processPort usb s t p).2.1
    refine ⟨n + m, ?_⟩
    simp only [List.replicate_add, Mealy.run_append, Mealy.outs_append, hrun, houts, hrun', houts', processPorts,
      List.map_append, and_self]

/-- Without interrupts the accesses from one call to the next are `UartMgr_Process`. -/
theorem process_alone (s : State η) (t : τ) :
    let r := process usb s t
    ∃ n, let is := List.replicate n Input.foreground
      Mealy.run (step usb) ⟨s, t, .turns []⟩ is = ⟨r.1, r.2.1, .turns []⟩ ∧
        Mealy.outs (step usb) ⟨s, t, .turns []⟩ is = r.2.2.map .offered := by
  obtain ⟨n, hrun, houts⟩ := turns_alone usb s t (List.finRange uartPortCount)
  refine ⟨n + 1, ?_⟩
  simp only [List.replicate_succ, Mealy.run_cons, Mealy.outs_cons]
  exact ⟨hrun, houts⟩

/-! ## What is counted -/

/-- The bytes of a port for which there was no room. -/
def missed (q : Fin uartPortCount) (tr : List Event) : Nat :=
  tr.countP fun
    | .missed q' _ => q' = q
    | _ => false

/-- Those of them that came between a load and a store. -/
def lost (q : Fin uartPortCount) (tr : List Event) : Nat :=
  tr.countP fun
    | .missed q' meanwhile => q' = q && meanwhile
    | _ => false

/-- The bytes of a port in refused offers. -/
def refusedBytes (q : Fin uartPortCount) (tr : List Event) : Nat :=
  (tr.map fun
    | .offered c => if c.port = q ∧ c.accepted = false then c.data.length else 0
    | _ => 0).sum

@[simp] theorem missed_append (q : Fin uartPortCount) (tr us : List Event) :
    missed q (tr ++ us) = missed q tr + missed q us := List.countP_append
@[simp] theorem lost_append (q : Fin uartPortCount) (tr us : List Event) :
    lost q (tr ++ us) = lost q tr + lost q us := List.countP_append
@[simp] theorem refusedBytes_append (q : Fin uartPortCount) (tr us : List Event) :
    refusedBytes q (tr ++ us) = refusedBytes q tr + refusedBytes q us := by
  simp [refusedBytes]

/-- The value a port's counter will have once the statement under way is done,
if no interrupt comes any more. -/
def settled (q : Fin uartPortCount) (s : Sys η τ) : UInt32 :=
  let drop := (s.uart.ports q).dropRxBytes
  match s.pc with
  | .turns _ => drop
  | .refused q' readLen _ => if q' = q then drop + readLen else drop
  | .loaded q' readLen value _ => if q' = q then value + readLen else drop
  | .added q' value _ => if q' = q then value else drop

/-- A step counts what it misses and refuses, but for what is lost in it. -/
def Balanced (q : Fin uartPortCount) (s s' : Sys η τ) (evs : List Event) : Prop :=
  settled q s' + UInt32.ofNat (lost q evs) = settled q s + UInt32.ofNat (missed q evs + refusedBytes q evs)

theorem Balanced.quiet {q : Fin uartPortCount} {s s' : Sys η τ} (h : settled q s' = settled q s) :
    Balanced q s s' [] := congrArg (· + 0) h

theorem settled_same {q : Fin uartPortCount} {s s' : Sys η τ} (hpc : s'.pc = s.pc)
    (hd : (s'.uart.ports q).dropRxBytes = (s.uart.ports q).dropRxBytes) : settled q s' = settled q s := by
  unfold settled
  rw [hpc, hd]

/-- A byte without room for it counts where the statement is not under way. -/
theorem settled_missed {q : Fin uartPortCount} {s s' : Sys η τ} (hpc : s'.pc = s.pc)
    (hd : (s'.uart.ports q).dropRxBytes = (s.uart.ports q).dropRxBytes + 1) :
    settled q s' + (if s.pc.open q then 1 else 0) = settled q s + 1 := by
  unfold settled Pc.open
  rw [hpc, hd]
  cases s.pc with
  | turns => simp
  | refused q' readLen ps =>
    by_cases hq : q' = q
    · simp only [hq, if_true, Bool.false_eq_true, if_false]
      ac_rfl
    · simp [hq]
  | loaded q' readLen value ps =>
    by_cases hq : q' = q
    · simp [hq]
    · simp [hq]
  | added q' value ps =>
    by_cases hq : q' = q
    · simp [hq]
    · simp [hq]

theorem irqRxByte_full {s : State η} {logicPort data : UInt8} {q : Fin uartPortCount} (hl : getPort logicPort = some q)
    (hf : Full s q data) :
    irqRxByte s logicPort data = s.modify q fun port => { port with dropRxBytes := port.dropRxBytes + 1 } := by
  simp [irqRxByte, hl, hf.1, hf.2]

/-- A byte that finds room, or a port that is not open, is not counted as dropped. -/
theorem irqRxByte_room {s : State η} {logicPort data : UInt8}
    (hf : ∀ q, getPort logicPort = some q → ¬ Full s q data) (q : Fin uartPortCount) :
    ((irqRxByte s logicPort data).ports q).dropRxBytes = (s.ports q).dropRxBytes := by
  unfold irqRxByte
  cases hl : getPort logicPort with
  | none => rfl
  | some q' =>
    by_cases hs : (s.ports q').state = .opened
    · simp only [hs, ne_eq, not_true_eq_false, if_false]
      cases hp : (s.ports q').rxRb.pushByte data with
      | none => exact absurd ⟨hs, hp⟩ (hf q' hl)
      | some rb =>
        by_cases hq : q = q'
        · subst hq
          simp
        · simp [modify_of_ne _ _ hq]
    · simp [hs]

theorem irqRx_balanced (q : Fin uartPortCount) (s : Sys η τ) (logicPort data : UInt8) :
    let r := step usb s (.irqRx logicPort data)
    Balanced q s r.1 r.2 := by
  have hroom (h : ∀ q', getPort logicPort = some q' → ¬ Full s.uart q' data) :
      Balanced q s { s with uart := irqRxByte s.uart logicPort data } [] :=
    .quiet (settled_same rfl (irqRxByte_room h q))
  simp only [step]
  cases hl : getPort logicPort with
  | none => exact hroom fun q' h => by rw [hl] at h; cases h
  | some q' =>
    by_cases hf : Full s.uart q' data
    · simp only [if_pos hf, irqRxByte_full hl hf, Balanced]
      let counted : Sys η τ :=
        { s with uart := s.uart.modify q' fun port => { port with dropRxBytes := port.dropRxBytes + 1 } }
      by_cases hq : q' = q
      · subst hq
        have hmissed : settled q' counted + (if s.pc.open q' then 1 else 0) = settled q' s + 1 :=
          settled_missed rfl (by simp [counted])
        cases ho : s.pc.open q' <;> simpa [ho, missed, lost, refusedBytes] using hmissed
      · have hsame : settled q counted = settled q s :=
          settled_same rfl (by simp [counted, modify_of_ne _ _ (Ne.symm hq)])
        simp [counted, hsame, hq, missed, lost, refusedBytes]
    · simp only [if_neg hf]
      exact hroom fun q'' h => by
        cases hl.symm.trans h
        exact hf

theorem toUInt32_ofNat {n : Nat} (h : n < 2 ^ 16) : (UInt16.ofNat n).toUInt32 = UInt32.ofNat n := by
  rw [← UInt32.toNat_inj]
  simp
  omega

theorem turn_balanced (q : Fin uartPortCount) (s : Sys η τ) (p : Fin uartPortCount) (ps : List (Fin uartPortCount))
    (hpc : s.pc = .turns (p :: ps)) : Balanced q s (turn usb s p ps).1 (turn usb s p ps).2 := by
  have hdrop (rb : RingBuffer) :
      ((s.uart.modify p ({ · with rxRb := rb })).ports q).dropRxBytes = (s.uart.ports q).dropRxBytes := by
    by_cases hq : q = p
    · subst hq
      simp
    · simp [modify_of_ne _ _ hq]
  have hlen : ((s.uart.ports p).rxRb.read uartUsbChunkSize).2.length < 2 ^ 16 := by
    have h1 : ((s.uart.ports p).rxRb.read uartUsbChunkSize).2 = _ := ((s.uart.ports p).rxRb.readLoop_toList 64).1
    have := List.length_take_le 64 (s.uart.ports p).rxRb.toList
    rw [h1]
    omega
  have hsettled : settled q s = (s.uart.ports q).dropRxBytes := by
    unfold settled
    rw [hpc]
  unfold turn
  split
  · exact .quiet (by rw [hsettled]; rfl)
  dsimp only
  split
  · exact .quiet (by rw [hsettled]; exact hdrop _)
  · rw [toUInt32_ofNat hlen]
    generalize usb s.tx _ = a
    unfold Balanced
    rw [hsettled]
    cases ha : a.2 with
    | true => simp [settled, hdrop, missed, lost, refusedBytes]
    | false =>
      by_cases hp : p = q
      · simp [settled, hp, missed, lost, refusedBytes]
      · simp [settled, hdrop, hp, missed, lost, refusedBytes]

theorem step_balanced (q : Fin uartPortCount) (s : Sys η τ) (i : Input) :
    Balanced q s (step usb s i).1 (step usb s i).2 := by
  cases i with
  | irqRx logicPort data => exact irqRx_balanced usb q s logicPort data
  | foreground =>
    simp only [step, access]
    split
    · next hpc => exact .quiet (by simp only [settled, hpc])
    · next p ps hpc => exact turn_balanced usb q s p ps hpc
    · next q' readLen ps hpc =>
      refine .quiet ?_
      simp only [settled, hpc]
      split
      · next hq => rw [hq]
      · rfl
    · next q' readLen value ps hpc => exact .quiet (by simp only [settled, hpc])
    · next q' value ps hpc =>
      refine .quiet ?_
      simp only [settled, hpc]
      split
      · next hq =>
        rw [hq, modify_self]
      · next hq => rw [modify_of_ne _ _ (Ne.symm hq)]

/-- What holds of a run so far: all that was missed and refused is counted, but for what was lost. -/
theorem run_balanced (q : Fin uartPortCount) (s : Sys η τ) (is : List Input) :
    Balanced q s (Mealy.run (step usb) s is) (Mealy.outs (step usb) s is) := by
  have hkeep (s' : Sys η τ) (tr : List Event) (i : Input) (h : Balanced q s s' tr) :
      Balanced q s (step usb s' i).1 (tr ++ (step usb s' i).2) := by
    have hi := step_balanced usb q s' i
    unfold Balanced at h hi ⊢
    simp only [lost_append, missed_append, refusedBytes_append, UInt32.ofNat_add] at h hi ⊢
    grind
  have hstart : Balanced q s s [] := rfl
  exact Mealy.history_run (J := fun s' tr => Balanced q s s' tr) hkeep hstart is

/-- **The drop counter.** Over a run between two passes of the loop head the
counter of a port grows, modulo 2^32, by the bytes that found no room and the
bytes of refused chunks, exactly if the number of the bytes that found no room
between a load and its store is a multiple of 2^32. -/
theorem drops_counted_iff (s : Sys η τ) {ps : List (Fin uartPortCount)} (hs : s.pc = .turns ps) (is : List Input)
    {ps' : List (Fin uartPortCount)} (he : (Mealy.run (step usb) s is).pc = .turns ps') (q : Fin uartPortCount) :
    let s' := Mealy.run (step usb) s is
    let tr := Mealy.outs (step usb) s is
    (s'.uart.ports q).dropRxBytes - (s.uart.ports q).dropRxBytes = UInt32.ofNat (missed q tr + refusedBytes q tr) ↔
      2 ^ 32 ∣ lost q tr := by
  intro s' tr
  have hb : Balanced q s s' tr := run_balanced usb q s is
  simp only [Balanced, settled, hs, show s'.pc = _ from he] at hb
  rw [Nat.dvd_iff_mod_eq_zero]
  have h0 : UInt32.ofNat (lost q tr) = 0 ↔ lost q tr % 2 ^ 32 = 0 := by
    rw [← UInt32.toNat_inj]
    simp
  rw [← h0]
  constructor
  · intro h
    grind
  · intro h
    rw [h, UInt32.add_zero] at hb
    rw [hb]
    grind

/-- A scheduler that takes nothing. -/
def refusing : Usb Unit := fun t _ => (t, false)

/-- Port `q` open, with 255 bytes in its receive ring. -/
def filled (q : Fin uartPortCount) : Sys Unit Unit where
  uart := (init uartMapCfg ()).modify q fun port =>
    { port with state := .opened, rxRb := (port.rxRb.write (some (List.replicate 255 0)) 255).1 }
  tx := ()
  pc := .turns []

/-- The first 64 bytes are refused, and the line fills the ring again; then a
byte comes, before the counter is read or after. -/
def overload (before : Bool) : List Input :=
  [.foreground, .foreground] ++ List.replicate 64 (.irqRx 0 1) ++
    (if before then [.irqRx 0 2, .foreground, .foreground, .foreground]
      else [.foreground, .irqRx 0 2, .foreground, .foreground])

/-- The byte that comes before the load is counted. -/
theorem drops_counted_iff_before :
    let s' := Mealy.run (step refusing) (filled 0) (overload true)
    let tr := Mealy.outs (step refusing) (filled 0) (overload true)
    (s'.uart.ports 0).dropRxBytes - ((filled 0).uart.ports 0).dropRxBytes =
        UInt32.ofNat (missed 0 tr + refusedBytes 0 tr) ↔
      2 ^ 32 ∣ lost 0 tr :=
  drops_counted_iff refusing (filled 0) rfl (overload true) (show _ = Pc.turns [1, 2, 3] by decide +kernel) 0

/-- The byte that comes after it is not: 65 bytes are gone, and 64 are counted. -/
theorem byte_uncounted :
    let s' := Mealy.run (step refusing) (filled 0) (overload false)
    let tr := Mealy.outs (step refusing) (filled 0) (overload false)
    ((filled 0).uart.ports 0).state = .opened ∧ s'.pc = .turns [1, 2, 3] ∧ missed 0 tr = 1 ∧ refusedBytes 0 tr = 64 ∧
      (s'.uart.ports 0).dropRxBytes - ((filled 0).uart.ports 0).dropRxBytes = 64 := by
  refine ⟨rfl, ?_, ?_, ?_, ?_⟩
  all_goals decide +kernel

end UsbMux.DropRace
