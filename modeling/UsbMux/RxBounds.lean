/-
The bounds of the receive state machine: which states it is in between two
bytes, how far `frame_len` is then, and where in `frame_buf` a byte's
processing writes.

A block ignores a write past its end, so the writes are listed apart from the
machine (`byteWrites`), with the branches of `processByte`, and replayed: they are
all there are if the buffer is what they make of it. The loop of
`USBRX_Process` is taken turn by turn, with pushes between any two turns.
-/
import UsbMux.Lib.Writes
import UsbMux.RxFacts

namespace UsbMux.UsbRx

/-! ## The writes of one byte -/

/-- `frame_buf[frame_len++] = byte`. -/
def storeWrites (f : Fsm) (byte : UInt8) : List (Write UInt8) := [(f.frameLen.toNat, byte)]

/-- The `memmove` of `USBRX_ShiftHeaderWindow`. -/
def shiftWrites (f : Fsm) : List (Write UInt8) :=
  if f.frameLen = 0 then []
  else copyWrites 0 (fun i => f.frameBuf.toList.getD (1 + i) 0) (f.frameLen - 1).toNat

/-- The writes to `frame_buf` in the loop body for one byte. -/
def byteWrites (f : Fsm) (byte : UInt8) : List (Write UInt8) :=
  let f := startFrame f
  if f.state = .drop then []
  else
    let writes := storeWrites f byte
    let f := storeByte f byte
    if f.state = .header then
      if f.frameLen < UInt16.ofNat VP.headerLen then writes
      else if !(parseHeader f.frameBuf.toList).2 then writes ++ shiftWrites f
      else writes
    else writes

theorem shiftHeaderWindow_frameBuf {f : Fsm} (h : f.frameLen.toNat ≤ 512) :
    (shiftHeaderWindow f).frameBuf = f.frameBuf.replay (shiftWrites f) := by
  unfold shiftHeaderWindow shiftWrites
  split
  · rfl
  · next h0 =>
    have hlen := toNat_pred h0
    have hpos : f.frameLen.toNat ≠ 0 := fun h => h0 (UInt16.toNat_inj.mp h)
    rw [Block.replay_copyWrites _ _ (show _ ≤ 512 by omega), ← Block.slice_eq_map _ _ (show _ ≤ 512 by omega)]

theorem finishByte_frameBuf (f : Fsm) : (finishByte f).1.frameBuf = f.frameBuf := by
  simp only [finishByte]
  split <;> split <;> rfl

/-! ## Bounds -/

/-- Where the machine is between two bytes. -/
structure Bounded (f : Fsm) : Prop where
  state : f.state = .idle ∨ f.state = .header ∨ f.state = .payload
  header : f.state = .header → f.frameLen.toNat < 24
  payload : f.state = .payload →
    24 ≤ f.frameLen.toNat ∧ f.frameLen.toNat < f.frameTargetLen.toNat ∧ f.frameTargetLen.toNat ≤ 512

theorem bounded_idle {f : Fsm} (h : f.state = .idle) : Bounded f where
  state := .inl h
  header hs := by rw [h] at hs; cases hs
  payload hs := by rw [h] at hs; cases hs

theorem bounded_header {f : Fsm} (h : f.state = .header) (hlt : f.frameLen.toNat < 24) : Bounded f where
  state := .inr (.inl h)
  header _ := hlt
  payload hs := by rw [h] at hs; cases hs

theorem bounded_payload {f : Fsm} (h : f.state = .payload) (h24 : 24 ≤ f.frameLen.toNat)
    (hlt : f.frameLen.toNat < f.frameTargetLen.toNat) (hmax : f.frameTargetLen.toNat ≤ 512) : Bounded f where
  state := .inr (.inr h)
  header hs := by rw [h] at hs; cases hs
  payload _ := ⟨h24, hlt, hmax⟩

/-- The end of the loop body, on a frame that is complete or still misses bytes. -/
theorem bounded_finishByte {f : Fsm} (hs : f.state = .dispatch ∨ f.state = .payload) (h24 : 24 ≤ f.frameLen.toNat)
    (hmax : f.frameTargetLen.toNat ≤ 512) : Bounded (finishByte f).1 := by
  by_cases hlt : f.state = .payload ∧ f.frameLen.toNat < f.frameTargetLen.toNat
  · obtain ⟨hp, hlt⟩ := hlt
    have hfin : finishByte f = (f, none) := by
      have : ¬ f.frameTargetLen ≤ f.frameLen := by rw [UInt16.le_iff_toNat_le]; omega
      simp [finishByte, hp, this]
    rw [hfin]
    exact bounded_payload hp h24 hlt hmax
  · -- `PAYLOAD` with all bytes there, or `DISPATCH`: the call is made and the machine starts over
    have hidle : (finishByte f).1.state = .idle := by
      rcases hs with hs | hs
      · simp [finishByte, hs, resetFrame]
      · have : f.frameTargetLen ≤ f.frameLen := by
          rw [UInt16.le_iff_toNat_le]
          exact Nat.le_of_not_lt fun h => hlt ⟨hs, h⟩
        simp [finishByte, hs, this, resetFrame]
    exact bounded_idle hidle

/-- One byte's processing: the machine stays in its bounds, and the buffer is
what the listed writes make of it, all of them inside. -/
structure KeepsBounds (f : Fsm) (byte : UInt8) : Prop where
  bounded : Bounded (processByte f byte).1
  inside : ∀ w ∈ byteWrites f byte, w.1 < 512
  frameBuf : (processByte f byte).1.frameBuf = f.frameBuf.replay (byteWrites f byte)

theorem storeByte_frameLen {f : Fsm} (h : f.frameLen.toNat < 512) (byte : UInt8) :
    (storeByte f byte).frameLen.toNat = f.frameLen.toNat + 1 := by
  simp [storeByte]
  omega

theorem shiftHeaderWindow_frameLen {f : Fsm} (h : 0 < f.frameLen.toNat) :
    (shiftHeaderWindow f).frameLen.toNat = f.frameLen.toNat - 1 := by
  have h0 : f.frameLen ≠ 0 := fun h0 => by simp [h0] at h
  rw [shiftHeaderWindow, if_neg h0]
  exact toNat_pred h0

theorem bounded_shiftHeaderWindow {f : Fsm} (hs : f.state = .header) (h24 : f.frameLen.toNat = 24) :
    Bounded (shiftHeaderWindow f) := by
  refine bounded_header ?_ ?_
  · simp only [shiftHeaderWindow]
    split <;> exact hs
  · rw [shiftHeaderWindow_frameLen (by omega)]
    omega

theorem inside_shiftWrites {f : Fsm} (h : f.frameLen.toNat ≤ 512) : ∀ w ∈ shiftWrites f, w.1 < 512 := by
  intro w hm
  unfold shiftWrites at hm
  split at hm
  · cases hm
  · next h0 =>
    have hlt := lt_of_mem_copyWrites hm
    rw [toNat_pred h0] at hlt
    omega

theorem byteWrites_header {f : Fsm} (hs : f.state = .header) (byte : UInt8) :
    byteWrites f byte = storeWrites f byte ++
      if ¬ (storeByte f byte).frameLen < UInt16.ofNat VP.headerLen ∧
          (parseHeader (storeByte f byte).frameBuf.toList).2 = false then shiftWrites (storeByte f byte)
      else [] := by
  have hstart : startFrame f = f := startFrame_of_ne (by rw [hs]; decide)
  have hsb : (storeByte f byte).state = .header := hs
  simp only [byteWrites, hstart, hs, hsb, reduceCtorEq, if_false, if_true]
  by_cases h24 : (storeByte f byte).frameLen < UInt16.ofNat VP.headerLen
  · rw [if_pos h24, if_neg fun h => h.1 h24, List.append_nil]
  rw [if_neg h24]
  cases hok : (parseHeader (storeByte f byte).frameBuf.toList).2 with
  | false =>
    have hshift : ¬ (storeByte f byte).frameLen < UInt16.ofNat VP.headerLen ∧ false = false := ⟨h24, rfl⟩
    rw [if_pos hshift]
    rfl
  | true =>
    have hkeep : ¬ (¬ (storeByte f byte).frameLen < UInt16.ofNat VP.headerLen ∧ true = false) :=
      fun h => Bool.noConfusion h.2
    rw [if_neg hkeep, List.append_nil]
    rfl

theorem byteWrites_payload {f : Fsm} (hs : f.state = .payload) (byte : UInt8) :
    byteWrites f byte = storeWrites f byte := by
  have hstart : startFrame f = f := startFrame_of_ne (by rw [hs]; decide)
  have hsb : (storeByte f byte).state = .payload := hs
  simp only [byteWrites, hstart, hs, hsb, reduceCtorEq, if_false]

theorem inside_storeWrites {f : Fsm} (h : f.frameLen.toNat < 512) (byte : UInt8) :
    ∀ w ∈ storeWrites f byte, w.1 < 512 := by
  intro w hm
  rw [List.mem_singleton.mp hm]
  exact h

theorem keepsBounds_header {f : Fsm} (hs : f.state = .header) (hlt : f.frameLen.toNat < 24) (byte : UInt8) :
    KeepsBounds f byte := by
  have hsb : (storeByte f byte).state = .header := hs
  have hlen := storeByte_frameLen (f := f) (by omega) byte
  have hstore := inside_storeWrites (f := f) (by omega) byte
  have hw := byteWrites_header hs byte
  have hmin (h : ¬ (storeByte f byte).frameLen < UInt16.ofNat VP.headerLen) :
      24 ≤ (storeByte f byte).frameLen.toNat := UInt16.le_iff_toNat_le.mp (UInt16.not_lt.mp h)
  obtain ⟨h24, hp⟩ | ⟨h24, hok, hp⟩ | ⟨h24, hok, s, hs', hp⟩ := processByte_header hs byte
  · rw [if_neg fun h => h.1 h24, List.append_nil] at hw
    refine ⟨?_, hw ▸ hstore, by rw [hp, hw]; rfl⟩
    rw [hp]
    exact bounded_header hsb (UInt16.lt_iff_toNat_lt.mp h24)
  · have hfull : (storeByte f byte).frameLen.toNat = 24 := by
      have := hmin h24
      omega
    rw [if_pos ⟨h24, hok⟩] at hw
    refine ⟨?_, ?_, ?_⟩
    · rw [hp]
      exact bounded_shiftHeaderWindow hsb hfull
    · rw [hw]
      intro w hm
      rcases List.mem_append.mp hm with hm | hm
      · exact hstore w hm
      · exact inside_shiftWrites (by omega) w hm
    · rw [hp, hw, Block.replay_append]
      exact shiftHeaderWindow_frameBuf (show (storeByte f byte).frameLen.toNat ≤ 512 by omega)
  · have hmax : (parseHeader (storeByte f byte).frameBuf.toList).1.totalLen.toNat ≤ 512 := by
      obtain ⟨-, -, -, -, h, -⟩ := (parseHeader_accepts _).mp hok
      exact UInt16.le_iff_toNat_le.mp h
    rw [hok, if_neg fun h => Bool.noConfusion h.2, List.append_nil] at hw
    refine ⟨?_, hw ▸ hstore, ?_⟩
    · rw [hp]
      exact bounded_finishByte (hs'.imp_left And.left) (hmin h24) hmax
    · rw [hp, hw, finishByte_frameBuf]
      rfl

theorem keepsBounds_payload {f : Fsm} (hs : f.state = .payload) (h24 : 24 ≤ f.frameLen.toNat)
    (hlt : f.frameLen.toNat < f.frameTargetLen.toNat) (hmax : f.frameTargetLen.toNat ≤ 512) (byte : UInt8) :
    KeepsBounds f byte := by
  have hsb : (storeByte f byte).state = .payload := hs
  have hlen := storeByte_frameLen (f := f) (by omega) byte
  have hp := processByte_payload hs byte
  have hw := byteWrites_payload hs byte
  refine ⟨?_, hw ▸ inside_storeWrites (by omega) byte, ?_⟩
  · rw [hp]
    exact bounded_finishByte (.inr hsb) (by omega) hmax
  · rw [hp, hw, finishByte_frameBuf]
    rfl

/-- **One byte** keeps the bounds, from any state in them. -/
theorem keepsBounds_processByte {f : Fsm} (h : Bounded f) (byte : UInt8) : KeepsBounds f byte := by
  rcases h.state with hs | hs | hs
  · -- a byte in the idle state is the first one of a header
    have hp := processByte_startFrame f byte
    have hw : byteWrites (startFrame f) byte = byteWrites f byte := by simp only [byteWrites, startFrame_startFrame]
    have hbuf : (startFrame f).frameBuf = f.frameBuf := by simp [startFrame, hs]
    obtain ⟨h1, h2, h3⟩ := keepsBounds_header (f := startFrame f) (by simp [startFrame, hs]) (by simp [startFrame, hs])
      byte
    exact ⟨hp ▸ h1, hw ▸ h2, by rw [← hp, ← hw, h3, hbuf]⟩
  · exact keepsBounds_header hs (h.header hs) byte
  · obtain ⟨h24, hlt, hmax⟩ := h.payload hs
    exact keepsBounds_payload hs h24 hlt hmax byte

/-! ## Runs, turn by turn -/

/-- What happens to the receive path: a push, or one turn of the loop of
`USBRX_Process`, which does nothing when the ring is empty. -/
inductive LoopInput
  | push (data : Ptr UInt8) (len : UInt16)
  | turn

/-- One turn of the loop, with the writes to `frame_buf`. -/
def loopTurn (c : Ctx) : Ctx × List (Write UInt8) :=
  match readByte c with
  | none => (c, [])
  | some (byte, c) => ({ c with fsm := (processByte c.fsm byte).1 }, byteWrites c.fsm byte)

def turnStep : Mealy.Step Ctx LoopInput (Write UInt8)
  | c, .push data len => (pushBytes c data len, [])
  | c, .turn => loopTurn c

theorem processLoop_turns {σ : Type} (obs : σ → UInt8 → Option Dispatch → σ) (n : Nat) (c : Ctx) (s : σ) :
    (processLoop obs n c s).1 = Mealy.run turnStep c (List.replicate n .turn) := by
  induction n generalizing c s with
  | zero => rfl
  | succ n ih =>
    rw [processLoop, List.replicate_succ, Mealy.run_cons]
    cases hr : readByte c with
    | none =>
      -- the ring stays empty: the turns that are left do nothing either
      have hstay : (turnStep c .turn).1 = c := by rw [turnStep, loopTurn, hr]
      have hrest : Mealy.run turnStep c (List.replicate n .turn) = c := by
        rw [← ih c s]
        cases n with
        | zero => rfl
        | succ n => rw [processLoop, hr]
      rw [hstay, hrest]
    | some p =>
      obtain ⟨byte, c'⟩ := p
      have hnext : (turnStep c .turn).1 = { c' with fsm := (processByte c'.fsm byte).1 } := by
        rw [turnStep, loopTurn, hr]
      rw [hnext]
      exact ih _ _

theorem process_turns {σ : Type} (obs : σ → UInt8 → Option Dispatch → σ) (c : Ctx) (s : σ) :
    (process obs c s).1 = Mealy.run turnStep c (List.replicate c.rawRb.size.toNat .turn) :=
  processLoop_turns obs _ c s

theorem readByte_fsm {c c' : Ctx} {byte : UInt8} (h : readByte c = some (byte, c')) : c'.fsm = c.fsm := by
  rw [readByte, Option.map_eq_some_iff] at h
  obtain ⟨p, -, hp⟩ := h
  rw [Prod.mk.injEq] at hp
  rw [← hp.2]

/-- The machine after the writes `ws`, all of them inside. -/
structure WrittenInside (c : Ctx) (ws : List (Write UInt8)) : Prop where
  bounded : Bounded c.fsm
  inside : ∀ w ∈ ws, w.1 < 512
  frameBuf : c.fsm.frameBuf = init.fsm.frameBuf.replay ws

theorem WrittenInside.turnStep {c : Ctx} {ws : List (Write UInt8)} (h : WrittenInside c ws) (i : LoopInput) :
    WrittenInside (turnStep c i).1 (ws ++ (turnStep c i).2) := by
  cases i with
  | push data len =>
    have hf : (pushBytes c data len).fsm = c.fsm := by
      unfold pushBytes
      split <;> rfl
    rw [UsbRx.turnStep, List.append_nil]
    exact ⟨hf ▸ h.bounded, h.inside, hf ▸ h.frameBuf⟩
  | turn =>
    rw [UsbRx.turnStep, loopTurn]
    cases hr : readByte c with
    | none => simpa using h
    | some p =>
      obtain ⟨byte, c'⟩ := p
      have hf := readByte_fsm hr
      obtain ⟨h1, h2, h3⟩ := keepsBounds_processByte (f := c'.fsm) (hf ▸ h.bounded) byte
      refine ⟨h1, fun w hw => ?_, ?_⟩
      · rcases List.mem_append.mp hw with hw | hw
        · exact h.inside w hw
        · exact h2 w hw
      · rw [Block.replay_append, ← h.frameBuf, ← hf]
        exact h3

/-- **The bounds of the receive state machine.** After any pushes and turns
of the loop, in any order, the machine is idle, in a header of less than 24
bytes, or in a payload that is not complete and at most 512 bytes long. Every
write to `frame_buf` was inside, and the buffer is what these writes made of it. -/
theorem rx_bounds (is : List LoopInput) :
    Bounded (Mealy.run turnStep init is).fsm ∧ (∀ w ∈ Mealy.outs turnStep init is, w.1 < 512) ∧
      (Mealy.run turnStep init is).fsm.frameBuf = init.fsm.frameBuf.replay (Mealy.outs turnStep init is) := by
  have hinit : WrittenInside init [] := ⟨bounded_idle rfl, List.forall_mem_nil _, rfl⟩
  obtain ⟨h1, h2, h3⟩ := Mealy.history_run (J := WrittenInside) (fun _ _ i h => h.turnStep i) hinit is
  exact ⟨h1, h2, h3⟩

end UsbMux.UsbRx
