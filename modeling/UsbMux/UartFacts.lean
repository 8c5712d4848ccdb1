/-
What the functions of the UART manager do to the four port contexts: one
lemma for each of them, and for a control command one case for each way it
can end (`Handled`). Invariants and counters are proved from these cases.
-/
import UsbMux.UartMgr

namespace UsbMux.UartMgr

open UsbTx

variable {η τ : Type}

/-! ## One port changed -/

@[simp] theorem modify_self (s : State η) (p : Fin uartPortCount) (f : PortCtx → PortCtx) :
    (s.modify p f).ports p = f (s.ports p) := by simp [State.modify]

theorem modify_of_ne (s : State η) {p q : Fin uartPortCount} (f : PortCtx → PortCtx) (h : q ≠ p) :
    (s.modify p f).ports q = s.ports q := by simp [State.modify, h]

theorem modify_modify (s : State η) (p : Fin uartPortCount) (f g : PortCtx → PortCtx) :
    (s.modify p f).modify p g = s.modify p (g ∘ f) := by simp [State.modify]

theorem getPort_ofNat (p : Fin uartPortCount) : getPort (UInt8.ofNat p) = some p := by
  revert p
  decide

theorem getPort_toNat {logicPort : UInt8} {p : Fin uartPortCount} (h : getPort logicPort = some p) :
    logicPort = UInt8.ofNat p := by
  unfold getPort at h
  split at h
  · cases h
    exact (UInt8.ofNat_toNat).symm
  · cases h

/-! ## Control commands -/

section Ctrl

variable (drv : UartPort η)

theorem openPort_eq (s : State η) (p : Fin uartPortCount) (c : LineCoding) :
    openPort drv s p c =
      if (callOpen drv s p c).2 ≠ .ok then
        ((callOpen drv s p c).1.modify p ({ · with state := .error }), (callOpen drv s p c).2)
      else ((callOpen drv s p c).1.modify p fun port => { port.setLineCoding c with state := .opened }, .ok) := by
  have hcall : callOpen drv (s.modify p ({ · with state := .opening })) p c =
      ((callOpen drv s p c).1.modify p ({ · with state := .opening }), (callOpen drv s p c).2) := by
    unfold callOpen
    rw [modify_self]
    rfl
  unfold openPort
  rw [hcall]
  simp only [modify_modify]
  rfl

/-- How a control command can end: the state it leaves and the status of its answer. -/
inductive Handled (s : State η) (hdr : VpHdr) (payload : Ptr UInt8) (payloadLen : UInt16) : State η → VpStatus → Prop
  | same (status : VpStatus) : Handled s hdr payload payloadLen s status
  | opened {p : Fin uartPortCount} {c : LineCoding} (hop : VpUartOpcode.ofCode hdr.opcode = some .openPort)
      (hp : getPort hdr.chId = some p) (hs : (s.ports p).state = .closed ∨ (s.ports p).state = .error)
      (hc : parseLineCoding payload payloadLen = .ok c) (hok : (callOpen drv s p c).2 = .ok) :
      Handled s hdr payload payloadLen
        ((callOpen drv s p c).1.modify p fun port => { port.setLineCoding c with state := .opened }) .ok
  | openFailed {p : Fin uartPortCount} {c : LineCoding} (hop : VpUartOpcode.ofCode hdr.opcode = some .openPort)
      (hp : getPort hdr.chId = some p) (hs : (s.ports p).state = .closed ∨ (s.ports p).state = .error)
      (hc : parseLineCoding payload payloadLen = .ok c) (hok : (callOpen drv s p c).2 ≠ .ok) :
      Handled s hdr payload payloadLen ((callOpen drv s p c).1.modify p ({ · with state := .error }))
        (callOpen drv s p c).2
  | closed {p : Fin uartPortCount} (hop : VpUartOpcode.ofCode hdr.opcode = some .close)
      (hp : getPort hdr.chId = some p) (hs : (s.ports p).state ≠ .disabled) :
      Handled s hdr payload payloadLen
        (({ s with hw := drv.close s.hw (s.ports p).logicPort } : State η).modify p fun port =>
          { port with rxRb := port.rxRb.reset, txRb := port.txRb.reset, state := .closed }) .ok
  | recoded {p : Fin uartPortCount} {c : LineCoding} (hop : VpUartOpcode.ofCode hdr.opcode = some .setLineCoding)
      (hp : getPort hdr.chId = some p) (hs : (s.ports p).state = .opened)
      (hc : parseLineCoding payload payloadLen = .ok c) (hok : (callOpen drv s p c).2 = .ok) :
      Handled s hdr payload payloadLen ((callOpen drv s p c).1.modify p (·.setLineCoding c)) .ok
  | recodeFailed {p : Fin uartPortCount} {c : LineCoding}
      (hop : VpUartOpcode.ofCode hdr.opcode = some .setLineCoding)
      (hp : getPort hdr.chId = some p) (hs : (s.ports p).state = .opened)
      (hc : parseLineCoding payload payloadLen = .ok c) (hok : (callOpen drv s p c).2 ≠ .ok) :
      Handled s hdr payload payloadLen (callOpen drv s p c).1 (callOpen drv s p c).2
  | flushedRx {p : Fin uartPortCount} (hop : VpUartOpcode.ofCode hdr.opcode = some .flushRx)
      (hp : getPort hdr.chId = some p) (hs : (s.ports p).state ≠ .disabled) :
      Handled s hdr payload payloadLen (s.modify p fun port => { port with rxRb := port.rxRb.reset }) .ok
  | flushedTx {p : Fin uartPortCount} (hop : VpUartOpcode.ofCode hdr.opcode = some .flushTx)
      (hp : getPort hdr.chId = some p) (hs : (s.ports p).state ≠ .disabled) :
      Handled s hdr payload payloadLen (s.modify p fun port => { port with txRb := port.txRb.reset }) .ok

theorem validateCtrlPort_ok {s : State η} {hdr : VpHdr} {p : Fin uartPortCount}
    (h : validateCtrlPort s hdr = .ok p) : getPort hdr.chId = some p ∧ (s.ports p).state ≠ .disabled := by
  unfold validateCtrlPort at h
  split at h
  · cases h
  · next q hq =>
    split at h
    · cases h
    · next hs =>
      cases h
      exact ⟨hq, hs⟩

/-- **Every control command** ends in one of these ways and is answered once, with the status of that way. -/
theorem handleCtrl_handled (map : Map) (s : State η) (hdr : VpHdr) (payload : Ptr UInt8) (payloadLen : UInt16) :
    ∃ status rsp rspLen, (handleCtrl drv map s hdr payload payloadLen).2 = [.rsp hdr status rsp rspLen] ∧
      Handled drv s hdr payload payloadLen (handleCtrl drv map s hdr payload payloadLen).1 status := by
  unfold handleCtrl
  split
  · exact ⟨_, _, _, rfl, .same _⟩
  next p hv =>
  obtain ⟨hp, hs⟩ := validateCtrlPort_ok hv
  split
  · split
    · exact ⟨_, _, _, rfl, .same _⟩
    · exact ⟨_, _, _, rfl, .same _⟩
  · split
    · exact ⟨_, _, _, rfl, .same _⟩
    · exact ⟨_, _, _, rfl, .same _⟩
  · next hop =>
    split
    · exact ⟨_, _, _, rfl, .same _⟩
    · next c hc =>
      split
      · exact ⟨_, _, _, rfl, .same _⟩
      · next hst =>
        have hst : (s.ports p).state = .closed ∨ (s.ports p).state = .error := by tauto
        rw [openPort_eq]
        by_cases hok : (callOpen drv s p c).2 = .ok
        · rw [if_neg (not_not.mpr hok)]
          exact ⟨_, _, _, rfl, .opened hop hp hst hc hok⟩
        · rw [if_pos hok]
          exact ⟨_, _, _, rfl, .openFailed hop hp hst hc hok⟩
  · next hop => exact ⟨_, _, _, rfl, .closed hop hp hs⟩
  · next hop =>
    split
    · exact ⟨_, _, _, rfl, .same _⟩
    · next c hc =>
      split
      · exact ⟨_, _, _, rfl, .same _⟩
      · next hst =>
        have hst : (s.ports p).state = .opened := not_not.mp hst
        by_cases hok : (callOpen drv s p c).2 = .ok
        · refine ⟨_, _, _, rfl, ?_⟩
          simp only [hok, if_true]
          exact .recoded hop hp hst hc hok
        · refine ⟨_, _, _, rfl, ?_⟩
          simp only [if_neg hok]
          exact .recodeFailed hop hp hst hc hok
  · split
    · exact ⟨_, _, _, rfl, .same _⟩
    · exact ⟨_, _, _, rfl, .same _⟩
  · next hop => exact ⟨_, _, _, rfl, .flushedRx hop hp hs⟩
  · next hop => exact ⟨_, _, _, rfl, .flushedTx hop hp hs⟩
  · exact ⟨_, _, _, rfl, .same _⟩

/-- The port after CLOSE. -/
def PortCtx.closed (port : PortCtx) : PortCtx :=
  { port with rxRb := port.rxRb.reset, txRb := port.txRb.reset, state := .closed }

/-- What a command can do to a port that is open: nothing, change its line
coding, or empty its rings by the three commands that do. -/
theorem Handled.of_opened {drv : UartPort η} {s s' : State η} {hdr : VpHdr} {payload : Ptr UInt8} {payloadLen : UInt16}
    {status : VpStatus} (h : Handled drv s hdr payload payloadLen s' status) {p : Fin uartPortCount}
    (ho : (s.ports p).state = .opened) :
    s'.ports p = s.ports p ∨ (∃ c, s'.ports p = (s.ports p).setLineCoding c) ∨
    (getPort hdr.chId = some p ∧
      ((VpUartOpcode.ofCode hdr.opcode = some .close ∧ s'.ports p = (s.ports p).closed) ∨
      (VpUartOpcode.ofCode hdr.opcode = some .flushRx ∧
        s'.ports p = { s.ports p with rxRb := (s.ports p).rxRb.reset }) ∨
      (VpUartOpcode.ofCode hdr.opcode = some .flushTx ∧
        s'.ports p = { s.ports p with txRb := (s.ports p).txRb.reset }))) := by
  -- a command for another port `q` changes that port only
  cases h with
  | same => exact .inl rfl
  | @opened q c hop hp hs =>
    by_cases he : p = q
    · subst he
      rw [ho] at hs
      simp at hs
    · exact .inl (modify_of_ne (callOpen drv s q c).1 _ he)
  | @openFailed q c hop hp hs =>
    by_cases he : p = q
    · subst he
      rw [ho] at hs
      simp at hs
    · exact .inl (modify_of_ne (callOpen drv s q c).1 _ he)
  | @closed q hop hp =>
    by_cases he : p = q
    · subst he
      exact .inr (.inr ⟨hp, .inl ⟨hop, modify_self ..⟩⟩)
    · exact .inl (modify_of_ne _ _ he)
  | @recoded q c hop hp =>
    by_cases he : p = q
    · subst he
      exact .inr (.inl ⟨c, modify_self ..⟩)
    · exact .inl (modify_of_ne (callOpen drv s q c).1 _ he)
  | recodeFailed => exact .inl rfl
  | @flushedRx q hop hp =>
    by_cases he : p = q
    · subst he
      exact .inr (.inr ⟨hp, .inr (.inl ⟨hop, modify_self ..⟩)⟩)
    · exact .inl (modify_of_ne _ _ he)
  | @flushedTx q hop hp =>
    by_cases he : p = q
    · subst he
      exact .inr (.inr ⟨hp, .inr (.inr ⟨hop, modify_self ..⟩)⟩)
    · exact .inl (modify_of_ne _ _ he)

/-! ## Writes from the host -/

/-- The port after a write of `payloadLen` bytes to its ring. -/
def PortCtx.written (port : PortCtx) (payload : Ptr UInt8) (payloadLen : UInt16) : PortCtx :=
  let w := port.txRb.write payload payloadLen
  { port with
    txRb := w.1
    dropTxBytes := if w.2 < payloadLen then port.dropTxBytes + (payloadLen - w.2).toUInt32 else port.dropTxBytes }

/-- A write to a port that is not open changes nothing; on an open port the
ring takes what fits, the rest is counted and the driver is kicked. -/
theorem writeFromHost_cases (s : State η) (logicPort : UInt8) (payload : Ptr UInt8) (payloadLen : UInt16) :
    ((writeFromHost drv s logicPort payload payloadLen).1 = s ∧
      ∀ p, getPort logicPort = some p → (s.ports p).state ≠ .opened) ∨
    ∃ p, getPort logicPort = some p ∧ (s.ports p).state = .opened ∧
      writeFromHost drv s logicPort payload payloadLen =
        ({ s.modify p (·.written payload payloadLen) with hw := drv.tryKickTx s.hw logicPort },
          if ((s.ports p).txRb.write payload payloadLen).2 = payloadLen then .ok else .errOverflow) := by
  unfold writeFromHost
  cases hp : getPort logicPort with
  | none => exact .inl ⟨rfl, by simp⟩
  | some p =>
    by_cases hs : (s.ports p).state = .opened
    · refine .inr ⟨p, rfl, hs, ?_⟩
      simp only [hs, reduceCtorEq, ne_eq, not_true_eq_false, if_false]
      rfl
    · refine .inl ⟨?_, ?_⟩
      · simp only [ne_eq, hs, not_false_eq_true, if_true]
        split
        · rfl
        · rfl
      · intro q hq
        cases hq
        exact hs

end Ctrl

/-! ## The foreground loop -/

section Process

variable (usb : Usb τ)

theorem processPort_not_opened {s : State η} {p : Fin uartPortCount} (h : (s.ports p).state ≠ .opened) (t : τ) :
    processPort usb s t p = (s, t, []) := if_pos h

/-- The call that offers what was read from the ring of a port. -/
def offer (p : Fin uartPortCount) (chunk : List UInt8) : Enqueue :=
  .data VpChannelType.uartData.code (UInt8.ofNat p) (some chunk) (UInt16.ofNat chunk.length)

theorem processPort_empty {s : State η} {p : Fin uartPortCount} (h : (s.ports p).state = .opened)
    (he : (s.ports p).rxRb.toList = []) (t : τ) : processPort usb s t p = (s, t, []) := by
  have hread : (s.ports p).rxRb.read uartUsbChunkSize = ((s.ports p).rxRb, []) := by
    rcases (s.ports p).rxRb.popByte_toList with ⟨hp, -⟩ | ⟨b, rb, -, hl, -⟩
    · simp only [RingBuffer.read]
      rw [show uartUsbChunkSize.toNat = 63 + 1 from rfl, RingBuffer.readLoop, hp]
    · rw [he] at hl
      cases hl
  unfold processPort
  rw [if_neg (not_not.mpr h), hread]
  simp [State.modify]

/-- An open port offers the first 64 bytes of its ring, or all; they have left
the ring whatever the answer, and are counted as dropped when it is no. -/
theorem processPort_offer {s : State η} {p : Fin uartPortCount} (h : (s.ports p).state = .opened)
    (he : (s.ports p).rxRb.toList ≠ []) (t : τ) :
    let chunk := (s.ports p).rxRb.toList.take 64
    let a := usb t (offer p chunk)
    ∃ rb : RingBuffer, rb.toList = (s.ports p).rxRb.toList.drop 64 ∧ rb.size = (s.ports p).rxRb.size ∧
      processPort usb s t p = (s.modify p fun port => { port with
        rxRb := rb
        dropRxBytes := if a.2 then port.dropRxBytes else port.dropRxBytes + UInt32.ofNat chunk.length },
        a.1, [⟨p, chunk, a.2⟩]) := by
  intro chunk a
  obtain ⟨h1, h2, h3⟩ := (s.ports p).rxRb.readLoop_toList 64
  have hlen : chunk.length ≤ 64 := List.length_take_le ..
  have hpos : chunk.length ≠ 0 := by
    rw [Ne, List.length_eq_zero_iff, List.take_eq_nil_iff]
    simpa using he
  have h0 : UInt16.ofNat chunk.length ≠ 0 := by
    intro h0
    have := congrArg UInt16.toNat h0
    simp at this
    omega
  have h32 : (UInt16.ofNat chunk.length).toUInt32 = UInt32.ofNat chunk.length := by
    rw [← UInt32.toNat_inj]
    simp
    omega
  refine ⟨((s.ports p).rxRb.readLoop 64).1, h2, h3, ?_⟩
  have hread : (s.ports p).rxRb.read uartUsbChunkSize = (((s.ports p).rxRb.readLoop 64).1, chunk) := Prod.ext rfl h1
  unfold processPort
  simp only [if_neg (not_not.mpr h), hread, if_neg h0, h32]
  have hcall : usb t (.data VpChannelType.uartData.code (UInt8.ofNat p) (some chunk) (UInt16.ofNat chunk.length)) = a :=
    rfl
  rw [hcall]
  cases ha : a.2 with
  | true => simp
  | false => simp [modify_modify, Function.comp_def]

/-- **Loop rule.** What every turn of the loop keeps, with the calls it adds
to those before, the loop keeps. -/
theorem processPorts_rule {J : State η → τ → List DataCall → Prop}
    (hturn : ∀ s t cs p, J s t cs → J (processPort usb s t p).1 (processPort usb s t p).2.1
      (cs ++ (processPort usb s t p).2.2)) {s : State η} {t : τ} {cs : List DataCall} (h : J s t cs)
    (ps : List (Fin uartPortCount)) :
    J (processPorts usb s t ps).1 (processPorts usb s t ps).2.1 (cs ++ (processPorts usb s t ps).2.2) := by
  induction ps generalizing s t cs with
  | nil => simpa [processPorts] using h
  | cons p ps ih =>
    have := ih (hturn s t cs p h)
    simpa [processPorts, List.append_assoc] using this

theorem process_rule {J : State η → τ → List DataCall → Prop}
    (hturn : ∀ s t cs p, J s t cs → J (processPort usb s t p).1 (processPort usb s t p).2.1
      (cs ++ (processPort usb s t p).2.2)) {s : State η} {t : τ} (h : J s t []) :
    J (process usb s t).1 (process usb s t).2.1 (process usb s t).2.2 :=
  processPorts_rule usb hturn h (List.finRange uartPortCount)

end Process

/-! ## Interrupts -/

/-- A byte from the line goes into the ring of an open port and is counted,
or is counted as dropped where the ring is full. -/
theorem irqRxByte_cases (s : State η) (logicPort data : UInt8) :
    (irqRxByte s logicPort data = s ∧ ∀ p, getPort logicPort = some p → (s.ports p).state ≠ .opened) ∨
    ∃ p, getPort logicPort = some p ∧ (s.ports p).state = .opened ∧
      ((irqRxByte s logicPort data = s.modify p (fun port => { port with dropRxBytes := port.dropRxBytes + 1 })) ∨
      ∃ rb : RingBuffer, rb.toList = (s.ports p).rxRb.toList ++ [data] ∧
        irqRxByte s logicPort data = s.modify p fun port => { port with rxRb := rb, rxBytes := port.rxBytes + 1 }) := by
  unfold irqRxByte
  cases hp : getPort logicPort with
  | none => exact .inl ⟨rfl, by simp⟩
  | some p =>
    by_cases hs : (s.ports p).state = .opened
    · refine .inr ⟨p, rfl, hs, ?_⟩
      simp only [hs, ne_eq, not_true_eq_false, if_false]
      cases hb : (s.ports p).rxRb.pushByte data with
      | none => exact .inl rfl
      | some rb => exact .inr ⟨rb, (RingBuffer.pushByte_toList hb).1, rfl⟩
    · refine .inl ⟨by simp only [ne_eq, hs, not_false_eq_true, if_true], ?_⟩
      intro q hq
      cases hq
      exact hs

/-- A byte for the line is the oldest of the ring of an open port, and is
counted; where there is none the state is as it was. -/
theorem irqTxNextByte_cases (s : State η) (logicPort : UInt8) :
    (irqTxNextByte s logicPort = (s, none) ∧
      ∀ p, getPort logicPort = some p → (s.ports p).state = .opened → (s.ports p).txRb.toList = []) ∨
    ∃ p b, ∃ rb : RingBuffer, getPort logicPort = some p ∧ (s.ports p).state = .opened ∧
      (s.ports p).txRb.toList = b :: rb.toList ∧
      irqTxNextByte s logicPort =
        (s.modify p fun port => { port with txRb := rb, txBytes := port.txBytes + 1 }, some b) := by
  unfold irqTxNextByte
  cases hp : getPort logicPort with
  | none => exact .inl ⟨rfl, by simp⟩
  | some p =>
    by_cases hs : (s.ports p).state = .opened
    · simp only [hs, ne_eq, not_true_eq_false, if_false]
      rcases (s.ports p).txRb.popByte_toList with ⟨hb, hl⟩ | ⟨b, rb, hb, hl, -⟩
      · refine .inl ⟨by rw [hb], ?_⟩
        intro q hq _
        cases hq
        exact hl
      · exact .inr ⟨p, b, rb, rfl, hs, hl, by rw [hb]⟩
    · refine .inl ⟨by simp only [ne_eq, hs, not_false_eq_true, if_true], ?_⟩
      intro q hq hs'
      cases hq
      exact absurd hs' hs

end UsbMux.UartMgr
