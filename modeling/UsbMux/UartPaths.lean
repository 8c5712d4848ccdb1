/-
The two byte paths of a UART port: from the line through the receive ring
into UART_DATA frames, and from the host through the transmit ring to the
line. Over every run in which the port's ring is not cleared, each path keeps
the order of its bytes, and its counters add up modulo 2^32.

The driver below and the scheduler above are arbitrary, so the frames may be
taken or refused in any pattern.
-/
import Mathlib.Data.List.Flatten
import UsbMux.Lib.Mealy
import UsbMux.UartFacts

namespace UsbMux.UartMgr

open UsbTx

variable {η τ : Type}

/-! ## The machine of all entry points -/

/-- The manager and the scheduler it queues to. -/
structure Sys (η τ : Type) where
  uart : State η
  tx : τ

/-- A call of one of the manager's functions; a write comes with its payload,
whose length is the length argument. -/
inductive Input
  | ctrl (hdr : VpHdr) (payload : Ptr UInt8) (payloadLen : UInt16)
  | write (logicPort : UInt8) (data : List UInt8)
  | process
  | irqRx (logicPort data : UInt8)
  | irqTx (logicPort : UInt8)
deriving DecidableEq

/-- A call of `UartMgr_WriteFromHost`: its payload, the free space of the
ring before it, what the ring took and the answer. -/
structure WriteCall where
  port : Fin uartPortCount
  payload : List UInt8
  payloadLen : UInt16
  free : Nat
  taken : List UInt8
  status : VpStatus
deriving DecidableEq

/-- What is seen of a call: a write, an offer of data, a byte from the line
with what the ring took of it, a byte for the line. -/
inductive Event
  | wrote (call : WriteCall)
  | offered (call : DataCall)
  | received (port : Fin uartPortCount) (byte : UInt8) (taken : List UInt8)
  | sent (port : Fin uartPortCount) (byte : UInt8)
deriving DecidableEq

/-- What a ring holds beyond what it held before. -/
def gained (before after : RingBuffer) : List UInt8 := after.toList.drop before.toList.length

variable (drv : UartPort η) (usb : Usb τ) (map : Map)

/-- One call. -/
def step : Mealy.Step (Sys η τ) Input Event
  | s, .ctrl hdr payload payloadLen =>
    let r := handleCtrl drv map s.uart hdr payload payloadLen
    (⟨r.1, r.2.foldl (fun t call => (usb t call).1) s.tx⟩, [])
  | s, .write logicPort data =>
    let payloadLen := UInt16.ofNat data.length
    let r := writeFromHost drv s.uart logicPort (some data) payloadLen
    ({ s with uart := r.1 }, (getPort logicPort).toList.map fun p =>
      .wrote ⟨p, data, payloadLen, (s.uart.ports p).txRb.space.toNat,
        gained (s.uart.ports p).txRb (r.1.ports p).txRb, r.2⟩)
  | s, .process =>
    let r := process usb s.uart s.tx
    (⟨r.1, r.2.1⟩, r.2.2.map .offered)
  | s, .irqRx logicPort data =>
    let r := irqRxByte s.uart logicPort data
    ({ s with uart := r }, (getPort logicPort).toList.map fun p =>
      .received p data (gained (s.uart.ports p).rxRb (r.ports p).rxRb))
  | s, .irqTx logicPort =>
    let r := irqTxNextByte s.uart logicPort
    ({ s with uart := r.1 }, (getPort logicPort).toList.flatMap fun p => r.2.toList.map (.sent p))

/-! ## Reading a trace -/

section Trace

variable (p : Fin uartPortCount)

/-- All bytes a port was given by `UartMgr_IrqRxByte`. -/
def received (tr : List Event) : List UInt8 :=
  tr.flatMap fun
    | .received q b _ => if q = p then [b] else []
    | _ => []

/-- Those its ring took. -/
def entered (tr : List Event) : List UInt8 :=
  tr.flatMap fun
    | .received q _ taken => if q = p then taken else []
    | _ => []

/-- The calls of `USBTX_QueueData` for a port. -/
def offers (tr : List Event) : List DataCall :=
  tr.flatMap fun
    | .offered c => if c.port = p then [c] else []
    | _ => []

/-- The payloads of its UART_DATA frames that were queued. -/
def frames (tr : List Event) : List (List UInt8) := ((offers p tr).filter (·.accepted)).map (·.data)

/-- The payloads that were refused. -/
def refused (tr : List Event) : List (List UInt8) := ((offers p tr).filter (!·.accepted)).map (·.data)

/-- The calls of `UartMgr_WriteFromHost` for a port. -/
def writes (tr : List Event) : List WriteCall :=
  tr.flatMap fun
    | .wrote c => if c.port = p then [c] else []
    | _ => []

/-- All bytes its ring took from the host. -/
def taken (tr : List Event) : List UInt8 := (writes p tr).flatMap (·.taken)

/-- The bytes `UartMgr_IrqTxNextByte` returned for a port. -/
def sent (tr : List Event) : List UInt8 :=
  tr.flatMap fun
    | .sent q b => if q = p then [b] else []
    | _ => []

variable (tr us : List Event)

@[simp] theorem received_append : received p (tr ++ us) = received p tr ++ received p us := List.flatMap_append
@[simp] theorem entered_append : entered p (tr ++ us) = entered p tr ++ entered p us := List.flatMap_append
@[simp] theorem offers_append : offers p (tr ++ us) = offers p tr ++ offers p us := List.flatMap_append
@[simp] theorem writes_append : writes p (tr ++ us) = writes p tr ++ writes p us := List.flatMap_append
@[simp] theorem sent_append : sent p (tr ++ us) = sent p tr ++ sent p us := List.flatMap_append

/-- What was offered is what was queued and what was refused. -/
theorem length_offers :
    ((offers p tr).flatMap (·.data)).length = (frames p tr).flatten.length + (refused p tr).flatten.length := by
  unfold frames refused
  induction offers p tr with
  | nil => rfl
  | cons c cs ih =>
    cases hc : c.accepted with
    | true => simp [hc] at ih ⊢; omega
    | false => simp [hc] at ih ⊢; omega

/-- The queued frames hold some of the offered bytes, in order. -/
theorem frames_sublist : (frames p tr).flatten.Sublist ((offers p tr).flatMap (·.data)) := by
  unfold frames
  rw [List.flatMap_def]
  exact (List.filter_sublist.map _).flatten

end Trace

/-! ## From the line to the host -/

/-- The fields of a port the receive path uses. -/
def PortCtx.rxSide (port : PortCtx) : PortState × RingBuffer × UInt32 × UInt32 :=
  (port.state, port.rxRb, port.rxBytes, port.dropRxBytes)

/-- A command that empties the receive ring of port `p`. -/
def ClearsRx (p : Fin uartPortCount) : Input → Prop
  | .ctrl hdr _ _ => getPort hdr.chId = some p ∧
      (VpUartOpcode.ofCode hdr.opcode = some .close ∨ VpUartOpcode.ofCode hdr.opcode = some .flushRx)
  | _ => False

instance (p : Fin uartPortCount) (i : Input) : Decidable (ClearsRx p i) := by
  cases i <;> unfold ClearsRx <;> infer_instance

/-- Other commands leave the receive path of an open port alone. -/
theorem handleCtrl_rxSide {s : State η} {p : Fin uartPortCount} (ho : (s.ports p).state = .opened) {hdr : VpHdr}
    {payload : Ptr UInt8} {payloadLen : UInt16} (hc : ¬ ClearsRx p (.ctrl hdr payload payloadLen)) :
    ((handleCtrl drv map s hdr payload payloadLen).1.ports p).rxSide = (s.ports p).rxSide := by
  obtain ⟨status, rsp, rspLen, -, hh⟩ := handleCtrl_handled drv map s hdr payload payloadLen
  rcases hh.of_opened ho with h | ⟨c, h⟩ | ⟨hp, ⟨hop, -⟩ | ⟨hop, -⟩ | ⟨-, h⟩⟩
  · rw [h]
  · rw [h]
    rfl
  · exact absurd ⟨hp, .inl hop⟩ hc
  · exact absurd ⟨hp, .inr hop⟩ hc
  · rw [h]
    rfl

theorem writeFromHost_rxSide (s : State η) (p : Fin uartPortCount) (logicPort : UInt8) (payload : Ptr UInt8)
    (payloadLen : UInt16) :
    ((writeFromHost drv s logicPort payload payloadLen).1.ports p).rxSide = (s.ports p).rxSide := by
  rcases writeFromHost_cases drv s logicPort payload payloadLen with ⟨h, -⟩ | ⟨q, -, -, h⟩
  · rw [h]
  · rw [h]
    by_cases he : p = q
    · subst he
      simp [PortCtx.rxSide, PortCtx.written]
    · simp [modify_of_ne _ _ he]

theorem irqTxNextByte_rxSide (s : State η) (p : Fin uartPortCount) (logicPort : UInt8) :
    ((irqTxNextByte s logicPort).1.ports p).rxSide = (s.ports p).rxSide := by
  rcases irqTxNextByte_cases s logicPort with ⟨h, -⟩ | ⟨q, b, rb, -, -, -, h⟩
  · rw [h]
  · rw [h]
    by_cases he : p = q
    · subst he
      simp [PortCtx.rxSide]
    · simp [modify_of_ne _ _ he]

/-- Where the bytes given to an open port since its ring was empty are, and
what its counters, `rx` and `drop` at that time, say of them. -/
structure RxPath (p : Fin uartPortCount) (rx drop : UInt32) (s : State η) (tr : List Event) : Prop where
  opened : (s.ports p).state = .opened
  ring : entered p tr = (offers p tr).flatMap (·.data) ++ (s.ports p).rxRb.toList
  inOrder : (entered p tr).Sublist (received p tr)
  chunks : ∀ c ∈ offers p tr, 1 ≤ c.data.length ∧ c.data.length ≤ 64
  counted : (s.ports p).rxBytes = rx + UInt32.ofNat (entered p tr).length
  dropped : ∃ missed, (received p tr).length = (entered p tr).length + missed ∧
    (s.ports p).dropRxBytes = drop + UInt32.ofNat (missed + (refused p tr).flatten.length)

section Rx

variable {p : Fin uartPortCount} {rx drop : UInt32} {s s' : State η} {tr us : List Event}

theorem RxPath.start (ho : (s.ports p).state = .opened) (he : (s.ports p).rxRb.toList = []) :
    RxPath p (s.ports p).rxBytes (s.ports p).dropRxBytes s [] :=
  ⟨ho, by rw [he]; rfl, .slnil, by simp [offers], by simp [entered], 0, rfl, by simp [refused, offers]⟩

theorem RxPath.same (h : RxPath p rx drop s tr) (hs : (s'.ports p).rxSide = (s.ports p).rxSide)
    (hr : received p us = []) (he : entered p us = []) (ho : offers p us = []) : RxPath p rx drop s' (tr ++ us) := by
  simp only [PortCtx.rxSide, Prod.mk.injEq] at hs
  obtain ⟨h1, h2, h3, h4⟩ := hs
  have href : refused p (tr ++ us) = refused p tr := by simp [refused, ho]
  refine ⟨h1.trans h.opened, ?_, ?_, ?_, ?_, ?_⟩
  · simpa [he, ho, h2] using h.ring
  · simpa [he, hr] using h.inOrder
  · simpa [ho] using h.chunks
  · simpa [he, h3] using h.counted
  · simpa [he, hr, h4, href] using h.dropped

theorem RxPath.offered (h : RxPath p rx drop s tr) {rb : RingBuffer} {chunk : List UInt8}
    (hring : (s.ports p).rxRb.toList = chunk ++ rb.toList) (h1 : 1 ≤ chunk.length) (h64 : chunk.length ≤ 64)
    (a : Bool) :
    RxPath p rx drop (s.modify p fun port => { port with
      rxRb := rb
      dropRxBytes := if a then port.dropRxBytes else port.dropRxBytes + UInt32.ofNat chunk.length })
      (tr ++ [.offered ⟨p, chunk, a⟩]) := by
  have hrec : received p [.offered ⟨p, chunk, a⟩] = [] := rfl
  have hent : entered p [.offered ⟨p, chunk, a⟩] = [] := rfl
  have hoff : offers p [.offered ⟨p, chunk, a⟩] = [⟨p, chunk, a⟩] := by simp [offers]
  have href : refused p (tr ++ [.offered ⟨p, chunk, a⟩]) = refused p tr ++ if a then [] else [chunk] := by
    unfold refused
    rw [offers_append, hoff, List.filter_append, List.map_append]
    cases a <;> rfl
  obtain ⟨missed, hm, hd⟩ := h.dropped
  refine ⟨by rw [modify_self]; exact h.opened, ?_, ?_, ?_, ?_, missed, ?_, ?_⟩
  · rw [entered_append, hent, offers_append, hoff, h.ring, modify_self, hring]
    simp
  · simpa [hent, hrec] using h.inOrder
  · intro c hc
    rw [offers_append, hoff, List.mem_append, List.mem_singleton] at hc
    rcases hc with hc | rfl
    · exact h.chunks c hc
    · exact ⟨h1, h64⟩
  · simpa [hent] using h.counted
  · simpa [hent, hrec] using hm
  · rw [modify_self, href]
    cases a with
    | true => simpa using hd
    | false =>
      simp only [Bool.false_eq_true, if_false, hd, List.flatten_append, List.length_append, List.flatten_cons,
        List.flatten_nil, List.append_nil, UInt32.ofNat_add]
      ac_rfl

theorem RxPath.processPort (h : RxPath p rx drop s tr) (t : τ) (q : Fin uartPortCount) :
    RxPath p rx drop (processPort usb s t q).1 (tr ++ (processPort usb s t q).2.2.map .offered) := by
  by_cases hq : (s.ports q).state = .opened
  · by_cases he : (s.ports q).rxRb.toList = []
    · rw [processPort_empty usb hq he]
      simpa using h
    · obtain ⟨rb, hrb, -, hr⟩ := processPort_offer usb hq he t
      rw [hr]
      by_cases hpq : p = q
      · subst hpq
        refine h.offered ?_ ?_ (List.length_take_le ..) _
        · rw [hrb, List.take_append_drop]
        · have := List.length_pos_iff.mpr he
          rw [List.length_take]
          omega
      · refine h.same ?_ rfl rfl ?_
        · rw [modify_of_ne _ _ hpq]
        · simp [offers, Ne.symm hpq]
  · rw [processPort_not_opened usb hq]
    simpa using h

theorem RxPath.process (h : RxPath p rx drop s tr) (t : τ) :
    RxPath p rx drop (process usb s t).1 (tr ++ (process usb s t).2.2.map .offered) := by
  refine process_rule (J := fun s _ cs => RxPath p rx drop s (tr ++ cs.map .offered)) usb ?_ ?_
  · intro s t cs q h
    simpa [List.append_assoc] using h.processPort usb t q
  · simpa using h

theorem RxPath.missed (h : RxPath p rx drop s tr) (b : UInt8) :
    RxPath p rx drop (s.modify p fun port => { port with dropRxBytes := port.dropRxBytes + 1 })
      (tr ++ [.received p b []]) := by
  have hrec : received p [.received p b []] = [b] := by simp [received]
  have hent : entered p [.received p b []] = [] := by simp [entered]
  have hoff : offers p [.received p b []] = [] := rfl
  obtain ⟨missed, hm, hd⟩ := h.dropped
  refine ⟨by rw [modify_self]; exact h.opened, ?_, ?_, ?_, ?_, missed + 1, ?_, ?_⟩
  · simpa [hent, hoff] using h.ring
  · simpa [hent, hrec] using h.inOrder.trans (List.sublist_append_left (received p tr) [b])
  · simpa [hoff] using h.chunks
  · simpa [hent] using h.counted
  · simp [hent, hrec]
    omega
  · simp only [modify_self, hd, refused, offers_append, hoff, List.append_nil, UInt32.ofNat_add]
    ac_rfl

theorem RxPath.pushed (h : RxPath p rx drop s tr) {b : UInt8} {rb : RingBuffer}
    (hrb : rb.toList = (s.ports p).rxRb.toList ++ [b]) :
    RxPath p rx drop (s.modify p fun port => { port with rxRb := rb, rxBytes := port.rxBytes + 1 })
      (tr ++ [.received p b [b]]) := by
  have hrec : received p [.received p b [b]] = [b] := by simp [received]
  have hent : entered p [.received p b [b]] = [b] := by simp [entered]
  have hoff : offers p [.received p b [b]] = [] := rfl
  obtain ⟨missed, hm, hd⟩ := h.dropped
  refine ⟨by rw [modify_self]; exact h.opened, ?_, ?_, ?_, ?_, missed, ?_, ?_⟩
  · rw [entered_append, hent, offers_append, hoff, List.append_nil, modify_self, h.ring, hrb, List.append_assoc]
  · rw [entered_append, hent, received_append, hrec]
    exact h.inOrder.append (List.Sublist.refl [b])
  · simpa [hoff] using h.chunks
  · simp only [modify_self, entered_append, hent, h.counted, List.length_append, List.length_singleton,
      UInt32.ofNat_add]
    ac_rfl
  · simp [hent, hrec]
    omega
  · simpa [refused, hoff] using hd

theorem RxPath.irqRxByte (h : RxPath p rx drop s tr) (logicPort b : UInt8) :
    RxPath p rx drop (irqRxByte s logicPort b) (tr ++ (getPort logicPort).toList.map fun q =>
      .received q b (gained (s.ports q).rxRb ((irqRxByte s logicPort b).ports q).rxRb)) := by
  rcases irqRxByte_cases s logicPort b with ⟨he, hno⟩ | ⟨q, hq, ho, hcase⟩
  · rw [he]
    refine h.same rfl ?_ ?_ ?_
    all_goals
      cases hp : getPort logicPort with
      | none => rfl
      | some q =>
        -- the byte is for another port, since that one is not open
        have hne : q ≠ p := fun hqp => hno q hp (hqp ▸ h.opened)
        simp [received, entered, offers, hne]
  · rw [hq, Option.toList_some, List.map_singleton]
    by_cases hpq : p = q
    · subst hpq
      rcases hcase with he | ⟨rb, hrb, he⟩
      · rw [he]
        simpa [gained] using h.missed b
      · rw [he]
        simpa [gained, hrb] using h.pushed hrb
    · refine h.same ?_ ?_ ?_ ?_
      · rcases hcase with he | ⟨rb, -, he⟩ <;> rw [he, modify_of_ne _ _ hpq]
      all_goals simp [received, entered, offers, Ne.symm hpq]

theorem RxPath.step {s : Sys η τ} (h : RxPath p rx drop s.uart tr) {i : Input} (hi : ¬ ClearsRx p i) :
    RxPath p rx drop (step drv usb map s i).1.uart (tr ++ (UartMgr.step drv usb map s i).2) := by
  cases i with
  | ctrl hdr payload payloadLen => exact h.same (handleCtrl_rxSide drv map h.opened hi) rfl rfl rfl
  | write logicPort data =>
    refine h.same (writeFromHost_rxSide ..) ?_ ?_ ?_
    all_goals cases hp : getPort logicPort <;> simp [UartMgr.step, hp, received, entered, offers]
  | process =>
    simp only [UartMgr.step]
    exact h.process usb s.tx
  | irqRx logicPort data => exact h.irqRxByte logicPort data
  | irqTx logicPort =>
    refine h.same (irqTxNextByte_rxSide ..) ?_ ?_ ?_
    all_goals
      cases hp : getPort logicPort <;> cases hb : (irqTxNextByte s.uart logicPort).2 <;>
        simp [UartMgr.step, hp, hb, received, entered, offers]

end Rx

/-- **Receive path.** From any state in which port `p` is open with an empty
receive ring, over every run in which no CLOSE or FLUSH_RX of the port comes:
the queued UART_DATA frames hold received bytes in order, none twice, each
frame between 1 and 64 of them; every received byte is in such a frame, in
the ring or counted as dropped; and the receive counter counts the bytes that
entered the ring. -/
theorem rx_path_accounted (s : Sys η τ) (p : Fin uartPortCount) (ho : (s.uart.ports p).state = .opened)
    (he : (s.uart.ports p).rxRb.toList = []) (is : List Input) (his : ∀ i ∈ is, ¬ ClearsRx p i) :
    let s' := Mealy.run (step drv usb map) s is
    let tr := Mealy.outs (step drv usb map) s is
    (frames p tr).flatten.Sublist (received p tr) ∧
    (∀ f ∈ frames p tr, 1 ≤ f.length ∧ f.length ≤ 64) ∧
    UInt32.ofNat (received p tr).length = UInt32.ofNat (frames p tr).flatten.length +
      UInt32.ofNat (s'.uart.ports p).rxRb.toList.length +
      ((s'.uart.ports p).dropRxBytes - (s.uart.ports p).dropRxBytes) ∧
    (s'.uart.ports p).rxBytes - (s.uart.ports p).rxBytes = UInt32.ofNat (entered p tr).length := by
  intro s' tr
  have h : RxPath p (s.uart.ports p).rxBytes (s.uart.ports p).dropRxBytes s'.uart tr := by
    have := Mealy.history_run_of (C := (¬ ClearsRx p ·))
      (J := fun (s' : Sys η τ) tr => RxPath p (s.uart.ports p).rxBytes (s.uart.ports p).dropRxBytes s'.uart tr)
      (fun _ _ _ hi h => h.step drv usb map hi) (RxPath.start ho he) his
    simpa using this
  have hsub : (frames p tr).flatten.Sublist (entered p tr) := by
    rw [h.ring]
    exact (frames_sublist p tr).trans (List.sublist_append_left _ _)
  refine ⟨hsub.trans h.inOrder, ?_, ?_, ?_⟩
  · intro f hf
    obtain ⟨c, hc, rfl⟩ := List.mem_map.mp hf
    exact h.chunks c (List.mem_of_mem_filter hc)
  · obtain ⟨missed, hm, hd⟩ := h.dropped
    have hlen : (received p tr).length = (frames p tr).flatten.length +
        (s'.uart.ports p).rxRb.toList.length + (missed + (refused p tr).flatten.length) := by
      have h1 := congrArg List.length h.ring
      have h2 := length_offers p tr
      rw [List.length_append] at h1
      omega
    rw [hd, UInt32.add_comm (s.uart.ports p).dropRxBytes, UInt32.add_sub_cancel, hlen, UInt32.ofNat_add,
      UInt32.ofNat_add]
  · rw [h.counted, UInt32.add_comm, UInt32.add_sub_cancel]

/-- Port 1 opened at 115200 baud, two bytes from the line and one queued frame. -/
theorem rx_path_accounted_opened :
    let drv : UartPort Unit := ⟨fun h _ _ _ _ _ => (h, .ok), fun h _ => h, fun h _ => h⟩
    let usb : Usb Unit := fun t _ => (t, true)
    let s : Sys Unit Unit := Mealy.run (step drv usb uartMapCfg) ⟨init uartMapCfg (), ()⟩
      [.ctrl { VpHdr.zero with chId := 1, opcode := 3 } (some [0, 194, 1, 0]) 4]
    let is : List Input := [.irqRx 1 7, .process, .irqRx 1 8, .write 1 [5]]
    let s' := Mealy.run (step drv usb uartMapCfg) s is
    let tr := Mealy.outs (step drv usb uartMapCfg) s is
    (frames 1 tr).flatten.Sublist (received 1 tr) ∧
    (∀ f ∈ frames 1 tr, 1 ≤ f.length ∧ f.length ≤ 64) ∧
    UInt32.ofNat (received 1 tr).length = UInt32.ofNat (frames 1 tr).flatten.length +
      UInt32.ofNat (s'.uart.ports 1).rxRb.toList.length +
      ((s'.uart.ports 1).dropRxBytes - (s.uart.ports 1).dropRxBytes) ∧
    (s'.uart.ports 1).rxBytes - (s.uart.ports 1).rxBytes = UInt32.ofNat (entered 1 tr).length := by
  intro drv usb s is
  exact rx_path_accounted drv usb uartMapCfg s 1 (by decide +kernel) (by decide +kernel) is (by decide +kernel)

/-! ## From the host to the line -/

/-- The fields of a port the transmit path uses. -/
def PortCtx.txSide (port : PortCtx) : PortState × RingBuffer × UInt32 × UInt32 :=
  (port.state, port.txRb, port.txBytes, port.dropTxBytes)

/-- A command that empties the transmit ring of port `p`. -/
def ClearsTx (p : Fin uartPortCount) : Input → Prop
  | .ctrl hdr _ _ => getPort hdr.chId = some p ∧
      (VpUartOpcode.ofCode hdr.opcode = some .close ∨ VpUartOpcode.ofCode hdr.opcode = some .flushTx)
  | _ => False

instance (p : Fin uartPortCount) (i : Input) : Decidable (ClearsTx p i) := by
  cases i <;> unfold ClearsTx <;> infer_instance

/-- Other commands leave the transmit path of an open port alone. -/
theorem handleCtrl_txSide {s : State η} {p : Fin uartPortCount} (ho : (s.ports p).state = .opened) {hdr : VpHdr}
    {payload : Ptr UInt8} {payloadLen : UInt16} (hc : ¬ ClearsTx p (.ctrl hdr payload payloadLen)) :
    ((handleCtrl drv map s hdr payload payloadLen).1.ports p).txSide = (s.ports p).txSide := by
  obtain ⟨status, rsp, rspLen, -, hh⟩ := handleCtrl_handled drv map s hdr payload payloadLen
  rcases hh.of_opened ho with h | ⟨c, h⟩ | ⟨hp, ⟨hop, -⟩ | ⟨-, h⟩ | ⟨hop, -⟩⟩
  · rw [h]
  · rw [h]
    rfl
  · exact absurd ⟨hp, .inl hop⟩ hc
  · rw [h]
    rfl
  · exact absurd ⟨hp, .inr hop⟩ hc

theorem processPort_txSide (s : State η) (t : τ) (p q : Fin uartPortCount) :
    ((processPort usb s t q).1.ports p).txSide = (s.ports p).txSide := by
  by_cases hq : (s.ports q).state = .opened
  · by_cases he : (s.ports q).rxRb.toList = []
    · rw [processPort_empty usb hq he]
    · obtain ⟨rb, -, -, hr⟩ := processPort_offer usb hq he t
      rw [hr]
      by_cases hpq : p = q
      · subst hpq
        rw [modify_self]
        rfl
      · rw [modify_of_ne _ _ hpq]
  · rw [processPort_not_opened usb hq]

theorem process_txSide (s : State η) (t : τ) (p : Fin uartPortCount) :
    ((process usb s t).1.ports p).txSide = (s.ports p).txSide :=
  process_rule (J := fun s' _ _ => (s'.ports p).txSide = (s.ports p).txSide) usb
    (fun s' t _ q h => (processPort_txSide usb s' t p q).trans h) rfl

theorem irqRxByte_txSide (s : State η) (p : Fin uartPortCount) (logicPort b : UInt8) :
    ((irqRxByte s logicPort b).ports p).txSide = (s.ports p).txSide := by
  rcases irqRxByte_cases s logicPort b with ⟨h, -⟩ | ⟨q, -, -, h | ⟨rb, -, h⟩⟩
  · rw [h]
  all_goals
    rw [h]
    by_cases he : p = q
    · subst he
      rw [modify_self]
      rfl
    · rw [modify_of_ne _ _ he]

/-- A write takes the first bytes of its payload, as many as there is room
for, and is answered OK when these are all. -/
def WriteCall.Right (c : WriteCall) : Prop :=
  c.taken = c.payload.take (min c.payloadLen.toNat c.free) ∧
    (c.status = .ok ↔ c.taken.length = c.payloadLen.toNat)

/-- Where the bytes written to an open port since its ring was empty are, and
what its counters, `tx` and `drop` at that time, say of them. -/
structure TxPath (p : Fin uartPortCount) (tx drop : UInt32) (s : State η) (tr : List Event) : Prop where
  opened : (s.ports p).state = .opened
  right : ∀ c ∈ writes p tr, c.Right
  ring : taken p tr = sent p tr ++ (s.ports p).txRb.toList
  counted : (s.ports p).txBytes = tx + UInt32.ofNat (sent p tr).length
  dropped : ∃ missed, ((writes p tr).map (·.payloadLen.toNat)).sum = (taken p tr).length + missed ∧
    (s.ports p).dropTxBytes = drop + UInt32.ofNat missed

section Tx

variable {p : Fin uartPortCount} {tx drop : UInt32} {s s' : State η} {tr us : List Event}

theorem TxPath.start (ho : (s.ports p).state = .opened) (he : (s.ports p).txRb.toList = []) :
    TxPath p (s.ports p).txBytes (s.ports p).dropTxBytes s [] :=
  ⟨ho, by simp [writes], by rw [he]; rfl, by simp [sent], 0, rfl, by simp⟩

theorem TxPath.same (h : TxPath p tx drop s tr) (hs : (s'.ports p).txSide = (s.ports p).txSide)
    (hw : writes p us = []) (hs' : sent p us = []) : TxPath p tx drop s' (tr ++ us) := by
  simp only [PortCtx.txSide, Prod.mk.injEq] at hs
  obtain ⟨h1, h2, h3, h4⟩ := hs
  have ht : taken p (tr ++ us) = taken p tr := by simp [taken, hw]
  refine ⟨h1.trans h.opened, ?_, ?_, ?_, ?_⟩
  · simpa [hw] using h.right
  · rw [ht, h.ring, sent_append, hs', List.append_nil, h2]
  · simpa [hs', h3] using h.counted
  · simpa [hw, ht, h4] using h.dropped

/-- What a write does to the ring and the counter of its port. -/
theorem written_spec (port : PortCtx) (data : List UInt8) :
    let len := UInt16.ofNat data.length
    let n := min len.toNat port.txRb.space.toNat
    (port.written (some data) len).txRb.toList = port.txRb.toList ++ data.take n ∧
    (port.written (some data) len).dropTxBytes = port.dropTxBytes + UInt32.ofNat (len.toNat - n) ∧
    (port.txRb.write (some data) len).2.toNat = n ∧ (data.take n).length = n := by
  intro len n
  have hl : len.toNat ≤ data.length := by
    simp only [len, UInt16.toNat_ofNat']
    exact Nat.mod_le _ _
  have hlen := len.toNat_lt
  obtain ⟨h1, -, h3⟩ := port.txRb.write_toList hl
  rw [← RingBuffer.space_toNat] at h1 h3
  have hn : n = min len.toNat port.txRb.space.toNat := rfl
  refine ⟨?_, ?_, h3, ?_⟩
  · rw [PortCtx.written, h1, List.take_take, Nat.min_comm]
  · have hlt : (port.txRb.write (some data) len).2 < len ↔ n < len.toNat := by rw [UInt16.lt_iff_toNat_lt, h3]
    simp only [PortCtx.written, hlt]
    split
    · next hlt' =>
      rw [← UInt32.toNat_inj, UInt32.toNat_add, UInt32.toNat_add, UInt16.toNat_toUInt32,
        UInt16.toNat_sub_of_le _ _ (UInt16.le_iff_toNat_le.mpr (by rw [h3]; omega)), h3, UInt32.toNat_ofNat', ← hn]
      simp
    · next hlt' =>
      have h0 : len.toNat - n = 0 := by omega
      rw [h0]
      simp
  · rw [List.length_take]
    omega

theorem TxPath.wrote (h : TxPath p tx drop s tr) {s' : State η} (data : List UInt8)
    (hs : s'.ports p = (s.ports p).written (some data) (UInt16.ofNat data.length)) {status : VpStatus}
    (hst : status = if ((s.ports p).txRb.write (some data) (UInt16.ofNat data.length)).2 = UInt16.ofNat data.length
      then .ok else .errOverflow) :
    TxPath p tx drop s' (tr ++ [.wrote ⟨p, data, UInt16.ofNat data.length, (s.ports p).txRb.space.toNat,
      gained (s.ports p).txRb (s'.ports p).txRb, status⟩]) := by
  obtain ⟨h1, h2, h3, h4⟩ := written_spec (s.ports p) data
  rw [← hs] at h1 h2
  generalize hlen : UInt16.ofNat data.length = len at *
  generalize hn : min len.toNat (s.ports p).txRb.space.toNat = n at *
  have hg : gained (s.ports p).txRb (s'.ports p).txRb = data.take n := by rw [gained, h1, List.drop_left]
  rw [hg]
  have hw : writes p [.wrote ⟨p, data, len, (s.ports p).txRb.space.toNat, data.take n, status⟩] =
      [⟨p, data, len, (s.ports p).txRb.space.toNat, data.take n, status⟩] := by simp [writes]
  have hsent : sent p [.wrote ⟨p, data, len, (s.ports p).txRb.space.toNat, data.take n, status⟩] = [] := rfl
  generalize Event.wrote ⟨p, data, len, (s.ports p).txRb.space.toNat, data.take n, status⟩ = e at hw hsent ⊢
  have ht : taken p (tr ++ [e]) = taken p tr ++ data.take n := by simp [taken, hw]
  obtain ⟨missed, hm, hd⟩ := h.dropped
  refine ⟨by rw [hs]; exact h.opened, ?_, ?_, ?_, missed + (len.toNat - n), ?_, ?_⟩
  · intro c hc
    rw [writes_append, hw, List.mem_append, List.mem_singleton] at hc
    rcases hc with hc | rfl
    · exact h.right c hc
    · refine ⟨by rw [hn], ?_⟩
      rw [h4, hst, ← h3, UInt16.toNat_inj]
      split
      · next he => exact iff_of_true rfl he
      · next he => exact iff_of_false (by simp) he
  · rw [ht, sent_append, hsent, h.ring, h1, List.append_nil, List.append_assoc]
  · rw [sent_append, hsent, List.append_nil, hs]
    exact h.counted
  · rw [ht, writes_append, hw, List.map_append, List.sum_append, hm, List.length_append, h4]
    simp
    omega
  · rw [h2, hd, UInt32.ofNat_add]
    ac_rfl

theorem TxPath.write (h : TxPath p tx drop s tr) (logicPort : UInt8) (data : List UInt8) :
    let r := writeFromHost drv s logicPort (some data) (UInt16.ofNat data.length)
    TxPath p tx drop r.1 (tr ++ (getPort logicPort).toList.map fun q =>
      .wrote ⟨q, data, UInt16.ofNat data.length, (s.ports q).txRb.space.toNat,
        gained (s.ports q).txRb (r.1.ports q).txRb, r.2⟩) := by
  intro r
  rcases writeFromHost_cases drv s logicPort (some data) (UInt16.ofNat data.length) with ⟨he, hno⟩ | ⟨q, hq, ho, he⟩
  · have hr : r.1 = s := he
    refine h.same (by rw [hr]) ?_ ?_
    all_goals
      cases hp : getPort logicPort with
      | none => rfl
      | some q =>
        -- the write is for another port, since that one is not open
        have hne : q ≠ p := fun hqp => hno q hp (hqp ▸ h.opened)
        simp [writes, sent, hne]
  · have hr : r = _ := he
    rw [hq, Option.toList_some, List.map_singleton]
    by_cases hpq : p = q
    · subst hpq
      refine h.wrote data ?_ ?_
      · rw [hr]
        exact modify_self s p (·.written (some data) (UInt16.ofNat data.length))
      · rw [hr]
    · refine h.same ?_ ?_ ?_
      · rw [hr]
        exact congrArg PortCtx.txSide
          (modify_of_ne s (·.written (some data) (UInt16.ofNat data.length)) hpq)
      all_goals simp [writes, sent, Ne.symm hpq]

theorem TxPath.irqTxNextByte (h : TxPath p tx drop s tr) (logicPort : UInt8) :
    let r := irqTxNextByte s logicPort
    TxPath p tx drop r.1 (tr ++ (getPort logicPort).toList.flatMap fun q => r.2.toList.map (.sent q)) := by
  intro r
  rcases irqTxNextByte_cases s logicPort with ⟨he, -⟩ | ⟨q, b, rb, hq, ho, hrb, he⟩
  · have hr : r = (s, none) := he
    rw [hr]
    refine h.same rfl ?_ ?_
    all_goals cases getPort logicPort <;> rfl
  · have hr : r = _ := he
    rw [hr, hq]
    simp only [Option.toList_some, List.flatMap_cons, List.flatMap_nil, List.append_nil, List.map_singleton]
    by_cases hpq : p = q
    · subst hpq
      have hw : writes p [.sent p b] = [] := rfl
      have hsent : sent p [.sent p b] = [b] := by simp [sent]
      have ht : taken p (tr ++ [.sent p b]) = taken p tr := by simp [taken, hw]
      refine ⟨by rw [modify_self]; exact h.opened, ?_, ?_, ?_, ?_⟩
      · simpa [hw] using h.right
      · rw [ht, sent_append, hsent, modify_self, h.ring, hrb, List.append_assoc]
        rfl
      · simp only [modify_self, sent_append, hsent, h.counted, List.length_append, List.length_singleton,
          UInt32.ofNat_add]
        ac_rfl
      · simpa [hw, ht] using h.dropped
    · refine h.same ?_ ?_ ?_
      · rw [modify_of_ne _ _ hpq]
      all_goals simp [writes, sent, Ne.symm hpq]

theorem TxPath.step {s : Sys η τ} (h : TxPath p tx drop s.uart tr) {i : Input} (hi : ¬ ClearsTx p i) :
    TxPath p tx drop (step drv usb map s i).1.uart (tr ++ (UartMgr.step drv usb map s i).2) := by
  cases i with
  | ctrl hdr payload payloadLen => exact h.same (handleCtrl_txSide drv map h.opened hi) rfl rfl
  | write logicPort data => exact h.write drv logicPort data
  | process =>
    simp only [UartMgr.step]
    refine h.same (process_txSide ..) ?_ ?_
    all_goals simp [writes, sent, List.flatMap_map]
  | irqRx logicPort data =>
    refine h.same (irqRxByte_txSide ..) ?_ ?_
    all_goals cases hp : getPort logicPort <;> simp [UartMgr.step, hp, writes, sent]
  | irqTx logicPort => exact h.irqTxNextByte logicPort

end Tx

/-- **Transmit path.** From any state in which port `p` is open with an empty
transmit ring, over every run in which no CLOSE or FLUSH_TX of the port comes:
a write takes the first bytes of its payload, as many as there is room for,
and is answered OK exactly when these are all; the bytes for the line are the
first of those taken, in order; and every byte of a write has gone out, is in
the ring or is counted as dropped. -/
theorem tx_path_accounted (s : Sys η τ) (p : Fin uartPortCount) (ho : (s.uart.ports p).state = .opened)
    (he : (s.uart.ports p).txRb.toList = []) (is : List Input) (his : ∀ i ∈ is, ¬ ClearsTx p i) :
    let s' := Mealy.run (step drv usb map) s is
    let tr := Mealy.outs (step drv usb map) s is
    (∀ c ∈ writes p tr, c.taken = c.payload.take (min c.payloadLen.toNat c.free) ∧
      (c.status = .ok ↔ c.taken.length = c.payloadLen.toNat)) ∧
    sent p tr <+: taken p tr ∧
    UInt32.ofNat ((writes p tr).map (·.payloadLen.toNat)).sum =
      ((s'.uart.ports p).txBytes - (s.uart.ports p).txBytes) +
        UInt32.ofNat (s'.uart.ports p).txRb.toList.length +
        ((s'.uart.ports p).dropTxBytes - (s.uart.ports p).dropTxBytes) := by
  intro s' tr
  have h : TxPath p (s.uart.ports p).txBytes (s.uart.ports p).dropTxBytes s'.uart tr := by
    have := Mealy.history_run_of (C := (¬ ClearsTx p ·))
      (J := fun (s' : Sys η τ) tr => TxPath p (s.uart.ports p).txBytes (s.uart.ports p).dropTxBytes s'.uart tr)
      (fun _ _ _ hi h => h.step drv usb map hi) (TxPath.start ho he) his
    simpa using this
  obtain ⟨missed, hm, hd⟩ := h.dropped
  refine ⟨h.right, ?_, ?_⟩
  · rw [h.ring]
    exact List.prefix_append _ _
  · rw [hm, hd, h.counted, h.ring, UInt32.add_comm (s.uart.ports p).txBytes, UInt32.add_sub_cancel,
      UInt32.add_comm (s.uart.ports p).dropTxBytes, UInt32.add_sub_cancel, List.length_append, UInt32.ofNat_add,
      UInt32.ofNat_add]

/-- Port 1 opened at 115200 baud, a write of three bytes and two of them on the line. -/
theorem tx_path_accounted_opened :
    let drv : UartPort Unit := ⟨fun h _ _ _ _ _ => (h, .ok), fun h _ => h, fun h _ => h⟩
    let usb : Usb Unit := fun t _ => (t, true)
    let s : Sys Unit Unit := Mealy.run (step drv usb uartMapCfg) ⟨init uartMapCfg (), ()⟩
      [.ctrl { VpHdr.zero with chId := 1, opcode := 3 } (some [0, 194, 1, 0]) 4]
    let is : List Input := [.write 1 [5, 6, 7], .irqTx 1, .irqTx 1, .irqRx 1 9]
    let s' := Mealy.run (step drv usb uartMapCfg) s is
    let tr := Mealy.outs (step drv usb uartMapCfg) s is
    (∀ c ∈ writes 1 tr, c.taken = c.payload.take (min c.payloadLen.toNat c.free) ∧
      (c.status = .ok ↔ c.taken.length = c.payloadLen.toNat)) ∧
    sent 1 tr <+: taken 1 tr ∧
    UInt32.ofNat ((writes 1 tr).map (·.payloadLen.toNat)).sum =
      ((s'.uart.ports 1).txBytes - (s.uart.ports 1).txBytes) +
        UInt32.ofNat (s'.uart.ports 1).txRb.toList.length +
        ((s'.uart.ports 1).dropTxBytes - (s.uart.ports 1).dropTxBytes) := by
  intro drv usb s is
  exact tx_path_accounted drv usb uartMapCfg s 1 (by decide +kernel) (by decide +kernel) is (by decide +kernel)

end UsbMux.UartMgr
