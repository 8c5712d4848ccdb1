/-
Receive data on its way to the host: from the ring of a port through the data
queue of the transmit scheduler into UART_DATA frames, while commands discard
what the ring holds. FLUSH_RX and CLOSE empty the ring and not the queue, and
their response goes out before queued data, so whether a discarded byte still
reaches the host depends on what the queue held.

Beside the state runs a book that numbers every byte with the call that
brought it and every response with the command it confirms; the state does
not read it. What the book says of a frame is proved of the frame (`Kept`).
-/
import UsbMux.UartPaths

namespace UsbMux.UartFlush

open UartMgr UsbTx

/-! ## The machine -/

/-- A command, a byte from the line, `UartMgr_Process`, or `USBTX_Process`
with the state the device layer is in. -/
inductive Input (δ : Type)
  | ctrl (hdr : VpHdr) (payload : Ptr UInt8) (payloadLen : UInt16)
  | irqRx (logicPort data : UInt8)
  | process
  | usbProcess (d : δ)
deriving DecidableEq

/-- A byte with the number of the call that brought it. -/
abbrev Stamped := UInt8 × Nat

/-- The bytes of the receive rings and of the queued UART_DATA frames, and for
every queued response the port whose data it says was discarded, with the
number of the command. -/
structure Book where
  ring : Fin uartPortCount → List Stamped
  frames : List (Fin uartPortCount × List Stamped)
  rsps : List (Option (Fin uartPortCount × Nat))

/-- The manager, the scheduler, and beside them the calls so far and the book. -/
structure Sys (η δ : Type) where
  uart : State η
  tx : UsbTx.Ctx
  past : List (Input δ)
  book : Book

/-- A frame that `USBDEV_SendFrame` took, with what the book says of it. -/
inductive Output
  | response (f : Frame) (discards : Option (Fin uartPortCount × Nat))
  | data (f : Frame) (port : Fin uartPortCount) (bytes : List Stamped)
deriving DecidableEq

/-- The port whose receive data is discarded, by the header of a response. -/
def discarded (hdr : VpHdr) : Option (Fin uartPortCount) :=
  if hdr.msgType = VpMsgType.rsp.code ∧ hdr.status = VpStatus.ok.code ∧
      (VpUartOpcode.ofCode hdr.opcode = some .close ∨ VpUartOpcode.ofCode hdr.opcode = some .flushRx) then
    getPort hdr.chId
  else none

/-- The header a frame carries. -/
def header (f : Frame) : VpHdr := VP.deserializeHeader f.bytes

/-- The rings of the ports that a call's answer says were emptied, and the responses queued. -/
def Book.answered (b : Book) (now : Nat) (calls : List Enqueue) (queued : List Frame) : Book :=
  { b with
    ring := fun p => if calls.any fun call => discarded (call.hdr 0) = some p then [] else b.ring p
    rsps := b.rsps ++ queued.map fun f => (discarded (header f)).map (·, now) }

/-- Bytes that enter a ring. -/
def Book.arrived (b : Book) (p : Fin uartPortCount) (bytes : List Stamped) : Book :=
  { b with ring := Function.update b.ring p (b.ring p ++ bytes) }

/-- Bytes that leave a ring for the data queue, or are dropped there. -/
def Book.offered (b : Book) (c : DataCall) : Book :=
  { b with
    ring := Function.update b.ring c.port ((b.ring c.port).drop c.data.length)
    frames := if c.accepted then b.frames ++ [(c.port, (b.ring c.port).take c.data.length)] else b.frames }

/-- Frames that leave the queues. -/
def Book.sent (b : Book) (events : List UsbTx.Event) : Book :=
  { b with
    rsps := b.rsps.drop (UsbTx.sent .rsp events).length
    frames := b.frames.drop (UsbTx.sent .data events).length }

/-- The scheduler as `UartMgr_Process` calls it. -/
def scheduler : Usb UsbTx.Ctx := fun c call => ((enqueue c call).1, (enqueue c call).2.isSome)

variable {η δ : Type} (drv : UartPort η) (dev : UsbDevice δ) (map : Map)

def start (hw : η) : Sys η δ := ⟨UartMgr.init map hw, UsbTx.init, [], ⟨fun _ => [], [], []⟩⟩

/-- One call. -/
def step : Mealy.Step (Sys η δ) (Input δ) Output
  | s, .ctrl hdr payload payloadLen =>
    let r := handleCtrl drv map s.uart hdr payload payloadLen
    let e := enqueueAll s.tx r.2
    (⟨r.1, e.1, s.past ++ [.ctrl hdr payload payloadLen],
      s.book.answered s.past.length r.2 (accepted .rsp e.2)⟩, [])
  | s, .irqRx logicPort data =>
    let r := irqRxByte s.uart logicPort data
    let book := match getPort logicPort with
      | none => s.book
      | some p => s.book.arrived p ((gained (s.uart.ports p).rxRb (r.ports p).rxRb).map (·, s.past.length))
    (⟨r, s.tx, s.past ++ [.irqRx logicPort data], book⟩, [])
  | s, .process =>
    let r := UartMgr.process scheduler s.uart s.tx
    (⟨r.1, r.2.1, s.past ++ [.process], r.2.2.foldl Book.offered s.book⟩, [])
  | s, .usbProcess d =>
    let r := UsbTx.process dev s.tx d
    (⟨s.uart, r.1, s.past ++ [.usbProcess d], s.book.sent r.2.2⟩,
      (UsbTx.sent .rsp r.2.2).map (fun f => .response f s.book.rsps.head?.join) ++
      (UsbTx.sent .data r.2.2).map fun f =>
        .data f (s.book.frames.headD (0, [])).1 (s.book.frames.headD (0, [])).2)

/-! ## What a frame carries -/

/-- A frame of the data queue: the port and the payload are those of the book. -/
def Carries (f : Frame) (e : Fin uartPortCount × List Stamped) : Prop :=
  (header f).msgType = VpMsgType.data.code ∧ (header f).chType = VpChannelType.uartData.code ∧
    (header f).chId = UInt8.ofNat e.1 ∧ f.bytes.drop VP.headerLen = e.2.map Prod.fst

/-- A frame of the response queue. -/
def Discards (f : Frame) (e : Option (Fin uartPortCount × Nat)) : Prop := e.map Prod.fst = discarded (header f)

/-- An accepted call: the header of its frame, and its payload where that is there. -/
theorem enqueue_header {c : UsbTx.Ctx} {call : Enqueue} {f : Frame} (h : (enqueue c call).2 = some f) :
    header f = VP.encodeHeader (call.hdr c.seq) ∧
      (call.payload.isSome → f.bytes.drop VP.headerLen = call.payload.cells call.payloadLen.toNat) := by
  rcases enqueue_cases c call with ⟨⟨bit, hr⟩, -⟩ | ⟨g, hg, hp, -, hw, -⟩
  · rw [hr] at h
    cases h
  · obtain rfl : f = g := Option.some.inj (h.symm.trans hg)
    have htot : (VP.encodeHeader (call.hdr c.seq)).totalLen = 24 + call.payloadLen := by
      rw [VP.encodeHeader_totalLen]
      cases call <;> rfl
    have hb : f.bytes = _ ++ if call.payload.isSome then _ else _ :=
      hw ▸ writeFrame_bytes (c.queue call.queue).slot hp htot
    constructor
    · rw [header, hb, VP.deserializeHeader_own]
    · intro hs
      rw [hb, if_pos hs, List.drop_left' (VpHdr.length_bytes _ _)]

/-- The sequence number does not decide which port a response is about. -/
theorem discarded_hdr (call : Enqueue) (seq : UInt16) :
    discarded (VP.encodeHeader (call.hdr seq)) = discarded (call.hdr 0) := by
  cases call <;> rfl

/-! ## Commands that discard data -/

/-- The port a command discards the receive data of, where it is answered OK. -/
theorem discarded_rsp (hdr : VpHdr) (status : VpStatus) (rsp : Ptr UInt8) (rspLen : UInt16) (p : Fin uartPortCount) :
    discarded ((Enqueue.rsp hdr status rsp rspLen).hdr 0) = some p ↔
      status = .ok ∧ getPort hdr.chId = some p ∧
      (VpUartOpcode.ofCode hdr.opcode = some .close ∨ VpUartOpcode.ofCode hdr.opcode = some .flushRx) := by
  have hok : status.code = VpStatus.ok.code ↔ status = .ok := by cases status <;> decide
  simp only [discarded, Enqueue.hdr, requestHdr, true_and, hok]
  split
  · next h => simp [h]
  · next h => simp only [reduceCtorEq, false_iff]; tauto

theorem modify_rxRb (s : State η) (q : Fin uartPortCount) {f : PortCtx → PortCtx}
    (hf : (f (s.ports q)).rxRb = (s.ports q).rxRb) (p : Fin uartPortCount) :
    ((s.modify q f).ports p).rxRb = (s.ports p).rxRb := by
  by_cases hp : p = q
  · subst hp
    rw [modify_self, hf]
  · rw [modify_of_ne _ _ hp]

/-- Commands with other opcodes leave the receive rings alone. -/
theorem handled_rxRb {drv : UartPort η} {s s' : State η} {hdr : VpHdr} {payload : Ptr UInt8}
    {payloadLen : UInt16} {status : VpStatus} (h : Handled drv s hdr payload payloadLen s' status)
    (hop : ¬ (VpUartOpcode.ofCode hdr.opcode = some .close ∨ VpUartOpcode.ofCode hdr.opcode = some .flushRx))
    (p : Fin uartPortCount) : (s'.ports p).rxRb = (s.ports p).rxRb := by
  cases h with
  | same => rfl
  | @opened q c => exact modify_rxRb (callOpen drv s q c).1 q rfl p
  | @openFailed q c => exact modify_rxRb (callOpen drv s q c).1 q rfl p
  | closed h => exact absurd (.inl h) hop
  | @recoded q c => exact modify_rxRb (callOpen drv s q c).1 q rfl p
  | recodeFailed => rfl
  | flushedRx h => exact absurd (.inr h) hop
  | @flushedTx q => exact modify_rxRb s q rfl p

theorem validateCtrlPort_error {s : State η} {hdr : VpHdr} {status : VpStatus}
    (h : validateCtrlPort s hdr = .error status) : status ≠ .ok := by
  unfold validateCtrlPort at h
  split at h
  · cases h
    decide
  · split at h
    · cases h
      decide
    · cases h

/-- **Every command** is answered once, and its answer tells which ring it
emptied; the port of that ring is not disabled. -/
theorem handleCtrl_discards (s : State η) (hdr : VpHdr) (payload : Ptr UInt8) (payloadLen : UInt16) :
    ∃ status rsp rspLen, (handleCtrl drv map s hdr payload payloadLen).2 = [.rsp hdr status rsp rspLen] ∧
      ∀ p, (discarded ((Enqueue.rsp hdr status rsp rspLen).hdr 0) = some p → (s.ports p).state ≠ .disabled) ∧
        ((handleCtrl drv map s hdr payload payloadLen).1.ports p).rxRb.toList =
          if discarded ((Enqueue.rsp hdr status rsp rspLen).hdr 0) = some p then [] else (s.ports p).rxRb.toList := by
  simp only [discarded_rsp]
  by_cases hop : VpUartOpcode.ofCode hdr.opcode = some .close ∨ VpUartOpcode.ofCode hdr.opcode = some .flushRx
  · -- the two commands run through unless the port is refused
    cases hv : validateCtrlPort s hdr with
    | error status =>
      have hne := validateCtrlPort_error hv
      refine ⟨status, none, 0, by simp only [handleCtrl, hv]; rfl, fun p => ⟨fun h => absurd h.1 hne, ?_⟩⟩
      rw [if_neg fun h => hne h.1]
      simp only [handleCtrl, hv]
    | ok q =>
      obtain ⟨hp, hs⟩ := validateCtrlPort_ok hv
      refine ⟨.ok, none, 0, by rcases hop with hop | hop <;> (simp only [handleCtrl, hv, hop]; rfl), fun p => ⟨?_, ?_⟩⟩
      · rintro ⟨-, hp', -⟩
        obtain rfl : q = p := Option.some.inj (hp.symm.trans hp')
        exact hs
      · by_cases hq : p = q
        · subst hq
          rw [if_pos ⟨rfl, hp, hop⟩]
          rcases hop with hop | hop
          all_goals
            simp only [handleCtrl, hv, hop, modify_self]
            exact RingBuffer.toList_reset _
        · rw [if_neg fun h => hq (Option.some.inj (h.2.1.symm.trans hp))]
          rcases hop with hop | hop
          all_goals simp only [handleCtrl, hv, hop, modify_of_ne _ _ hq]
  · obtain ⟨status, rsp, rspLen, he, hh⟩ := handleCtrl_handled drv map s hdr payload payloadLen
    refine ⟨status, rsp, rspLen, he, fun p => ⟨fun h => absurd h.2.2 hop, ?_⟩⟩
    rw [if_neg fun h => hop h.2.2]
    rw [handled_rxRb hh hop p]

/-- What the scheduler does with the answer of a command: it is refused, or it
is queued and says the same of the port. -/
theorem enqueueAll_rsp (c : UsbTx.Ctx) (hdr : VpHdr) (status : VpStatus) (rsp : Ptr UInt8) (rspLen : UInt16) :
    let call := Enqueue.rsp hdr status rsp rspLen
    let r := enqueueAll c [call]
    r.1.dataQ = c.dataQ ∧
    ((accepted .rsp r.2 = [] ∧ r.1.rspQ = c.rspQ) ∨
      ∃ f, accepted .rsp r.2 = [f] ∧ r.1.rspQ.toList = c.rspQ.toList ++ [f] ∧
        discarded (header f) = discarded (call.hdr 0) ∧ c.rspQ.toList.length < queueDepth) := by
  intro call
  simp only [enqueueAll]
  rcases enqueue_cases c call with ⟨⟨bit, hr⟩, -⟩ | ⟨f, hf, -, hlt, -, -, hq, hne⟩
  · rw [hr]
    exact ⟨rfl, .inl ⟨rfl, rfl⟩⟩
  · refine ⟨hne .data (by simp [call, Enqueue.queue]), .inr ⟨f, ?_, hq, ?_, hlt⟩⟩
    · rw [hf]
      rfl
    · rw [(enqueue_header hf).1, discarded_hdr]

/-! ## The book is right -/

section Kept

/-- The call with the number of `x` brought that byte to port `p`. -/
def Arrived (past : List (Input δ)) (p : Fin uartPortCount) (x : Stamped) : Prop :=
  past[x.2]? = some (.irqRx (UInt8.ofNat p) x.1)

/-- The call with the number `t` is a FLUSH_RX or CLOSE for port `p`. -/
def Commanded (past : List (Input δ)) (p : Fin uartPortCount) (t : Nat) : Prop :=
  ∃ hdr payload payloadLen, past[t]? = some (.ctrl hdr payload payloadLen) ∧ getPort hdr.chId = some p ∧
    (VpUartOpcode.ofCode hdr.opcode = some .close ∨ VpUartOpcode.ofCode hdr.opcode = some .flushRx)

theorem get_concat {α : Type} {l : List α} {n : Nat} {a : α} (h : l[n]? = some a) (b : α) :
    (l ++ [b])[n]? = some a := by
  obtain ⟨hn, -⟩ := List.getElem?_eq_some_iff.mp h
  rw [List.getElem?_append_left hn, h]

theorem Arrived.concat {past : List (Input δ)} {p : Fin uartPortCount} {x : Stamped} (h : Arrived past p x)
    (i : Input δ) : Arrived (past ++ [i]) p x := get_concat h i

theorem Commanded.concat {past : List (Input δ)} {p : Fin uartPortCount} {t : Nat} (h : Commanded past p t)
    (i : Input δ) : Commanded (past ++ [i]) p t := by
  obtain ⟨hdr, payload, payloadLen, h1, h2⟩ := h
  exact ⟨hdr, payload, payloadLen, get_concat h1 i, h2⟩

/-- The book agrees with the rings and the queues, and its numbers with the calls so far. -/
structure Kept (s : Sys η δ) : Prop where
  ring : ∀ p, (s.book.ring p).map Prod.fst = (s.uart.ports p).rxRb.toList
  frames : List.Forall₂ Carries s.tx.dataQ.toList s.book.frames
  rsps : List.Forall₂ Discards s.tx.rspQ.toList s.book.rsps
  ringArrived : ∀ p, ∀ x ∈ s.book.ring p, Arrived s.past p x
  framesArrived : ∀ e ∈ s.book.frames, ∀ x ∈ e.2, Arrived s.past e.1 x
  commanded : ∀ p t, some (p, t) ∈ s.book.rsps → Commanded s.past p t

theorem kept_start (map : Map) (hw : η) : Kept (start map hw : Sys η δ) where
  ring p := (RingBuffer.toList_init ..).symm
  frames := .nil
  rsps := .nil
  ringArrived _ _ h := by cases h
  framesArrived _ h := by cases h
  commanded _ _ h := by cases h

theorem Kept.concat {s : Sys η δ} (h : Kept s) (i : Input δ) : Kept { s with past := s.past ++ [i] } where
  ring := h.ring
  frames := h.frames
  rsps := h.rsps
  ringArrived p x hx := (h.ringArrived p x hx).concat i
  framesArrived e he x hx := (h.framesArrived e he x hx).concat i
  commanded p t ht := (h.commanded p t ht).concat i

theorem forall₂_concat {α β : Type} {R : α → β → Prop} {as : List α} {bs : List β} (h : List.Forall₂ R as bs)
    {a : α} {b : β} (hab : R a b) : List.Forall₂ R (as ++ [a]) (bs ++ [b]) :=
  List.rel_append h (.cons hab .nil)

theorem forall₂_exists {α β : Type} {R : α → β → Prop} {as : List α} {bs : List β} (h : List.Forall₂ R as bs)
    {b : β} (hb : b ∈ bs) : ∃ a ∈ as, R a b := by
  induction h with
  | nil => cases hb
  | @cons a b' as bs hab _ ih =>
    rcases List.mem_cons.mp hb with rfl | hb
    · exact ⟨a, List.mem_cons_self, hab⟩
    · obtain ⟨a', ha, hr⟩ := ih hb
      exact ⟨a', List.mem_cons_of_mem a ha, hr⟩

theorem Kept.ctrl {s : Sys η δ} (h : Kept s) (hdr : VpHdr) (payload : Ptr UInt8) (payloadLen : UInt16) :
    Kept (step drv dev map s (.ctrl hdr payload payloadLen)).1 := by
  obtain ⟨status, rsp, rspLen, he, hring⟩ := handleCtrl_discards drv map s.uart hdr payload payloadLen
  obtain ⟨hdata, hrsp⟩ := enqueueAll_rsp s.tx hdr status rsp rspLen
  have h := h.concat (.ctrl hdr payload payloadLen)
  simp only [step, he, Book.answered, List.any_cons, List.any_nil, Bool.or_false, decide_eq_true_eq]
  refine ⟨?_, by simpa only [hdata] using h.frames, ?_, ?_, h.framesArrived, ?_⟩
  · intro p
    rw [(hring p).2]
    dsimp only
    split
    · rfl
    · exact h.ring p
  · rcases hrsp with ⟨h1, h2⟩ | ⟨f, h1, h2, h3, -⟩
    · simpa only [h1, h2, List.map_nil, List.append_nil] using h.rsps
    · simp only [h1, h2, List.map_cons, List.map_nil]
      refine forall₂_concat h.rsps ?_
      rw [Discards]
      cases discarded (header f) <;> rfl
  · intro p x hx
    dsimp only at hx
    split at hx
    · cases hx
    · exact h.ringArrived p x hx
  · intro p t ht
    rcases hrsp with ⟨h1, h2⟩ | ⟨f, h1, h2, h3, -⟩
    · rw [h1] at ht
      exact h.commanded p t (by simpa using ht)
    · simp only [h1, List.map_cons, List.map_nil, List.mem_append, List.mem_singleton] at ht
      rcases ht with ht | ht
      · exact h.commanded p t ht
      · obtain ⟨q, hq, hqt⟩ := Option.map_eq_some_iff.mp ht.symm
        simp only [Prod.mk.injEq] at hqt
        obtain ⟨rfl, rfl⟩ := hqt
        rw [h3, discarded_rsp] at hq
        exact ⟨hdr, payload, payloadLen, by simp, hq.2⟩

/-- What an interrupt adds to the ring of its port: the byte, or nothing. -/
theorem irqRxByte_ring {s : State η} {logicPort : UInt8} {p : Fin uartPortCount} (hp : getPort logicPort = some p)
    (data : UInt8) :
    ∃ l, (l = [] ∨ l = [data]) ∧ ((irqRxByte s logicPort data).ports p).rxRb.toList = (s.ports p).rxRb.toList ++ l ∧
      ∀ q, q ≠ p → (irqRxByte s logicPort data).ports q = s.ports q := by
  rcases irqRxByte_cases s logicPort data with ⟨he, -⟩ | ⟨q, hq, -, he | ⟨rb, hrb, he⟩⟩
  · exact ⟨[], .inl rfl, by rw [he, List.append_nil], fun q _ => by rw [he]⟩
  all_goals
    obtain rfl : p = q := Option.some.inj (hp.symm.trans hq)
    rw [he]
  · exact ⟨[], .inl rfl, by rw [modify_self, List.append_nil], fun q hq => modify_of_ne _ _ hq⟩
  · exact ⟨[data], .inr rfl, by rw [modify_self, hrb], fun q hq => modify_of_ne _ _ hq⟩

theorem irqRxByte_of_none {s : State η} {logicPort : UInt8} (hp : getPort logicPort = none) (data : UInt8) :
    irqRxByte s logicPort data = s := by simp only [irqRxByte, hp]

theorem Kept.irqRx {s : Sys η δ} (h : Kept s) (logicPort data : UInt8) :
    Kept (step drv dev map s (.irqRx logicPort data)).1 := by
  cases hp : getPort logicPort with
  | none =>
    simp only [step, hp, irqRxByte_of_none hp]
    exact h.concat _
  | some p =>
    obtain ⟨l, hl, hring, hother⟩ := irqRxByte_ring (s := s.uart) hp data
    have hg : gained (s.uart.ports p).rxRb ((irqRxByte s.uart logicPort data).ports p).rxRb = l := by
      rw [gained, hring, List.drop_left]
    have hlp := getPort_toNat hp
    have h := h.concat (.irqRx logicPort data)
    simp only [step, hp, hg, Book.arrived]
    refine ⟨?_, h.frames, h.rsps, ?_, h.framesArrived, h.commanded⟩
    · intro q
      dsimp only
      by_cases hq : q = p
      · subst hq
        rw [Function.update_self, hring, List.map_append, h.ring q, List.map_map]
        exact congrArg _ (List.map_id' l)
      · rw [Function.update_of_ne hq, hother q hq]
        exact h.ring q
    · refine (Function.forall_update_iff _ fun q ring => ∀ x ∈ ring, Arrived _ q x).mpr
        ⟨fun x hx => ?_, fun q _ => h.ringArrived q⟩
      rcases List.mem_append.mp hx with hx | hx
      · exact h.ringArrived p x hx
      · obtain ⟨b, hb, rfl⟩ := List.mem_map.mp hx
        rcases hl with rfl | rfl
        · cases hb
        · obtain rfl := List.mem_singleton.mp hb
          simp [Arrived, hlp]

/-- What the scheduler does with an offer: it is refused, or it is queued as a
UART_DATA frame of the port with the bytes as its payload. -/
theorem scheduler_offer (c : UsbTx.Ctx) (p : Fin uartPortCount) {chunk : List UInt8} (hl : chunk.length ≤ 64)
    {bytes : List Stamped} (hb : bytes.map Prod.fst = chunk) :
    let r := scheduler c (offer p chunk)
    r.1.rspQ = c.rspQ ∧ ((r.2 = false ∧ r.1.dataQ = c.dataQ) ∨
      ∃ f, r.2 = true ∧ r.1.dataQ.toList = c.dataQ.toList ++ [f] ∧ Carries f (p, bytes)) := by
  simp only [scheduler]
  rcases enqueue_cases c (offer p chunk) with ⟨⟨bit, hr⟩, -⟩ | ⟨f, hf, -, -, -, -, hq, hne⟩
  · rw [hr]
    exact ⟨rfl, .inl ⟨rfl, rfl⟩⟩
  · refine ⟨hne .rsp (by simp [offer, Enqueue.queue]), .inr ⟨f, by rw [hf]; rfl, hq, ?_⟩⟩
    obtain ⟨h1, h2⟩ := enqueue_header hf
    rw [Carries, h1]
    refine ⟨rfl, rfl, rfl, ?_⟩
    have hlen : (offer p chunk).payloadLen.toNat = chunk.length := by
      simp only [offer, Enqueue.payloadLen, UInt16.toNat_ofNat']
      omega
    rw [h2 rfl, hlen, hb]
    exact (Ptr.cells_some le_rfl).trans List.take_length

theorem Kept.processPort {s : Sys η δ} (h : Kept s) (p : Fin uartPortCount) :
    let r := processPort scheduler s.uart s.tx p
    Kept (⟨r.1, r.2.1, s.past, r.2.2.foldl Book.offered s.book⟩ : Sys η δ) := by
  by_cases ho : (s.uart.ports p).state = .opened
  · by_cases he : (s.uart.ports p).rxRb.toList = []
    · rw [processPort_empty scheduler ho he]
      exact h
    · obtain ⟨rb, hrb, -, hr⟩ := processPort_offer scheduler ho he s.tx
      rw [hr]
      -- the chunk is what the book takes from its ring
      have hmin : ((s.uart.ports p).rxRb.toList.take 64).length = min 64 (s.book.ring p).length := by
        rw [List.length_take, ← h.ring p, List.length_map]
      have htake : ((s.book.ring p).take ((s.uart.ports p).rxRb.toList.take 64).length).map Prod.fst =
          (s.uart.ports p).rxRb.toList.take 64 := by
        rw [List.map_take, h.ring p, List.take_eq_take_iff]
        simp
      have hdrop : ((s.book.ring p).drop ((s.uart.ports p).rxRb.toList.take 64).length).map Prod.fst = rb.toList := by
        rw [List.map_drop, h.ring p, hrb, List.drop_eq_drop_iff]
        simp
      obtain ⟨hrsp, hdata⟩ := scheduler_offer s.tx p (List.length_take_le ..) htake
      simp only [List.foldl_cons, List.foldl_nil, Book.offered]
      refine ⟨?_, ?_, by simpa only [hrsp] using h.rsps, ?_, ?_, h.commanded⟩
      · intro q
        dsimp only
        by_cases hq : q = p
        · subst hq
          rw [Function.update_self, modify_self, hdrop]
        · rw [Function.update_of_ne hq, modify_of_ne _ _ hq]
          exact h.ring q
      · rcases hdata with ⟨h1, h2⟩ | ⟨f, h1, h2, h3⟩
        · simpa only [h1, h2, Bool.false_eq_true, if_false] using h.frames
        · simp only [h1, h2, if_true]
          exact forall₂_concat h.frames h3
      · exact (Function.forall_update_iff _ fun q ring => ∀ x ∈ ring, Arrived _ q x).mpr
          ⟨fun x hx => h.ringArrived p x (List.mem_of_mem_drop hx), fun q _ => h.ringArrived q⟩
      · intro e he x hx
        dsimp only at he
        split at he
        · rcases List.mem_append.mp he with he | he
          · exact h.framesArrived e he x hx
          · rw [List.mem_singleton] at he
            subst he
            exact h.ringArrived p x (List.mem_of_mem_take hx)
        · exact h.framesArrived e he x hx
  · rw [processPort_not_opened scheduler ho]
    exact h

/-- The state after the loop of `UartMgr_Process`. -/
def processed (s : Sys η δ) : Sys η δ :=
  let r := UartMgr.process scheduler s.uart s.tx
  ⟨r.1, r.2.1, s.past, r.2.2.foldl Book.offered s.book⟩

theorem step_process (s : Sys η δ) :
    (step drv dev map s .process).1 = { processed s with past := s.past ++ [.process] } := by
  simp only [step, processed]

theorem processed_rule {J : Sys η δ → Prop}
    (hturn : ∀ (s : Sys η δ) p, J s → let r := UartMgr.processPort scheduler s.uart s.tx p
      J ⟨r.1, r.2.1, s.past, r.2.2.foldl Book.offered s.book⟩) {s : Sys η δ} (h : J s) : J (processed s) := by
  refine process_rule (J := fun uart tx cs => J ⟨uart, tx, s.past, cs.foldl Book.offered s.book⟩) scheduler ?_ h
  intro uart tx cs p hj
  rw [List.foldl_append]
  exact hturn ⟨uart, tx, s.past, cs.foldl Book.offered s.book⟩ p hj

theorem Kept.process {s : Sys η δ} (h : Kept s) : Kept (step drv dev map s .process).1 := by
  rw [step_process]
  exact (processed_rule (fun _ p h => h.processPort p) h).concat .process

/-- What `USBTX_Process` sends, with what the book says of it. -/
theorem Kept.sends {s : Sys η δ} (h : Kept s) (d : δ) :
    let r := UsbTx.process dev s.tx d
    let s' := step drv dev map s (.usbProcess d)
    (r.1.rspQ.toList = s.tx.rspQ.toList ∧ r.1.dataQ.toList = s.tx.dataQ.toList ∧ s'.1.book = s.book ∧ s'.2 = []) ∨
    (∃ f e es, s.tx.rspQ.toList = f :: r.1.rspQ.toList ∧ r.1.dataQ.toList = s.tx.dataQ.toList ∧
      s.book.rsps = e :: es ∧ s'.1.book = { s.book with rsps := es } ∧ s'.2 = [.response f e]) ∨
    (∃ f e es, s.tx.dataQ.toList = f :: r.1.dataQ.toList ∧ r.1.rspQ.toList = s.tx.rspQ.toList ∧
      s.book.frames = e :: es ∧ s'.1.book = { s.book with frames := es } ∧ s'.2 = [.data f e.1 e.2]) := by
  simp only [step, Book.sent]
  rcases process_sends dev s.tx d with ⟨hq, hs⟩ | ⟨q, f, fs, hqf, hq, hs⟩
  · exact .inl ⟨hq .rsp, hq .data, by simp only [hs]; rfl, by simp only [hs]; rfl⟩
  have hr := hq .rsp
  have hd := hq .data
  cases q with
  | rsp =>
    have hqf : s.tx.rspQ.toList = f :: fs := hqf
    have hrsps := h.rsps
    rw [hqf] at hrsps
    obtain ⟨e, es, -, -, he⟩ := List.forall₂_cons_left_iff.mp hrsps
    refine .inr (.inl ⟨f, e, es, by rw [hqf]; exact congrArg _ hr.symm, hd, he, ?_, ?_⟩)
    · simp [hs, he]
    · simp [hs, he]
  | evt =>
    refine .inl ⟨hr, hd, ?_, ?_⟩
    · simp [hs]
    · simp [hs]
  | data =>
    have hqf : s.tx.dataQ.toList = f :: fs := hqf
    have hframes := h.frames
    rw [hqf] at hframes
    obtain ⟨e, es, -, -, he⟩ := List.forall₂_cons_left_iff.mp hframes
    refine .inr (.inr ⟨f, e, es, by rw [hqf]; exact congrArg _ hd.symm, hr, he, ?_, ?_⟩)
    · simp [hs, he]
    · simp [hs, he]

/-- What the book says of a frame is right. -/
def Truthful (past : List (Input δ)) : Output → Prop
  | .response f e => Discards f e ∧ ∀ p t, e = some (p, t) → Commanded past p t
  | .data f p bytes => Carries f (p, bytes) ∧ ∀ x ∈ bytes, Arrived past p x

theorem Truthful.concat {past : List (Input δ)} {o : Output} (h : Truthful past o) (i : Input δ) :
    Truthful (past ++ [i]) o := by
  cases o with
  | response f e => exact ⟨h.1, fun p t he => (h.2 p t he).concat i⟩
  | data f p bytes => exact ⟨h.1, fun x hx => (h.2 x hx).concat i⟩

theorem Kept.of_sent {s s' : Sys η δ} (h : Kept s) (huart : s'.uart = s.uart) (hpast : s'.past = s.past)
    (hring : s'.book.ring = s.book.ring) (hf : List.Forall₂ Carries s'.tx.dataQ.toList s'.book.frames)
    (hr : List.Forall₂ Discards s'.tx.rspQ.toList s'.book.rsps) (hframes : s'.book.frames ⊆ s.book.frames)
    (hrsps : s'.book.rsps ⊆ s.book.rsps) : Kept s' where
  ring p := by rw [hring, huart]; exact h.ring p
  frames := hf
  rsps := hr
  ringArrived p x hx := by rw [hpast]; rw [hring] at hx; exact h.ringArrived p x hx
  framesArrived e he x hx := by rw [hpast]; exact h.framesArrived e (hframes he) x hx
  commanded p t ht := by rw [hpast]; exact h.commanded p t (hrsps ht)

theorem Kept.usbProcess {s : Sys η δ} (h : Kept s) (d : δ) :
    let r := step drv dev map s (.usbProcess d)
    Kept r.1 ∧ ∀ o ∈ r.2, Truthful r.1.past o := by
  have hc := h.concat (.usbProcess d)
  intro r
  rcases h.sends drv dev map d with
    ⟨h1, h2, h3, h4⟩ | ⟨f, e, es, h1, h2, he, h3, h4⟩ | ⟨f, e, es, h1, h2, he, h3, h4⟩
  · refine ⟨hc.of_sent rfl rfl (by rw [h3]) ?_ ?_ (by rw [h3]; exact List.Subset.refl _)
      (by rw [h3]; exact List.Subset.refl _), h4 ▸ fun _ h => absurd h List.not_mem_nil⟩
    · rw [h3]
      exact h2 ▸ hc.frames
    · rw [h3]
      exact h1 ▸ hc.rsps
  · have hrsps := hc.rsps
    rw [h1, he, List.forall₂_cons] at hrsps
    constructor
    · refine hc.of_sent rfl rfl (by rw [h3]) ?_ ?_ (by rw [h3]; exact List.Subset.refl _) ?_
      · rw [h3]
        exact h2 ▸ hc.frames
      · rw [h3]
        exact hrsps.2
      · rw [h3, he]
        exact List.subset_cons_self e es
    · rw [h4]
      intro o ho
      rw [List.mem_singleton] at ho
      subst ho
      exact ⟨hrsps.1, fun p t ht => hc.commanded p t (he ▸ ht ▸ List.mem_cons_self)⟩
  · have hframes := hc.frames
    rw [h1, he, List.forall₂_cons] at hframes
    constructor
    · refine hc.of_sent rfl rfl (by rw [h3]) ?_ ?_ ?_ (by rw [h3]; exact List.Subset.refl _)
      · rw [h3]
        exact hframes.2
      · rw [h3]
        exact h2 ▸ hc.rsps
      · rw [h3, he]
        exact List.subset_cons_self e es
    · rw [h4]
      intro o ho
      rw [List.mem_singleton] at ho
      subst ho
      exact ⟨hframes.1, hc.framesArrived e (he ▸ List.mem_cons_self)⟩

/-- Every call keeps the book right, and what it says of a frame that is sent is right. -/
theorem Kept.step {s : Sys η δ} (h : Kept s) (i : Input δ) :
    let r := UartFlush.step drv dev map s i
    Kept r.1 ∧ ∀ o ∈ r.2, Truthful r.1.past o := by
  cases i with
  | ctrl hdr payload payloadLen =>
    exact ⟨h.ctrl drv dev map hdr payload payloadLen, fun _ h => absurd h List.not_mem_nil⟩
  | irqRx logicPort data => exact ⟨h.irqRx drv dev map logicPort data, fun _ h => absurd h List.not_mem_nil⟩
  | process => exact ⟨h.process drv dev map, fun _ h => absurd h List.not_mem_nil⟩
  | usbProcess d => exact h.usbProcess drv dev map d

theorem step_past (s : Sys η δ) (i : Input δ) : (UartFlush.step drv dev map s i).1.past = s.past ++ [i] := by
  cases i <;> rfl

theorem Kept.truthful {s : Sys η δ} (h : Kept s) {tr : List Output} (ht : ∀ o ∈ tr, Truthful s.past o) (i : Input δ) :
    let r := UartFlush.step drv dev map s i
    Kept r.1 ∧ ∀ o ∈ tr ++ r.2, Truthful r.1.past o := by
  obtain ⟨hk, ho⟩ := h.step drv dev map i
  refine ⟨hk, ?_⟩
  intro o hmem
  rcases List.mem_append.mp hmem with hmem | hmem
  · rw [step_past]
    exact (ht o hmem).concat i
  · exact ho o hmem

theorem run_past (s : Sys η δ) (is : List (Input δ)) :
    (Mealy.run (UartFlush.step drv dev map) s is).past = s.past ++ is := by
  induction is generalizing s with
  | nil => exact (List.append_nil _).symm
  | cons i is ih => rw [Mealy.run_cons, ih, step_past, List.append_assoc, List.singleton_append]

end Kept

/-! ## Discarded data -/

/-- A response that says the data of a port was discarded, and a UART_DATA
frame of the port after it: its bytes came after the command. -/
def Apart : Output → Output → Prop
  | .response _ (some (p, t)), .data _ q bytes => q = p → ∀ x ∈ bytes, t < x.2
  | _, _ => True

/-- FLUSH_RX or CLOSE of a port runs, with room for its response, only while
the data queue holds no frame of the port. -/
def Drained (s : Sys η δ) : Input δ → Prop
  | .ctrl hdr _ _ => ∀ p, getPort hdr.chId = some p → (s.uart.ports p).state ≠ .disabled →
      (VpUartOpcode.ofCode hdr.opcode = some .close ∨ VpUartOpcode.ofCode hdr.opcode = some .flushRx) →
      s.tx.rspQ.toList.length < queueDepth → ∀ f ∈ s.tx.dataQ.toList, (header f).chId ≠ UInt8.ofNat p
  | _ => True

section Fresh

/-- A command has its response in the queue or sent. -/
def Answered (s : Sys η δ) (tr : List Output) (p : Fin uartPortCount) (t : Nat) : Prop :=
  some (p, t) ∈ s.book.rsps ∨ ∃ f, .response f (some (p, t)) ∈ tr

/-- After a command whose response is queued or sent, the ring of its port and
its frames in the queue hold only bytes that came after it. -/
structure Fresh (s : Sys η δ) (tr : List Output) : Prop where
  kept : Kept s
  apart : tr.Pairwise Apart
  earlier : ∀ p t, Answered s tr p t → t < s.past.length
  ring : ∀ p t, Answered s tr p t → ∀ x ∈ s.book.ring p, t < x.2
  frames : ∀ p t, Answered s tr p t → ∀ e ∈ s.book.frames, e.1 = p → ∀ x ∈ e.2, t < x.2

variable {s s' : Sys η δ} {tr tr' : List Output}

theorem fresh_start (map : Map) (hw : η) : Fresh (start map hw : Sys η δ) [] := by
  have none (p : Fin uartPortCount) (t : Nat) : ¬ Answered (start map hw : Sys η δ) [] p t := by
    rintro (h | ⟨f, h⟩)
    · cases h
    · cases h
  exact ⟨kept_start map hw, .nil, fun p t h => absurd h (none p t), fun p t h => absurd h (none p t),
    fun p t h => absurd h (none p t)⟩

theorem Fresh.of_sub (h : Fresh s tr) (hk : Kept s') (hp : s.past.length ≤ s'.past.length)
    (ha : ∀ p t, Answered s' tr' p t → Answered s tr p t) (hring : ∀ p, ∀ x ∈ s'.book.ring p, x ∈ s.book.ring p)
    (hframes : ∀ e ∈ s'.book.frames, e ∈ s.book.frames ∨ ∀ x ∈ e.2, x ∈ s.book.ring e.1)
    (hapart : tr'.Pairwise Apart) : Fresh s' tr' where
  kept := hk
  apart := hapart
  earlier p t ht := (h.earlier p t (ha p t ht)).trans_le hp
  ring p t ht x hx := h.ring p t (ha p t ht) x (hring p x hx)
  frames p t ht e he hep x hx := by
    rcases hframes e he with hold | hnew
    · exact h.frames p t (ha p t ht) e hold hep x hx
    · exact h.ring p t (ha p t ht) x (hep ▸ hnew x hx)

theorem Fresh.concat (h : Fresh s tr) (i : Input δ) : Fresh { s with past := s.past ++ [i] } tr := by
  refine h.of_sub (h.kept.concat i) ?_ (fun p t ht => ht) (fun p x hx => hx) (fun e he => .inl he) h.apart
  exact (List.length_append ..).symm ▸ Nat.le_add_right _ _

theorem Fresh.ctrl (h : Fresh s tr) {hdr : VpHdr} {payload : Ptr UInt8} {payloadLen : UInt16}
    (hd : Drained s (.ctrl hdr payload payloadLen)) :
    Fresh (UartFlush.step drv dev map s (.ctrl hdr payload payloadLen)).1 tr := by
  obtain ⟨status, rsp, rspLen, he, hring⟩ := handleCtrl_discards drv map s.uart hdr payload payloadLen
  obtain ⟨-, hrsp⟩ := enqueueAll_rsp s.tx hdr status rsp rspLen
  have hk := h.kept.ctrl drv dev map hdr payload payloadLen
  -- a response is one from before, or this command's, and then it discarded the data of its port
  have hcases (p t) (ht : Answered (UartFlush.step drv dev map s (.ctrl hdr payload payloadLen)).1 tr p t) :
      Answered s tr p t ∨ (t = s.past.length ∧
        discarded ((Enqueue.rsp hdr status rsp rspLen).hdr 0) = some p ∧ s.tx.rspQ.toList.length < queueDepth) := by
    rcases ht with ht | ht
    · simp only [UartFlush.step, he, Book.answered] at ht
      rcases hrsp with ⟨h1, -⟩ | ⟨f, h1, -, h3, h4⟩
      · exact .inl (.inl (by simpa [h1] using ht))
      · simp only [h1, List.map_cons, List.map_nil, List.mem_append, List.mem_singleton] at ht
        rcases ht with ht | ht
        · exact .inl (.inl ht)
        · obtain ⟨q, hq, hqt⟩ := Option.map_eq_some_iff.mp ht.symm
          simp only [Prod.mk.injEq] at hqt
          obtain ⟨rfl, rfl⟩ := hqt
          exact .inr ⟨rfl, h3 ▸ hq, h4⟩
    · exact .inl (.inr ht)
  refine ⟨hk, h.apart, ?_, ?_, ?_⟩
  · intro p t ht
    rw [step_past, List.length_append, List.length_singleton]
    rcases hcases p t ht with hold | ⟨rfl, -⟩
    · exact Nat.lt_succ_of_lt (h.earlier p t hold)
    · exact Nat.lt_succ_self _
  · intro p t ht x hx
    simp only [UartFlush.step, he, Book.answered, List.any_cons, List.any_nil, Bool.or_false,
      decide_eq_true_eq] at hx
    split at hx
    · cases hx
    · next hne =>
      rcases hcases p t ht with hold | ⟨-, hnew, -⟩
      · exact h.ring p t hold x hx
      · exact absurd hnew hne
  · intro p t ht e hef hep x hx
    simp only [UartFlush.step, he, Book.answered] at hef
    rcases hcases p t ht with hold | ⟨-, hnew, hroom⟩
    · exact h.frames p t hold e hef hep x hx
    · -- the queue holds no frame of the port
      obtain ⟨-, hp, hop⟩ := (discarded_rsp hdr status rsp rspLen p).mp hnew
      obtain ⟨f, hf, -, -, hch, -⟩ := forall₂_exists h.kept.frames hef
      exact absurd (hep ▸ hch) (hd p hp ((hring p).1 hnew) hop hroom f hf)

theorem Fresh.irqRx (h : Fresh s tr) (logicPort data : UInt8) :
    Fresh (UartFlush.step drv dev map s (.irqRx logicPort data)).1 tr := by
  have hk := h.kept.irqRx drv dev map logicPort data
  have hrsps : (UartFlush.step drv dev map s (.irqRx logicPort data)).1.book.rsps = s.book.rsps := by
    simp only [UartFlush.step]
    split <;> rfl
  have hframes : (UartFlush.step drv dev map s (.irqRx logicPort data)).1.book.frames = s.book.frames := by
    simp only [UartFlush.step]
    split <;> rfl
  have hsame (p t) (ht : Answered (UartFlush.step drv dev map s (.irqRx logicPort data)).1 tr p t) :
      Answered s tr p t := by rwa [Answered, hrsps] at ht
  refine ⟨hk, h.apart, ?_, ?_, fun p t ht => hframes ▸ h.frames p t (hsame p t ht)⟩
  · intro p t ht
    rw [step_past, List.length_append]
    exact Nat.lt_add_right _ (h.earlier p t (hsame p t ht))
  · -- the byte that comes now has a larger number than any command before
    intro p t ht x hx
    have hold := h.ring p t (hsame p t ht)
    have hnow := h.earlier p t (hsame p t ht)
    simp only [UartFlush.step] at hx
    split at hx
    · exact hold x hx
    · next q _ =>
      simp only [Book.arrived] at hx
      by_cases hq : p = q
      · subst hq
        rw [Function.update_self, List.mem_append, List.mem_map] at hx
        rcases hx with hx | ⟨b, -, rfl⟩
        · exact hold x hx
        · exact hnow
      · rw [Function.update_of_ne hq] at hx
        exact hold x hx

theorem Fresh.offered (h : Fresh s tr) (c : DataCall) {uart : State η} {tx : UsbTx.Ctx}
    (hk : Kept (⟨uart, tx, s.past, s.book.offered c⟩ : Sys η δ)) :
    Fresh (⟨uart, tx, s.past, s.book.offered c⟩ : Sys η δ) tr := by
  refine h.of_sub hk le_rfl (fun p t ht => ht) ?_ ?_ h.apart
  · exact (Function.forall_update_iff _ fun q ring => ∀ x ∈ ring, x ∈ s.book.ring q).mpr
      ⟨fun x hx => List.mem_of_mem_drop hx, fun q _ x hx => hx⟩
  · intro e he
    simp only [Book.offered] at he
    split at he
    · rcases List.mem_append.mp he with he | he
      · exact .inl he
      · rw [List.mem_singleton] at he
        subst he
        exact .inr fun x hx => List.mem_of_mem_take hx
    · exact .inl he

theorem Fresh.process (h : Fresh s tr) : Fresh (UartFlush.step drv dev map s .process).1 tr := by
  have hr := processed_rule (J := fun s => Fresh s tr) (fun s p h => ?_) h
  · rw [step_process]
    exact hr.concat .process
  · have hk := h.kept.processPort p
    by_cases ho : (s.uart.ports p).state = .opened
    · by_cases he : (s.uart.ports p).rxRb.toList = []
      · rw [processPort_empty scheduler ho he]
        exact h
      · obtain ⟨rb, -, -, he⟩ := processPort_offer scheduler ho he s.tx
        rw [he] at hk ⊢
        exact h.offered _ hk
    · rw [processPort_not_opened scheduler ho]
      exact h

theorem apart_concat {tr : List Output} (h : tr.Pairwise Apart) {o : Output} (ho : ∀ a ∈ tr, Apart a o) :
    (tr ++ [o]).Pairwise Apart := by
  refine List.pairwise_append.mpr ⟨h, List.pairwise_singleton .., ?_⟩
  intro a ha b hb
  rw [List.mem_singleton.mp hb]
  exact ho a ha

/-- Frames leave the data queue, or none do, and the rings stay. -/
theorem Fresh.of_sent (h : Fresh s tr) (hk : Kept s') (hp : s.past.length ≤ s'.past.length)
    (hring : s'.book.ring = s.book.ring) (hframes : s'.book.frames ⊆ s.book.frames)
    (ha : ∀ p t, Answered s' tr' p t → Answered s tr p t) (hapart : tr'.Pairwise Apart) : Fresh s' tr' :=
  h.of_sub hk hp ha (fun p x hx => by rwa [hring] at hx) (fun _ he => .inl (hframes he)) hapart

theorem apart_response (a : Output) (f : Frame) (e : Option (Fin uartPortCount × Nat)) : Apart a (.response f e) := by
  cases a with
  | response g t => cases t <;> trivial
  | data => trivial

/-- The first frame of the data queue is apart from what went out before it:
the responses of these commands are sent. -/
theorem Fresh.apart_data (h : Fresh s tr) {f : Frame} {e : Fin uartPortCount × List Stamped}
    (he : e ∈ s.book.frames) : ∀ a ∈ tr, Apart a (.data f e.1 e.2) := by
  intro a ha
  cases a with
  | data => trivial
  | response g t =>
    cases t with
    | none => trivial
    | some t => exact h.frames t.1 t.2 (.inr ⟨g, ha⟩) e he

theorem Fresh.usbProcess (h : Fresh s tr) (d : δ) :
    let r := UartFlush.step drv dev map s (.usbProcess d)
    Fresh r.1 (tr ++ r.2) := by
  have hk := (h.kept.usbProcess drv dev map d).1
  have hp : s.past.length ≤ (UartFlush.step drv dev map s (.usbProcess d)).1.past.length := by
    rw [step_past, List.length_append]
    exact Nat.le_add_right _ _
  intro r
  rcases h.kept.sends drv dev map d with
    ⟨-, -, h3, h4⟩ | ⟨f, e, es, -, -, he, h3, h4⟩ | ⟨f, e, es, -, -, he, h3, h4⟩
  · refine h.of_sent hk hp (by rw [h3]) (by rw [h3]; exact List.Subset.refl _) ?_ ?_
    · intro p t ht
      rwa [Answered, h3, h4, List.append_nil] at ht
    · rw [h4, List.append_nil]
      exact h.apart
  · refine h.of_sent hk hp (by rw [h3]) (by rw [h3]; exact List.Subset.refl _) ?_ ?_
    · -- a response that goes out was in the queue
      intro p t ht
      rw [Answered, h3, h4] at ht
      rw [Answered, he]
      rcases ht with ht | ⟨g, hg⟩
      · exact .inl (List.mem_cons_of_mem e ht)
      · rcases List.mem_append.mp hg with hg | hg
        · exact .inr ⟨g, hg⟩
        · simp only [List.mem_singleton, Output.response.injEq] at hg
          exact .inl (hg.2 ▸ List.mem_cons_self)
    · rw [h4]
      exact apart_concat h.apart fun a _ => apart_response a f e
  · refine h.of_sent hk hp (by rw [h3]) ?_ ?_ ?_
    · rw [h3, he]
      exact List.subset_cons_self e es
    · intro p t ht
      rw [Answered, h3, h4] at ht
      rcases ht with ht | ⟨g, hg⟩
      · exact .inl ht
      · rcases List.mem_append.mp hg with hg | hg
        · exact .inr ⟨g, hg⟩
        · simp at hg
    · rw [h4]
      exact apart_concat h.apart (h.apart_data (he ▸ List.mem_cons_self))

theorem Fresh.step (h : Fresh s tr) {i : Input δ} (hd : Drained s i) :
    let r := UartFlush.step drv dev map s i
    Fresh r.1 (tr ++ r.2) := by
  intro r
  cases i with
  | ctrl hdr payload payloadLen =>
    rw [show tr ++ r.2 = tr from List.append_nil tr]
    exact h.ctrl drv dev map hd
  | irqRx logicPort data =>
    rw [show tr ++ r.2 = tr from List.append_nil tr]
    exact h.irqRx drv dev map logicPort data
  | process =>
    rw [show tr ++ r.2 = tr from List.append_nil tr]
    exact h.process drv dev map
  | usbProcess d => exact h.usbProcess drv dev map d

end Fresh

/-- **Discarded data stays away.** Every frame that `USBDEV_SendFrame` takes is
what the book says: a UART_DATA frame of its port whose bytes were brought by
the calls with their numbers, or a response, with the command that discarded
data if it says so. In a run in which every FLUSH_RX and CLOSE that runs and
has room for its response finds no frame of its port in the data queue, the
UART_DATA frames of a port that go out after the response hold only bytes
that came after the command. -/
theorem discarded_data_stays_away (hw : η) (is : List (Input δ)) :
    let s := start map hw
    let tr := Mealy.outs (step drv dev map) s is
    (∀ o ∈ tr, Truthful is o) ∧ (Mealy.Along (step drv dev map) Drained s is → tr.Pairwise Apart) := by
  intro s tr
  constructor
  · have hall := Mealy.history_run (J := fun s tr => Kept s ∧ ∀ o ∈ tr, Truthful s.past o)
      (fun _ _ i h => h.1.truthful drv dev map h.2 i) ⟨kept_start map hw, fun _ h => absurd h List.not_mem_nil⟩ is
    rw [run_past] at hall
    exact hall.2
  · intro ha
    have := Mealy.history_run_along (J := Fresh) (fun _ _ _ hd h => h.step drv dev map hd) (fresh_start map hw) ha
    simpa using this.apart

instance (a b : Output) : Decidable (Apart a b) := by
  cases a with
  | response f e =>
    cases e <;> cases b <;> unfold Apart <;> infer_instance
  | data f p bytes => exact .isTrue trivial

/-- What an output says beside its frame. -/
def Output.note : Output → Option (Fin uartPortCount × Nat) ⊕ (Fin uartPortCount × List Stamped)
  | .response _ e => .inl e
  | .data _ p bytes => .inr (p, bytes)

/-- A byte of port 0 is queued, FLUSH_RX is executed and answered, and the byte goes out. -/
theorem flushed_byte_sent :
    let drv : UartPort Unit := ⟨fun h _ _ _ _ _ => (h, .ok), fun h _ => h, fun h _ => h⟩
    let dev : UsbDevice Unit :=
      ⟨fun _ => true, fun _ => false, fun _ => true, fun d _ => (d, true), fun d _ _ => (d, true)⟩
    let tr := Mealy.outs (step drv dev uartMapCfg) (start uartMapCfg ())
      [.ctrl { VpHdr.zero with opcode := 3 } (some [0, 194, 1, 0]) 4, .irqRx 0 65, .process,
        .ctrl { VpHdr.zero with opcode := 10 } none 0, .usbProcess (), .usbProcess (), .usbProcess ()]
    tr.map Output.note = [.inl none, .inl (some (0, 3)), .inr (0, [(65, 1)])] ∧ ¬ tr.Pairwise Apart := by
  decide +kernel

end UsbMux.UartFlush
