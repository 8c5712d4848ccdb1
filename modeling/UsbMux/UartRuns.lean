/-
Runs of the UART subsystem on its hardware: control commands, writes from the
host, the foreground loop and the interrupts of the four USARTs, in any
order. One invariant holds of every reachable state, for every port map
(`Inv`): what the state of a port allows its rings, its line coding and its
USART to be. Whether the transmit interrupt is enabled while bytes wait is
a matter of one command, for which the condition is exact.
-/
import UsbMux.UartPaths
import UsbMux.UartPort

namespace UsbMux.UartHw

open UsbTx UartMgr

/-! ## The machine -/

/-- A step; `UartMgr_Process` comes with the answers of `USBTX_QueueData`, an
interrupt with what its handler reads from the status and the data register. -/
inductive Input
  | ctrl (hdr : VpHdr) (payload : Ptr UInt8) (payloadLen : UInt16)
  | write (logicPort : UInt8) (payload : Ptr UInt8) (payloadLen : UInt16)
  | process (answer : Enqueue → Bool)
  | irq (u : Fin 4) (statr datar : UInt16)

variable (map : Map)

/-- One step, with the answer of a command. -/
def step : Mealy.Step (State Hw) Input Enqueue
  | s, .ctrl hdr payload payloadLen => handleCtrl (uartPort map) map s hdr payload payloadLen
  | s, .write logicPort payload payloadLen => ((writeFromHost (uartPort map) s logicPort payload payloadLen).1, [])
  | s, .process answer => ((process (fun (t : Unit) call => (t, answer call)) s ()).1, [])
  | s, .irq u statr datar => (irqHandler map s u statr datar, [])

/-! ## The driver's calls -/

/-- `UARTPort_Open` can configure port `p`: its map entry is enabled and names
both pins' ports and a USART, which is `u`. -/
def Openable (p : Fin uartPortCount) (u : Fin 4) : Prop :=
  getHwDesc map (UInt8.ofNat p) = some u ∧ (map p).enable ≠ 0 ∧ (map p).txPort ≠ 0 ∧ (map p).rxPort ≠ 0

/-- The USART is named by an enabled entry of the map. -/
def Owned (u : Fin 4) : Prop := ∃ p, (map p).enable ≠ 0 ∧ (map p).phyUartId = UInt8.ofNat (u + 1)

variable {map}

theorem getHwDesc_phy {p : Fin uartPortCount} {u : Fin 4} (h : getHwDesc map (UInt8.ofNat p) = some u) :
    (map p).phyUartId = UInt8.ofNat (u + 1) := by
  unfold getHwDesc at h
  rw [getPort_ofNat] at h
  simp only at h
  split at h
  · cases h
  · next hn =>
    have h0 : (map p).phyUartId.toNat ≠ 0 := fun h0 => hn (.inl (UInt8.toNat_inj.mp h0))
    obtain ⟨hlt, hu⟩ := List.getElem?_eq_some_iff.mp h
    have hval : u.val = (map p).phyUartId.toNat - 1 := by
      rw [← hu, List.getElem_finRange]
      rfl
    have h1 : u.val + 1 = (map p).phyUartId.toNat := by omega
    rw [h1, UInt8.ofNat_toNat]

@[simp] theorem modify_usart (h : Hw) (u : Fin 4) (f : Usart → Usart) : (h.modify u f).usart u = f (h.usart u) := by
  simp [Hw.modify]

theorem modify_usart_of_ne (h : Hw) {u v : Fin 4} (f : Usart → Usart) (hv : v ≠ u) :
    (h.modify u f).usart v = h.usart v := by simp [Hw.modify, hv]

/-- The arguments of the last call of `UARTPort_Open` for port `p` that was answered OK. -/
def Hw.lastOpen (h : Hw) (p : Fin uartPortCount) : Option LineCoding := h.opens.lookup (UInt8.ofNat p)

/-- The hardware after `UARTPort_Open` has configured USART `u` for port `p`. -/
def Hw.opened (h : Hw) (p : Fin uartPortCount) (u : Fin 4) (c : LineCoding) : Hw :=
  { h.modify u (configure · c (h.apbclock u)) with opens := (UInt8.ofNat p, c) :: h.opens }

@[simp] theorem lastOpen_opened (h : Hw) (p : Fin uartPortCount) (u : Fin 4) (c : LineCoding) :
    (h.opened p u c).lastOpen p = some c := List.lookup_cons_self

theorem lastOpen_opened_of_ne (h : Hw) {p q : Fin uartPortCount} (u : Fin 4) (c : LineCoding) (hq : q ≠ p) :
    (h.opened p u c).lastOpen q = h.lastOpen q := by
  have hne : (UInt8.ofNat q == UInt8.ofNat p) = false := by
    clear u c
    revert p q
    decide
  simp only [Hw.lastOpen, Hw.opened, List.lookup_cons, hne]

/-- What `UARTPort_Open` does: it configures the USART of the port, or it
fails without a register write where the map entry does not allow it. -/
theorem callOpen_cases (s : State Hw) {p : Fin uartPortCount} (hi : (s.ports p).logicPort = UInt8.ofNat p)
    (c : LineCoding) :
    (∃ u, Openable map p u ∧ callOpen (uartPort map) s p c = ({ s with hw := s.hw.opened p u c }, .ok)) ∨
    ((∀ u, ¬ Openable map p u) ∧ ∃ status, status ≠ .ok ∧ callOpen (uartPort map) s p c = (s, status)) := by
  unfold callOpen
  rw [hi]
  simp only [uartPort, openPort, getPort_ofNat, applyConfig]
  cases hd : getHwDesc map (UInt8.ofNat p) with
  | none =>
    refine .inr ⟨?_, .errUartMapInvalid, by decide, rfl⟩
    intro u hu
    rw [Openable, hd] at hu
    cases hu.1
  | some u =>
    by_cases hm : (map p).enable = 0 ∨ (map p).txPort = 0 ∨ (map p).rxPort = 0
    · refine .inr ⟨?_, .errUartMapInvalid, by decide, by simp only [if_pos hm]; rfl⟩
      intro v hv
      obtain ⟨-, h1, h2, h3⟩ := hv
      tauto
    · refine .inl ⟨u, ⟨hd, by tauto, by tauto, by tauto⟩, ?_⟩
      simp only [if_neg hm]
      rfl

/-- A call that is answered OK has configured the USART of the port. -/
theorem callOpen_ok {s : State Hw} {p : Fin uartPortCount} (hi : (s.ports p).logicPort = UInt8.ofNat p)
    {c : LineCoding} (hok : (callOpen (uartPort map) s p c).2 = .ok) :
    ∃ u, Openable map p u ∧ (callOpen (uartPort map) s p c).1 = { s with hw := s.hw.opened p u c } := by
  rcases callOpen_cases s hi c with ⟨u, hu, he⟩ | ⟨-, status, hst, he⟩
  · exact ⟨u, hu, congrArg Prod.fst he⟩
  · rw [he] at hok
    exact absurd hok hst

theorem callOpen_failed {s : State Hw} {p : Fin uartPortCount} (hi : (s.ports p).logicPort = UInt8.ofNat p)
    {c : LineCoding} (hok : (callOpen (uartPort map) s p c).2 ≠ .ok) : (callOpen (uartPort map) s p c).1 = s := by
  rcases callOpen_cases s hi c with ⟨u, -, he⟩ | ⟨-, status, -, he⟩
  · rw [he] at hok
    exact absurd rfl hok
  · rw [he]

/-- What a call for port `p` may do to the hardware. -/
structure Touches (map : Map) (p : Fin uartPortCount) (h h' : Hw) : Prop where
  usart : ∀ u, getHwDesc map (UInt8.ofNat p) ≠ some u → h'.usart u = h.usart u ∧ h'.written.count u = h.written.count u
  lastOpen : ∀ q, q ≠ p → h'.lastOpen q = h.lastOpen q

theorem Touches.refl (p : Fin uartPortCount) (h : Hw) : Touches map p h h := ⟨fun _ _ => ⟨rfl, rfl⟩, fun _ _ => rfl⟩

theorem touches_modify {p : Fin uartPortCount} {u : Fin 4} (hd : getHwDesc map (UInt8.ofNat p) = some u) (h : Hw)
    (f : Usart → Usart) : Touches map p h (h.modify u f) where
  usart v hv := by
    have hne : v ≠ u := fun he => hv (he ▸ hd)
    exact ⟨modify_usart_of_ne h f hne, List.count_cons_of_ne (Ne.symm hne)⟩
  lastOpen q _ := rfl

theorem touches_opened {p : Fin uartPortCount} {u : Fin 4} (hd : getHwDesc map (UInt8.ofNat p) = some u) (h : Hw)
    (c : LineCoding) : Touches map p h (h.opened p u c) where
  usart := (touches_modify hd h (configure · c (h.apbclock u))).usart
  lastOpen _ hq := lastOpen_opened_of_ne h u c hq

theorem touches_close (p : Fin uartPortCount) (h : Hw) : Touches map p h (close map h (UInt8.ofNat p)) := by
  unfold close
  split
  · exact .refl p h
  · next hd => exact touches_modify hd h _

theorem touches_tryKickTx (p : Fin uartPortCount) (h : Hw) : Touches map p h (tryKickTx map h (UInt8.ofNat p)) := by
  unfold tryKickTx
  split
  · exact .refl p h
  · next hd => exact touches_modify hd h _

@[simp] theorem tryKickTx_lastOpen (h : Hw) (logicPort : UInt8) (p : Fin uartPortCount) :
    (tryKickTx map h logicPort).lastOpen p = h.lastOpen p := by
  unfold tryKickTx
  split <;> rfl

/-! ## The invariant -/

/-- What `UartMgr_ParseLineCoding` checks. -/
structure Valid (c : LineCoding) : Prop where
  baudrate : c.baudrate ≠ 0
  dataBits : c.dataBits = 8 ∨ c.dataBits = 9
  parity : c.parity ≤ 2
  stopBits : c.stopBits = 1 ∨ c.stopBits = 2

theorem parseLineCoding_valid {payload : Ptr UInt8} {payloadLen : UInt16} {c : LineCoding}
    (h : parseLineCoding payload payloadLen = .ok c) : Valid c := by
  unfold parseLineCoding at h
  split at h
  · cases h
  simp only at h
  -- the three fields that a short payload leaves at their defaults
  generalize (if payloadLen ≥ 5 then payload.cell 4 else 8) = dataBits at h
  generalize (if payloadLen ≥ 6 then payload.cell 5 else 0) = parity at h
  generalize (if payloadLen ≥ 7 then payload.cell 6 else 1) = stopBits at h
  split at h
  · cases h
  next hc =>
  split at h
  · cases h
  next hs =>
  split at h
  · cases h
  cases h
  simp only [not_or, UInt8.not_lt] at hc
  obtain ⟨h1, h2, h3, h4⟩ := hc
  refine ⟨h1, ?_, h4, by tauto⟩
  have h2 := UInt8.le_iff_toNat_le.mp h2
  have h3 := UInt8.le_iff_toNat_le.mp h3
  simp only [← UInt8.toNat_inj]
  simp only [UInt8.reduceToNat] at h2 h3 ⊢
  omega

/-- The line coding a port context stores. -/
def lineCoding (port : PortCtx) : LineCoding := ⟨port.baudrate, port.dataBits, port.parity, port.stopBits⟩

/-- What holds of port `p` between steps, where `last` is the last successful
`UARTPort_Open` for it. -/
structure PortOk (map : Map) (last : Option LineCoding) (p : Fin uartPortCount) (port : PortCtx) : Prop where
  index : port.logicPort = UInt8.ofNat p
  state : port.state = .disabled ∨ port.state = .closed ∨ port.state = .opened ∨ port.state = .error
  disabled : port.state = .disabled ↔ (map p).enable = 0
  empty : port.state ≠ .opened → port.rxRb.toList = [] ∧ port.txRb.toList = []
  coding : Valid (lineCoding port)
  opened : port.state = .opened → last = some (lineCoding port) ∧ ∃ u, Openable map p u

/-- The fields of a port that `PortOk` is about, its rings apart. -/
def setup (port : PortCtx) : UInt8 × PortState × LineCoding := (port.logicPort, port.state, lineCoding port)

theorem PortOk.of_opened {last last' : Option LineCoding} {p : Fin uartPortCount} {port port' : PortCtx}
    (h : PortOk map last p port) (ho : port.state = .opened) (hs : setup port' = setup port) (hl : last' = last) :
    PortOk map last' p port' := by
  simp only [setup, Prod.mk.injEq] at hs
  obtain ⟨h1, h2, h3⟩ := hs
  refine ⟨h1.trans h.index, h2 ▸ h.state, h2 ▸ h.disabled, fun hn => absurd (h2.trans ho) hn, h3 ▸ h.coding, ?_⟩
  rw [hl, h3]
  exact fun _ => h.opened ho

/-- The invariant: every port is in order, and the USARTs that no enabled entry
names are as they were at the start. -/
structure Inv (map : Map) (h0 : Hw) (s : State Hw) : Prop where
  port : ∀ p, PortOk map (s.hw.lastOpen p) p (s.ports p)
  spared : ∀ u, ¬ Owned map u → s.hw.usart u = h0.usart u ∧ s.hw.written.count u = h0.written.count u

/-- A step that changes one port, and the hardware as a call for it may. -/
theorem Inv.update {h0 : Hw} {s s' : State Hw} (h : Inv map h0 s) (p : Fin uartPortCount)
    (he : (s.ports p).state ≠ .disabled) (hq : ∀ q, q ≠ p → s'.ports q = s.ports q) (ht : Touches map p s.hw s'.hw)
    (hp : PortOk map (s'.hw.lastOpen p) p (s'.ports p)) : Inv map h0 s' where
  port q := by
    by_cases hqp : q = p
    · exact hqp ▸ hp
    · rw [hq q hqp, ht.lastOpen q hqp]
      exact h.port q
  spared u hu := by
    have henable : (map p).enable ≠ 0 := fun h0 => he ((h.port p).disabled.mpr h0)
    obtain ⟨h1, h2⟩ := ht.usart u fun hd => hu ⟨p, henable, getHwDesc_phy hd⟩
    obtain ⟨h3, h4⟩ := h.spared u hu
    exact ⟨h1.trans h3, h2.trans h4⟩

theorem inv_init (map : Map) (h : Hw) : Inv map h (UartMgr.init map h) where
  port p :=
    { index := rfl
      state := by
        simp only [UartMgr.init, initPort]
        split <;> simp
      disabled := by
        simp only [UartMgr.init, initPort]
        split <;> simp_all
      empty := fun _ => ⟨RingBuffer.toList_init .., RingBuffer.toList_init ..⟩
      coding := ⟨(by decide : (115200 : UInt32) ≠ 0), .inl rfl, UInt8.zero_le, .inl rfl⟩
      opened := fun ho => by
        simp only [UartMgr.init, initPort] at ho
        split at ho <;> cases ho }
  spared _ _ := ⟨rfl, rfl⟩

section Step

variable {h0 : Hw} {s s' : State Hw}

theorem Inv.enabled (h : Inv map h0 s) {p : Fin uartPortCount} (hs : (s.ports p).state ≠ .disabled) :
    (map p).enable ≠ 0 := fun he => hs ((h.port p).disabled.mpr he)

/-- A port that is not disabled is changed, with what the driver did for it. -/
theorem Inv.modify (h : Inv map h0 s) {p : Fin uartPortCount} (he : (s.ports p).state ≠ .disabled) {h' : Hw}
    (ht : Touches map p s.hw h') {f : PortCtx → PortCtx} (hp : PortOk map (h'.lastOpen p) p (f (s.ports p))) :
    Inv map h0 (({ s with hw := h' } : State Hw).modify p f) := by
  refine h.update p he (fun q hq => modify_of_ne _ f hq) ht ?_
  rwa [modify_self]

/-- A step that changes the rings and counters of one open port. -/
theorem Inv.update_opened (h : Inv map h0 s) {p : Fin uartPortCount} (ho : (s.ports p).state = .opened)
    (f : PortCtx → PortCtx) (hf : setup (f (s.ports p)) = setup (s.ports p)) {h' : Hw} (ht : Touches map p s.hw h')
    (hl : h'.lastOpen p = s.hw.lastOpen p) : Inv map h0 { s.modify p f with hw := h' } := by
  exact h.modify (by simp [ho]) ht ((h.port p).of_opened ho hf hl)

theorem Inv.modify_opened (h : Inv map h0 s) {p : Fin uartPortCount} (ho : (s.ports p).state = .opened)
    {f : PortCtx → PortCtx} (hf : setup (f (s.ports p)) = setup (s.ports p)) : Inv map h0 (s.modify p f) :=
  h.update_opened ho f hf (.refl p s.hw) rfl

theorem Inv.handled (h : Inv map h0 s) {hdr : VpHdr} {payload : Ptr UInt8} {payloadLen : UInt16} {status : VpStatus}
    (hh : Handled (uartPort map) s hdr payload payloadLen s' status) : Inv map h0 s' := by
  cases hh with
  | same => exact h
  | @opened p c _ _ hs hc hok =>
    have hport := h.port p
    have hne : (s.ports p).state ≠ .disabled := by rcases hs with hs | hs <;> simp [hs]
    obtain ⟨u, hu, he⟩ := callOpen_ok hport.index hok
    rw [he]
    exact h.modify hne (touches_opened hu.1 s.hw c)
      { index := hport.index
        state := by simp
        disabled := by simpa using hu.2.1
        empty := fun hn => absurd rfl hn
        coding := parseLineCoding_valid hc
        opened := fun _ => ⟨lastOpen_opened .., u, hu⟩ }
  | @openFailed p c _ _ hs hc hok =>
    have hport := h.port p
    have hne : (s.ports p).state ≠ .disabled := by rcases hs with hs | hs <;> simp [hs]
    rw [callOpen_failed hport.index hok]
    exact h.modify hne (.refl p s.hw)
      { index := hport.index
        state := by simp
        disabled := by simpa using h.enabled hne
        empty := fun _ => hport.empty (by rcases hs with hs | hs <;> simp [hs])
        coding := hport.coding
        opened := fun ho => by cases ho }
  | @closed p _ _ hs =>
    have hport := h.port p
    rw [hport.index]
    exact h.modify hs (touches_close p s.hw)
      { index := hport.index
        state := by simp
        disabled := by simpa using h.enabled hs
        empty := fun _ => ⟨RingBuffer.toList_reset _, RingBuffer.toList_reset _⟩
        coding := hport.coding
        opened := fun ho => by cases ho }
  | @recoded p c _ _ hs hc hok =>
    have hport := h.port p
    obtain ⟨u, hu, he⟩ := callOpen_ok hport.index hok
    rw [he]
    exact h.modify (by simp [hs]) (touches_opened hu.1 s.hw c)
      { index := hport.index
        state := hport.state
        disabled := hport.disabled
        empty := hport.empty
        coding := parseLineCoding_valid hc
        opened := fun _ => ⟨lastOpen_opened .., u, hu⟩ }
  | @recodeFailed p c _ _ hs hc hok =>
    rw [callOpen_failed (h.port p).index hok]
    exact h
  | @flushedRx p _ _ hs =>
    have hport := h.port p
    exact h.modify hs (.refl p s.hw)
      { hport with empty := fun hn => ⟨RingBuffer.toList_reset _, (hport.empty hn).2⟩ }
  | @flushedTx p _ _ hs =>
    have hport := h.port p
    exact h.modify hs (.refl p s.hw)
      { hport with empty := fun hn => ⟨(hport.empty hn).1, RingBuffer.toList_reset _⟩ }

theorem Inv.written (h : Inv map h0 s) (logicPort : UInt8) (payload : Ptr UInt8) (payloadLen : UInt16) :
    Inv map h0 (writeFromHost (uartPort map) s logicPort payload payloadLen).1 := by
  rcases writeFromHost_cases (uartPort map) s logicPort payload payloadLen with ⟨he, -⟩ | ⟨p, hp, ho, he⟩
  · rwa [he]
  · rw [he, getPort_toNat hp]
    exact h.update_opened ho _ rfl (touches_tryKickTx p s.hw) (tryKickTx_lastOpen ..)

theorem Inv.process {τ : Type} (usb : Usb τ) (t : τ) (h : Inv map h0 s) :
    Inv map h0 (UartMgr.process usb s t).1 := by
  refine process_rule (J := fun s' _ _ => Inv map h0 s') usb ?_ h
  intro s t _ p h
  by_cases ho : (s.ports p).state = .opened
  · by_cases he : (s.ports p).rxRb.toList = []
    · rwa [processPort_empty usb ho he]
    · obtain ⟨rb, -, -, hr⟩ := processPort_offer usb ho he t
      rw [hr]
      dsimp only
      exact h.modify_opened ho rfl
  · rwa [processPort_not_opened usb ho]

theorem Inv.rxIrq (h : Inv map h0 s) (p : Fin uartPortCount) (u : Fin 4) (statr datar : UInt16) :
    Inv map h0 (rxIrq s p u statr datar) := by
  unfold UartHw.rxIrq
  split
  · rcases irqRxByte_cases s (UInt8.ofNat p) (usartReceiveData datar).toUInt8 with
      ⟨he, -⟩ | ⟨q, -, ho, he | ⟨rb, -, he⟩⟩
    · rwa [he]
    · rw [he]
      exact h.modify_opened ho rfl
    · rw [he]
      exact h.modify_opened ho rfl
  · exact h

theorem Inv.txIrq (h : Inv map h0 s) {p : Fin uartPortCount} (hs : (s.ports p).state ≠ .disabled) {u : Fin 4}
    (hd : getHwDesc map (UInt8.ofNat p) = some u) (statr : UInt16) : Inv map h0 (txIrq s p u statr) := by
  unfold UartHw.txIrq
  split
  · rcases irqTxNextByte_cases s (UInt8.ofNat p) with ⟨he, -⟩ | ⟨q, b, rb, hq, ho, -, he⟩
    · simp only [he]
      have ht := touches_modify hd s.hw (usartITConfig · usartItTxe false)
      exact h.update p hs (fun _ _ => rfl) ht (h.port p)
    · rw [getPort_ofNat, Option.some.injEq] at hq
      subst hq
      simp only [he]
      exact h.update_opened ho _ rfl (touches_modify hd s.hw _) rfl
  · exact h

/-- The handler of a USART serves the port that an enabled entry gives the USART, if there is one. -/
theorem irqHandler_cases (map : Map) (s : State Hw) (u : Fin 4) (statr datar : UInt16) :
    irqHandler map s u statr datar = s ∨
    ∃ p v, (map p).enable ≠ 0 ∧ getHwDesc map (UInt8.ofNat p) = some v ∧
      irqHandler map s u statr datar = UartHw.txIrq (UartHw.rxIrq s p v statr datar) p v statr := by
  unfold irqHandler commonIrq
  cases hf : findLogicPortByPhy map (UInt8.ofNat (u + 1)) with
  | none => exact .inl rfl
  | some p =>
    have hp : (map p).enable ≠ 0 ∧ (map p).phyUartId = UInt8.ofNat (u + 1) := by
      simpa using List.find?_some hf
    simp only
    cases hd : getHwDesc map (UInt8.ofNat p) with
    | none => exact .inl rfl
    | some v => exact .inr ⟨p, v, hp.1, hd, rfl⟩

theorem inv_step (h : Inv map h0 s) (i : Input) : Inv map h0 (step map s i).1 := by
  cases i with
  | ctrl hdr payload payloadLen =>
    obtain ⟨_, _, _, -, hh⟩ := handleCtrl_handled (uartPort map) map s hdr payload payloadLen
    exact h.handled hh
  | write logicPort payload payloadLen => exact h.written logicPort payload payloadLen
  | process answer =>
    simp only [step]
    exact h.process _ ()
  | irq u statr datar =>
    simp only [step]
    rcases irqHandler_cases map s u statr datar with he | ⟨p, v, hp, hd, he⟩
    · rwa [he]
    · rw [he]
      have hr := h.rxIrq p v statr datar
      exact hr.txIrq (fun hs => hp ((hr.port p).disabled.mp hs)) hd statr

end Step

theorem inv_run (map : Map) (h : Hw) (is : List Input) :
    Inv map h (Mealy.run (step map) (UartMgr.init map h) is) :=
  Mealy.inv_run (I := Inv map h) (fun _ i hi => inv_step hi i) (inv_init map h) is

/-! ## The ports in every state -/

/-- A command answered with another status than OK leaves every line coding as it was. -/
theorem lineCoding_of_error {s s' : State Hw} {hdr : VpHdr} {payload : Ptr UInt8} {payloadLen : UInt16}
    {status : VpStatus} (hh : Handled (uartPort map) s hdr payload payloadLen s' status) (hst : status ≠ .ok)
    (q : Fin uartPortCount) : lineCoding (s'.ports q) = lineCoding (s.ports q) := by
  cases hh with
  | same => rfl
  | @openFailed p c =>
    by_cases hq : q = p
    · subst hq
      rw [modify_self]
      rfl
    · rw [modify_of_ne _ _ hq]
      rfl
  | recodeFailed => rfl
  | opened => exact absurd rfl hst
  | closed => exact absurd rfl hst
  | recoded => exact absurd rfl hst
  | flushedRx => exact absurd rfl hst
  | flushedTx => exact absurd rfl hst

/-- **Ports in every state.** After any run on any port map and hardware:
every port is disabled, closed, open or in error; a port that the map does not
enable is disabled, and its USART is as it was and was not written to, unless
an enabled entry names the same one; a port that is not open has empty rings;
every line coding is one that is accepted, and that of an open port is the one
its last successful `UARTPort_Open` was called with; and a command with another
answer than OK leaves every line coding alone. -/
theorem ports_in_order (map : Map) (h : Hw) (is : List Input) :
    let s := Mealy.run (step map) (UartMgr.init map h) is
    (∀ p, (s.ports p).state = .disabled ∨ (s.ports p).state = .closed ∨ (s.ports p).state = .opened ∨
      (s.ports p).state = .error) ∧
    (∀ p, (map p).enable = 0 → (s.ports p).state = .disabled ∧
      ∀ u, getHwDesc map (UInt8.ofNat p) = some u → ¬ Owned map u →
        s.hw.usart u = h.usart u ∧ s.hw.written.count u = h.written.count u) ∧
    (∀ p, (s.ports p).state ≠ .opened → (s.ports p).rxRb.toList = [] ∧ (s.ports p).txRb.toList = []) ∧
    (∀ p, Valid (lineCoding (s.ports p))) ∧
    (∀ p, (s.ports p).state = .opened → s.hw.lastOpen p = some (lineCoding (s.ports p))) ∧
    ∀ hdr payload payloadLen status rsp rspLen,
      (handleCtrl (uartPort map) map s hdr payload payloadLen).2 = [.rsp hdr status rsp rspLen] → status ≠ .ok →
      ∀ p, lineCoding ((handleCtrl (uartPort map) map s hdr payload payloadLen).1.ports p) =
        lineCoding (s.ports p) := by
  intro s
  have hi : Inv map h s := inv_run map h is
  refine ⟨fun p => (hi.port p).state, fun p he => ⟨(hi.port p).disabled.mpr he, fun u _ hu => hi.spared u hu⟩,
    fun p => (hi.port p).empty, fun p => (hi.port p).coding, fun p ho => ((hi.port p).opened ho).1, ?_⟩
  intro hdr payload payloadLen status rsp rspLen he hst p
  obtain ⟨status', _, _, he', hh⟩ := handleCtrl_handled (uartPort map) map s hdr payload payloadLen
  rw [he'] at he
  have : status' = status := by
    injection he with he
    injection he
  exact lineCoding_of_error hh (this ▸ hst) p

/-- Hardware with all registers at zero. -/
def Hw.cleared : Hw := ⟨fun _ => ⟨0, 0, 0, 0, 0⟩, 48000000, 96000000, [], []⟩

/-- A map whose second entry is disabled and names the USART of the first. -/
def sharedMap : Map := fun p => if p.val = 1 then ⟨0, 1, gpioA, 0x0200, gpioA, 0x0400⟩ else uartMapCfg p

/-- The USART of a disabled port is configured through the port it shares it with. -/
theorem disabled_port_configured :
    let s := Mealy.run (step sharedMap) (UartMgr.init sharedMap Hw.cleared)
      [.ctrl { VpHdr.zero with opcode := 3 } (some [0, 194, 1, 0]) 4]
    (sharedMap 1).enable = 0 ∧ getHwDesc sharedMap 1 = some 0 ∧ (s.hw.usart 0).ctlr1 = 0x202C := by
  decide +kernel

/-! ## Bytes that wait -/

/-- Where bytes wait at an open port, the TXE interrupt of its USART is enabled. -/
def LiveAt (map : Map) (s : State Hw) (p : Fin uartPortCount) : Prop :=
  (s.ports p).state = .opened → (s.ports p).txRb.toList ≠ [] →
    ∃ u, getHwDesc map (UInt8.ofNat p) = some u ∧ (s.hw.usart u).txeEnabled = true

def Live (map : Map) (s : State Hw) : Prop := ∀ p, LiveAt map s p

/-- A SET_LINE_CODING for port `p` with a payload that is accepted. -/
def Recodes (p : Fin uartPortCount) : Input → Prop
  | .ctrl hdr payload payloadLen => getPort hdr.chId = some p ∧
      VpUartOpcode.ofCode hdr.opcode = some .setLineCoding ∧ ∃ c, parseLineCoding payload payloadLen = .ok c
  | _ => False

/-- Where an open port is given a new line coding, no bytes wait. -/
def Kept (s : State Hw) (i : Input) : Prop :=
  ∀ p, Recodes p i → (s.ports p).state = .opened → (s.ports p).txRb.toList = []

/-- No two ports have the same USART. -/
def Distinct (map : Map) : Prop :=
  ∀ (p q : Fin uartPortCount) (u : Fin 4),
    getHwDesc map (UInt8.ofNat p) = some u → getHwDesc map (UInt8.ofNat q) = some u → p = q

theorem uartMapCfg_distinct : Distinct uartMapCfg := by
  unfold Distinct
  decide

section Live

variable {h0 : Hw} {s s' : State Hw}

theorem Live.update (h : Live map s) (hd : Distinct map) {p : Fin uartPortCount}
    (hq : ∀ q, q ≠ p → s'.ports q = s.ports q) (ht : Touches map p s.hw s'.hw) (hp : LiveAt map s' p) :
    Live map s' := by
  intro q
  by_cases hqp : q = p
  · exact hqp ▸ hp
  · intro ho hne
    rw [hq q hqp] at ho hne
    obtain ⟨u, hu, he⟩ := h q ho hne
    have hother : getHwDesc map (UInt8.ofNat p) ≠ some u := fun hpu => hqp (hd q p u hu hpu)
    exact ⟨u, hu, by rwa [(ht.usart u hother).1]⟩

theorem Live.modify (h : Live map s) (hd : Distinct map) {p : Fin uartPortCount} {h' : Hw} (ht : Touches map p s.hw h')
    {f : PortCtx → PortCtx} (hp : LiveAt map (({ s with hw := h' } : State Hw).modify p f) p) :
    Live map (({ s with hw := h' } : State Hw).modify p f) :=
  h.update hd (fun _ hq => modify_of_ne _ f hq) ht hp

/-- A step that leaves the USARTs, the states of the ports and their transmit rings alone. -/
theorem Live.of_same (h : Live map s) (hw : s'.hw = s.hw) (hp : ∀ p, (s'.ports p).txSide = (s.ports p).txSide) :
    Live map s' := by
  intro p ho hne
  have hs := hp p
  simp only [PortCtx.txSide, Prod.mk.injEq] at hs
  rw [hs.1] at ho
  rw [hs.2.1] at hne
  rw [hw]
  exact h p ho hne

theorem LiveAt.of_empty {p : Fin uartPortCount} (h : (s.ports p).txRb.toList = []) : LiveAt map s p :=
  fun _ hne => absurd h hne

theorem LiveAt.of_not_opened {p : Fin uartPortCount} (h : (s.ports p).state ≠ .opened) : LiveAt map s p :=
  fun ho => absurd ho h

theorem Live.handled (h : Live map s) (hi : Inv map h0 s) (hd : Distinct map) {hdr : VpHdr} {payload : Ptr UInt8}
    {payloadLen : UInt16} {status : VpStatus} (hh : Handled (uartPort map) s hdr payload payloadLen s' status)
    (hk : Kept s (.ctrl hdr payload payloadLen)) : Live map s' := by
  cases hh with
  | same => exact h
  | @opened p c _ _ hs _ hok =>
    obtain ⟨u, hu, he⟩ := callOpen_ok (hi.port p).index hok
    rw [he]
    refine h.modify hd (touches_opened hu.1 s.hw c) (.of_empty ?_)
    rw [modify_self]
    exact ((hi.port p).empty (by rcases hs with hs | hs <;> simp [hs])).2
  | @openFailed p c _ _ _ _ hok =>
    rw [callOpen_failed (hi.port p).index hok]
    refine h.modify hd (.refl p s.hw) (.of_not_opened ?_)
    rw [modify_self]
    simp
  | @closed p =>
    rw [(hi.port p).index]
    refine h.modify hd (touches_close p s.hw) (.of_not_opened ?_)
    rw [modify_self]
    simp
  | @recoded p c hop hp hs hc hok =>
    obtain ⟨u, hu, he⟩ := callOpen_ok (hi.port p).index hok
    rw [he]
    refine h.modify hd (touches_opened hu.1 s.hw c) (.of_empty ?_)
    rw [modify_self]
    exact hk p ⟨hp, hop, c, hc⟩ hs
  | @recodeFailed p c _ _ _ _ hok =>
    rw [callOpen_failed (hi.port p).index hok]
    exact h
  | @flushedRx p =>
    refine h.of_same rfl ?_
    intro q
    by_cases hq : q = p
    · subst hq
      rw [modify_self]
      rfl
    · rw [modify_of_ne _ _ hq]
  | @flushedTx p =>
    refine h.modify hd (.refl p s.hw) (.of_empty ?_)
    rw [modify_self]
    exact RingBuffer.toList_reset _

/-- Configuring the USART of an open port stops the bytes that wait. -/
theorem not_live_of_recodes (hi : Inv map h0 s) {i : Input} {p : Fin uartPortCount} (hr : Recodes p i)
    (ho : (s.ports p).state = .opened) (hne : (s.ports p).txRb.toList ≠ []) : ¬ Live map (step map s i).1 := by
  cases i with
  | ctrl hdr payload payloadLen =>
    obtain ⟨hp, hop, c, hc⟩ := hr
    obtain ⟨u, hu⟩ := ((hi.port p).opened ho).2
    have hcall : callOpen (uartPort map) s p c = ({ s with hw := s.hw.opened p u c }, .ok) := by
      rcases callOpen_cases s (hi.port p).index c with ⟨v, hv, he⟩ | ⟨hnot, -⟩
      · rw [he, Option.some.inj (hv.1.symm.trans hu.1)]
      · exact absurd hu (hnot u)
    have hstep : (step map s (.ctrl hdr payload payloadLen)).1 =
        State.modify { s with hw := s.hw.opened p u c } p (·.setLineCoding c) := by
      simp only [step, handleCtrl, validateCtrlPort, hp, ho, reduceCtorEq, if_false, hop, hc, ne_eq,
        not_true_eq_false, hcall, if_true]
    rw [hstep]
    intro hl
    obtain ⟨v, hv, he⟩ := hl p (by rw [modify_self]; exact ho) (by rw [modify_self]; exact hne)
    rw [Option.some.inj (hv.symm.trans hu.1)] at he
    have hoff : ((s.hw.opened p u c).usart u).txeEnabled = false := by
      simp only [Hw.opened, modify_usart]
      exact configure_txeEnabled ..
    exact Bool.false_ne_true (hoff.symm.trans he)
  | _ => exact hr.elim

theorem Live.written (h : Live map s) (hi : Inv map h0 s) (hd : Distinct map) (logicPort : UInt8)
    (payload : Ptr UInt8) (payloadLen : UInt16) :
    Live map (writeFromHost (uartPort map) s logicPort payload payloadLen).1 := by
  rcases writeFromHost_cases (uartPort map) s logicPort payload payloadLen with ⟨he, -⟩ | ⟨p, hp, ho, he⟩
  · rwa [he]
  · rw [he, getPort_toNat hp]
    refine h.update hd (fun q hq => modify_of_ne s (·.written payload payloadLen) hq) (touches_tryKickTx p s.hw) ?_
    intro _ _
    -- an open port has a USART, and the write ends with its interrupt enabled
    obtain ⟨u, hu, -⟩ := ((hi.port p).opened ho).2
    refine ⟨u, hu, ?_⟩
    simp only [uartPort, tryKickTx, hu, modify_usart]
    exact usartITConfig_txe_enable _

theorem process_hw {η τ : Type} (usb : Usb τ) (s : State η) (t : τ) : (UartMgr.process usb s t).1.hw = s.hw := by
  refine process_rule (J := fun s' _ _ => s'.hw = s.hw) usb ?_ rfl
  intro s' t _ p h
  by_cases ho : (s'.ports p).state = .opened
  · by_cases he : (s'.ports p).rxRb.toList = []
    · rwa [processPort_empty usb ho he]
    · obtain ⟨rb, -, -, hr⟩ := processPort_offer usb ho he t
      rwa [hr]
  · rwa [processPort_not_opened usb ho]

theorem Live.rxIrq (h : Live map s) (p : Fin uartPortCount) (u : Fin 4) (statr datar : UInt16) :
    Live map (rxIrq s p u statr datar) := by
  unfold UartHw.rxIrq
  split
  · refine h.of_same ?_ (fun q => irqRxByte_txSide s q _ _)
    rcases irqRxByte_cases s (UInt8.ofNat p) (usartReceiveData datar).toUInt8 with
      ⟨he, -⟩ | ⟨q, -, -, he | ⟨rb, -, he⟩⟩
    all_goals
      rw [he]
      try rfl
  · exact h

theorem Live.txIrq (h : Live map s) (hd : Distinct map) {p : Fin uartPortCount} {u : Fin 4}
    (hu : getHwDesc map (UInt8.ofNat p) = some u) (statr : UInt16) : Live map (txIrq s p u statr) := by
  unfold UartHw.txIrq
  split
  · rcases irqTxNextByte_cases s (UInt8.ofNat p) with ⟨he, hempty⟩ | ⟨q, b, rb, hq, ho, hring, he⟩
    · -- the interrupt is disabled, and the ring of the port is empty
      simp only [he]
      have ht := touches_modify hu s.hw (usartITConfig · usartItTxe false)
      refine h.update hd (fun _ _ => rfl) ht ?_
      intro ho hne
      exact absurd (hempty p (getPort_ofNat p) ho) hne
    · rw [getPort_ofNat, Option.some.injEq] at hq
      subst hq
      simp only [he]
      have ht := touches_modify hu s.hw (usartSendData · b.toUInt16)
      have hq (q) (hq : q ≠ p) := modify_of_ne s (fun port => { port with txRb := rb, txBytes := port.txBytes + 1 }) hq
      refine h.update hd hq ht ?_
      intro _ _
      obtain ⟨v, hv, hon⟩ := h p ho (by simp [hring])
      rw [Option.some.inj (hv.symm.trans hu)] at hon
      exact ⟨u, hu, by rwa [modify_usart, usartSendData_txeEnabled]⟩
  · exact h

/-- A step from a state where no bytes wait in vain leads to such a state
exactly where no open port with waiting bytes is given a new line coding. -/
theorem live_step_iff (hd : Distinct map) (hi : Inv map h0 s) (h : Live map s) (i : Input) :
    Live map (step map s i).1 ↔ Kept s i := by
  constructor
  · intro hl p hr ho
    by_contra hne
    exact not_live_of_recodes hi hr ho hne hl
  · intro hk
    cases i with
    | ctrl hdr payload payloadLen =>
      obtain ⟨_, _, _, -, hh⟩ := handleCtrl_handled (uartPort map) map s hdr payload payloadLen
      exact h.handled hi hd hh hk
    | write logicPort payload payloadLen => exact h.written hi hd logicPort payload payloadLen
    | process answer =>
      simp only [step]
      exact h.of_same (process_hw ..) (process_txSide _ s ())
    | irq u statr datar =>
      simp only [step]
      rcases irqHandler_cases map s u statr datar with he | ⟨p, v, -, hv, he⟩
      · rwa [he]
      · rw [he]
        exact (h.rxIrq p v statr datar).txIrq hd hv statr

theorem live_init (map : Map) (h : Hw) : Live map (UartMgr.init map h) :=
  fun _ => .of_empty (RingBuffer.toList_init ..)

end Live

/-- **Bytes that wait.** With the ports of the firmware: in every state of a
run the TXE interrupt of every open port with waiting bytes is enabled, exactly
if no SET_LINE_CODING of the run that is accepted comes to an open port with
waiting bytes. -/
theorem waiting_bytes_live_iff (h : Hw) (is : List Input) :
    (∀ js, js <+: is → Live uartMapCfg (Mealy.run (step uartMapCfg) (UartMgr.init uartMapCfg h) js)) ↔
      Mealy.Along (step uartMapCfg) Kept (UartMgr.init uartMapCfg h) is :=
  Mealy.forall_prefix_iff (I := Inv uartMapCfg h) (fun _ i hi => inv_step hi i)
    (fun _ i hi hl => live_step_iff uartMapCfg_distinct hi hl i) (inv_init uartMapCfg h) (live_init uartMapCfg h) is

/-- Port 0 opened, two bytes written, the first on the line, and then a new
line coding: the second waits with the interrupt disabled. -/
theorem waiting_byte_stalls :
    let s := Mealy.run (step uartMapCfg) (UartMgr.init uartMapCfg Hw.cleared)
      [.ctrl { VpHdr.zero with opcode := 3 } (some [0, 194, 1, 0]) 4, .write 0 (some [5, 6]) 2, .irq 0 0x80 0,
        .ctrl { VpHdr.zero with opcode := 5 } (some [0, 150, 0, 0]) 4]
    (s.ports 0).state = .opened ∧ (s.ports 0).txRb.toList = [6] ∧ getHwDesc uartMapCfg 0 = some 0 ∧
      (s.hw.usart 0).txeEnabled = false ∧ ¬ Live uartMapCfg s := by
  intro s
  have h : (s.ports 0).state = .opened ∧ (s.ports 0).txRb.toList = [6] ∧ getHwDesc uartMapCfg 0 = some 0 ∧
      (s.hw.usart 0).txeEnabled = false := by decide +kernel
  obtain ⟨h1, h2, h3, h4⟩ := h
  refine ⟨h1, h2, h3, h4, ?_⟩
  intro hl
  obtain ⟨u, hu, he⟩ := hl 0 h1 (by simp [h2])
  have h0 : (0 : Fin 4) = u := Option.some.inj (h3.symm.trans hu)
  rw [← h0, h4] at he
  cases he

end UsbMux.UartHw
