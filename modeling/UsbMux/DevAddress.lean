/-
The device address over control transfers: which interrupts write `DEV_ADDR`,
and when the address written is the one the host has just asked for.

`SET_ADDRESS` leaves its address pending, and the next IN completion on
endpoint 0 writes it, whatever SETUP has come in between: the SETUP branch
resets the data stage of the transfer before, but not the address
(`addressed_iff` says exactly when this shows).
-/
import UsbMux.Lib.Mealy
import UsbMux.Lib.Recent
import UsbMux.DevFacts

namespace UsbMux.UsbDev

open Endian

/-! ## Control transfers -/

/-- The eight bytes of a SETUP packet. -/
def SetupPkt.bytes (p : SetupPkt) : List UInt8 :=
  [p.bmRequestType, p.bRequest] ++ le16 p.wValue ++ le16 p.wIndex ++ le16 p.wLength

/-- What happens on the bus: a reset, or a transfer on endpoint 0. -/
inductive Control
  | busReset
  | setup (p : SetupPkt)
  | ep0In
  | ep0Out (data : List UInt8)
deriving DecidableEq

def Control.irq : Control → Irq
  | .busReset => .busReset
  | .setup p => .setup p.bytes
  | .ep0In => .ep0In
  | .ep0Out data => .ep0Out data

/-- The writes to `DEV_ADDR` an interrupt leads to. -/
def devAddrWrites (d : Ctx) : Control → List UInt8
  | .busReset => [0]
  | .ep0In => if d.ep0.pendingAddress ≠ addressPendingNone then [d.ep0.pendingAddress] else []
  | .setup _ | .ep0Out _ => []

def controlStep : Mealy.Step (Ctx × UsbRx.Ctx) Control UInt8 :=
  fun s c => (interrupt s.1 s.2 c.irq, devAddrWrites s.1 c)

/-- A standard `SET_ADDRESS`. -/
def SetupPkt.IsSetAddress (p : SetupPkt) : Prop := p.bmRequestType &&& 0x60 = 0 ∧ p.bRequest = 0x05

instance (p : SetupPkt) : Decidable p.IsSetAddress := inferInstanceAs (Decidable (_ ∧ _))

/-- `wValue & 0x7F`. -/
def SetupPkt.address (p : SetupPkt) : UInt8 := (p.wValue &&& usbAddrMask.toUInt16).toUInt8

theorem address_ne (p : SetupPkt) : p.address ≠ addressPendingNone := by
  have hle : (p.wValue &&& usbAddrMask.toUInt16).toNat ≤ 127 := by
    rw [UInt16.toNat_and]
    exact Nat.and_le_right
  intro h
  have := congrArg UInt8.toNat h
  simp only [SetupPkt.address, UInt16.toNat_toUInt8] at this
  have hn : addressPendingNone.toNat = 255 := rfl
  omega

theorem setupPkt_raise (d : Ctx) (p : SetupPkt) : setupPkt (raise d (.setup p.bytes)) = p := by
  have htake : (raise d (.setup p.bytes)).ep0Dma.toList.take 8 = p.bytes := d.ep0Dma.take_write rfl (by decide)
  generalize hcells : (raise d (.setup p.bytes)).ep0Dma.toList = cells at htake
  have hsplit : cells = p.bytes ++ cells.drop 8 := by rw [← htake, List.take_append_drop]
  have hfields : setupPkt (raise d (.setup p.bytes)) = ⟨p.bmRequestType, p.bRequest,
      ofBytes (lo p.wValue) (hi p.wValue), ofBytes (lo p.wIndex) (hi p.wIndex),
      ofBytes (lo p.wLength) (hi p.wLength)⟩ := by
    rw [setupPkt, hcells, hsplit]
    rfl
  rw [hfields, ofBytes_lo_hi, ofBytes_lo_hi, ofBytes_lo_hi]

/-! ## The pending address -/

/-- `d'` has the address and the pending address of `d`. -/
def SameAddress (d' d : Ctx) : Prop := d'.regs.devAddr = d.regs.devAddr ∧ d'.ep0.pendingAddress = d.ep0.pendingAddress

theorem SameAddress.trans {d d' d'' : Ctx} (h : SameAddress d'' d') (h' : SameAddress d' d) : SameAddress d'' d :=
  ⟨h.1.trans h'.1, h.2.trans h'.2⟩

theorem sameAddress_loadEp0Tx (d : Ctx) (data : Ptr UInt8) (len : UInt16) : SameAddress (loadEp0Tx d data len) d := by
  simp only [loadEp0Tx]
  split <;> exact ⟨rfl, rfl⟩

theorem sameAddress_continueEp0Tx (d : Ctx) : SameAddress (continueEp0Tx d) d := by
  simp only [continueEp0Tx]
  split
  · exact sameAddress_loadEp0Tx ..
  · exact SameAddress.trans ⟨rfl, rfl⟩ (sameAddress_loadEp0Tx ..)

theorem sameAddress_startEp0Data (d : Ctx) (data : Ptr UInt8) (len : UInt16) :
    SameAddress (startEp0Data d data len) d :=
  (sameAddress_continueEp0Tx _).trans ⟨rfl, rfl⟩

/-- A standard request that is no `SET_ADDRESS` leaves both alone. -/
theorem sameAddress_handleStandardRequest (d : Ctx) {p : SetupPkt} (h5 : p.bRequest ≠ 0x05) :
    SameAddress (handleStandardRequest d p) d := by
  simp only [handleStandardRequest, if_neg h5]
  split
  · split
    · exact ⟨rfl, rfl⟩
    · exact sameAddress_startEp0Data ..
  split
  · exact (sameAddress_loadEp0Tx ..).trans ⟨rfl, rfl⟩
  split
  · exact (sameAddress_startEp0Data ..).trans ⟨rfl, rfl⟩
  split
  · exact (sameAddress_startEp0Data ..).trans ⟨rfl, rfl⟩
  · exact ⟨rfl, rfl⟩

/-- A SETUP leaves the address of a `SET_ADDRESS` pending, and what was
pending otherwise. -/
theorem handleEp0Setup_address {d : Ctx} {p : SetupPkt} (hp : setupPkt d = p) :
    (handleEp0Setup d).regs.devAddr = d.regs.devAddr ∧
      (handleEp0Setup d).ep0.pendingAddress = if p.IsSetAddress then p.address else d.ep0.pendingAddress := by
  obtain ⟨d', hd'⟩ : ∃ d', d' = setEp0Ctrl { d with ep0 := { d.ep0 with data := none, remaining := 0 } } uepTResNak
    uepRResAck := ⟨_, rfl⟩
  have hsame : SameAddress d' d := by rw [hd']; exact ⟨rfl, rfl⟩
  simp only [handleEp0Setup, hp, ← hd']
  by_cases hstd : p.bmRequestType &&& 0x60 = 0
  · by_cases h5 : p.bRequest = 0x05
    · rw [if_neg (not_not.mpr hstd), if_pos ⟨hstd, h5⟩]
      have hreq : handleStandardRequest d' p = loadEp0Tx { d' with ep0 := { d'.ep0 with pendingAddress := p.address } }
          none 0 := by simp [handleStandardRequest, h5, SetupPkt.address]
      have hload := sameAddress_loadEp0Tx { d' with ep0 := { d'.ep0 with pendingAddress := p.address } } none 0
      rw [hreq]
      exact ⟨hload.1.trans hsame.1, hload.2⟩
    · rw [if_neg (not_not.mpr hstd), if_neg fun h => h5 h.2]
      exact (sameAddress_handleStandardRequest d' h5).trans hsame
  · rw [if_pos hstd, if_neg fun h => hstd h.1]
    exact hsame

/-- An IN completion writes the pending address, if there is one. -/
theorem handleEp0In_address (d : Ctx) :
    (handleEp0In d).regs.devAddr = (devAddrWrites d .ep0In).getLastD d.regs.devAddr ∧
      (handleEp0In d).ep0.pendingAddress = addressPendingNone := by
  by_cases hp : d.ep0.pendingAddress = addressPendingNone
  · have hw : devAddrWrites d .ep0In = [] := if_neg (not_not.mpr hp)
    have hsame : SameAddress (handleEp0In d) d := by
      simp only [handleEp0In, ne_eq, hp, not_true_eq_false, if_false]
      split
      · exact (sameAddress_continueEp0Tx _).trans ⟨rfl, rfl⟩
      · exact ⟨rfl, rfl⟩
    rw [hw]
    exact ⟨hsame.1, hsame.2.trans hp⟩
  · have hw : devAddrWrites d .ep0In = [d.ep0.pendingAddress] := if_pos hp
    rw [hw]
    simp only [handleEp0In, ne_eq, hp, not_false_eq_true, if_true]
    split
    · exact ⟨(sameAddress_continueEp0Tx _).1, (sameAddress_continueEp0Tx _).2⟩
    · exact ⟨rfl, rfl⟩

/-- **The address after an interrupt** is the last one it wrote, or the one
before it. The pending one is that of a `SET_ADDRESS`, gone after a reset or
an IN completion, or the one before. -/
theorem interrupt_address (d : Ctx) (rx : UsbRx.Ctx) (c : Control) :
    (interrupt d rx c.irq).1.regs.devAddr = (devAddrWrites d c).getLastD d.regs.devAddr ∧
      (interrupt d rx c.irq).1.ep0.pendingAddress =
        match c with
        | .busReset | .ep0In => addressPendingNone
        | .setup p => if p.IsSetAddress then p.address else d.ep0.pendingAddress
        | .ep0Out _ => d.ep0.pendingAddress := by
  cases c with
  | busReset =>
    rw [Control.irq, interrupt_busReset]
    exact ⟨rfl, rfl⟩
  | setup p =>
    rw [Control.irq, interrupt_setup]
    exact handleEp0Setup_address (setupPkt_raise d p)
  | ep0In =>
    rw [Control.irq, interrupt_ep0In]
    exact handleEp0In_address (raise d .ep0In)
  | ep0Out data =>
    rw [Control.irq, interrupt_ep0Out]
    exact ⟨rfl, rfl⟩

/-! ## Runs -/

/-- With these behind it, a SETUP is the last one, and its IN completion is to come. -/
def Control.Quiet : Control → Prop
  | .ep0Out _ => True
  | .busReset | .setup _ | .ep0In => False

/-- With these behind it, a `SET_ADDRESS` is the last one of its kind, and no
IN completion has come. -/
def Control.Keeps : Control → Prop
  | .ep0Out _ => True
  | .setup p => ¬ p.IsSetAddress
  | .busReset | .ep0In => False

/-- The last SETUP, with no reset and no IN completion since, was a
`SET_ADDRESS` for this address. -/
def AskedFor (hist : List Control) (address : UInt8) : Prop :=
  ∃ p, p.IsSetAddress ∧ Recent Control.Quiet (.setup p) hist ∧ address = p.address

/-- The last `SET_ADDRESS`, with no reset and no IN completion since, is not
the last SETUP. -/
def Overtaken (hist : List Control) : Prop :=
  ∃ p, p.IsSetAddress ∧ Recent Control.Keeps (.setup p) hist ∧ ¬ Recent Control.Quiet (.setup p) hist

theorem Control.Quiet.keeps {c : Control} (h : c.Quiet) : c.Keeps := by
  cases c with
  | ep0Out data => trivial
  | busReset => exact h
  | setup p => exact h.elim
  | ep0In => exact h

/-- What is pending after a history: nothing, or the address of its last
`SET_ADDRESS` with no reset and no IN completion since. -/
def Pends (d : Ctx) (hist : List Control) : Prop :=
  (d.ep0.pendingAddress = addressPendingNone ∧ ∀ p, p.IsSetAddress → ¬ Recent Control.Keeps (.setup p) hist) ∨
    ∃ p, p.IsSetAddress ∧ Recent Control.Keeps (.setup p) hist ∧ d.ep0.pendingAddress = p.address

theorem pends_interrupt {d : Ctx} {hist : List Control} (h : Pends d hist) (rx : UsbRx.Ctx) (c : Control) :
    Pends (interrupt d rx c.irq).1 (hist ++ [c]) := by
  have hpend := (interrupt_address d rx c).2
  -- what keeps the address leaves the last `SET_ADDRESS` as it is
  have keep (hk : c.Keeps) (hne : ∀ p, p.IsSetAddress → .setup p ≠ c)
      (heq : (interrupt d rx c.irq).1.ep0.pendingAddress = d.ep0.pendingAddress) :
      Pends (interrupt d rx c.irq).1 (hist ++ [c]) := by
    rcases h with ⟨hnone, hno⟩ | ⟨p, hp, hr, hv⟩
    · refine .inl ⟨heq.trans hnone, fun p hp hr => ?_⟩
      rcases Recent.concat_iff.mp hr with he | ⟨-, hr⟩
      · exact hne p hp he
      · exact hno p hp hr
    · exact .inr ⟨p, hp, Recent.concat_iff.mpr (.inr ⟨hk, hr⟩), heq.trans hv⟩
  -- a reset and an IN completion leave none
  have clear (hk : ¬ c.Keeps) (hne : ∀ p, .setup p ≠ c)
      (heq : (interrupt d rx c.irq).1.ep0.pendingAddress = addressPendingNone) :
      Pends (interrupt d rx c.irq).1 (hist ++ [c]) := by
    refine .inl ⟨heq, fun p _ hr => ?_⟩
    rcases Recent.concat_iff.mp hr with he | ⟨hk', -⟩
    · exact hne p he
    · exact hk hk'
  cases c with
  | busReset => exact clear (fun h => h) (fun p he => by cases he) hpend
  | ep0In => exact clear (fun h => h) (fun p he => by cases he) hpend
  | ep0Out data => exact keep trivial (fun p _ he => by cases he) hpend
  | setup p =>
    by_cases hp : p.IsSetAddress
    · exact .inr ⟨p, hp, Recent.concat_iff.mpr (.inl rfl), hpend.trans (if_pos hp)⟩
    · exact keep hp (fun q hq he => hp (by cases he; exact hq)) (hpend.trans (if_neg hp))

theorem pends_run (rx : UsbRx.Ctx) (hist : List Control) :
    Pends (Mealy.run controlStep (init, rx) hist).1 hist := by
  induction hist using List.reverseRecOn with
  | nil => exact .inl ⟨rfl, fun p _ => Recent.not_nil⟩
  | append_singleton hist c ih =>
    rw [Mealy.run_append]
    exact pends_interrupt ih _ c

theorem devAddr_run (rx : UsbRx.Ctx) (is : List Control) :
    (Mealy.run controlStep (init, rx) is).1.regs.devAddr = (Mealy.outs controlStep (init, rx) is).getLastD 0 := by
  induction is using List.reverseRecOn with
  | nil => rfl
  | append_singleton hist c ih =>
    have hlast := (interrupt_address (Mealy.run controlStep (init, rx) hist).1
      (Mealy.run controlStep (init, rx) hist).2 c).1
    rw [ih] at hlast
    rw [Mealy.run_append, Mealy.outs_append, Mealy.run_cons, Mealy.run_nil, Mealy.outs_cons, Mealy.outs_nil,
      List.append_nil]
    exact hlast.trans (by simp [controlStep])

/-- What an interrupt writes to `DEV_ADDR`: zero at a reset, or at an IN
completion the address the host has just asked for. -/
def Lawful (hist : List Control) (c : Control) (address : UInt8) : Prop :=
  (c = .busReset ∧ address = 0) ∨ (c = .ep0In ∧ AskedFor hist address)

/-- The writes of one interrupt are lawful unless it is an IN completion after
a `SET_ADDRESS` that was overtaken. -/
theorem lawful_iff {d : Ctx} {hist : List Control} (h : Pends d hist) (c : Control) :
    (∀ address ∈ devAddrWrites d c, Lawful hist c address) ↔ (c = .ep0In → ¬ Overtaken hist) := by
  cases c with
  | busReset => exact iff_of_true (fun v hv => .inl ⟨rfl, List.mem_singleton.mp hv⟩) fun he => by cases he
  | setup p => exact iff_of_true (List.forall_mem_nil _) fun he => by cases he
  | ep0Out data => exact iff_of_true (List.forall_mem_nil _) fun he => by cases he
  | ep0In =>
    rcases h with ⟨hnone, hno⟩ | ⟨p, hp, hr, hv⟩
    · refine iff_of_true ?_ fun _ ⟨p, hp, hr, _⟩ => hno p hp hr
      rw [devAddrWrites, if_neg (not_not.mpr hnone)]
      exact List.forall_mem_nil _
    · have hne : d.ep0.pendingAddress ≠ addressPendingNone := by rw [hv]; exact address_ne p
      rw [devAddrWrites, if_pos hne, List.forall_mem_singleton, hv]
      -- the `SET_ADDRESS` in force is `p` whichever way it is found
      have same {q : SetupPkt} (hq : q.IsSetAddress) (hq' : Recent Control.Keeps (.setup q) hist) : q = p := by
        have := Recent.unique (fun h => h hq) (fun h => h hp) hq' hr
        cases this
        rfl
      constructor
      · rintro (⟨he, -⟩ | ⟨-, q, hq, hq', -⟩)
        · cases he
        · rintro - ⟨q', hs, hk, hover⟩
          rw [same hs hk, ← same hq (hq'.mono fun _ => Control.Quiet.keeps)] at hover
          exact hover hq'
      · intro hover
        refine .inr ⟨rfl, p, hp, ?_, rfl⟩
        by_contra hn
        exact hover rfl ⟨p, hp, hr, hn⟩

/-- **The device address changes only as a `SET_ADDRESS` commands** in exactly
the runs in which no IN completion comes after a `SET_ADDRESS` that another
SETUP has overtaken. -/
theorem addressed_iff (rx : UsbRx.Ctx) (is : List Control) :
    (∀ hist c rest, is = hist ++ c :: rest →
        ∀ address ∈ devAddrWrites (Mealy.run controlStep (init, rx) hist).1 c, Lawful hist c address) ↔
      ∀ hist rest, is = hist ++ .ep0In :: rest → ¬ Overtaken hist := by
  constructor
  · intro h hist rest hsplit
    exact (lawful_iff (pends_run rx hist) .ep0In).mp (h hist .ep0In rest hsplit) rfl
  · intro h hist c rest hsplit
    refine (lawful_iff (pends_run rx hist) c).mpr fun hc => ?_
    rw [hc] at hsplit
    exact h hist rest hsplit

/-- A `SET_ADDRESS` for 5 whose status stage the host gives up: the IN
completion of the `GET_DESCRIPTOR` after it moves the device to address 5. -/
theorem address_left_over :
    ¬ ∀ (rx : UsbRx.Ctx) (is hist : List Control) (c : Control) (rest : List Control), is = hist ++ c :: rest →
      ∀ address ∈ devAddrWrites (Mealy.run controlStep (init, rx) hist).1 c, Lawful hist c address := by
  intro h
  let hist : List Control := [.setup ⟨0x00, 0x05, 5, 0, 0⟩, .setup ⟨0x80, 0x06, 0x0100, 0, 18⟩]
  have hw : (5 : UInt8) ∈ devAddrWrites (Mealy.run controlStep (init, UsbRx.init) hist).1 .ep0In := by decide +kernel
  obtain ⟨he, -⟩ | ⟨-, p, hp, hr, -⟩ := h UsbRx.init _ hist .ep0In [] rfl 5 hw
  · cases he
  · rcases Recent.concat_iff.mp (show Recent Control.Quiet (.setup p) ([_] ++ [_]) from hr) with he | ⟨hq, -⟩
    · cases he
      exact absurd hp (by decide)
    · exact hq

end UsbMux.UsbDev
