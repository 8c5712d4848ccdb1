/-
Endpoint 0 as the host sees it: the driver refines the control pipe of
`Lib/ControlPipe.lean`, whatever goes on at the data endpoints meanwhile.

A data stage never takes a second packet: no descriptor is longer than 64
bytes, so nothing remains after the first one (`Settled`), and the branch of
`USBDEV_HandleEp0In` that goes on with a data stage is never taken.
-/
import UsbMux.Lib.ControlPipe
import UsbMux.Lib.Stutter
import UsbMux.DevAddress

namespace UsbMux.UsbDev

open ControlPipe

/-! ## What the host sees -/

/-- What the controller answers an IN token on endpoint 0 with. -/
def ep0Reply (d : Ctx) : Reply :=
  if d.regs.uep0TxCtrl &&& uepTResMask = uepTResStall then .stall
  else if armed d.regs.uep0TxCtrl then
    .data (pidOf d.regs.uep0TxCtrl) (d.ep0Dma.toList.take d.regs.uep0TxLen.toNat)
  else .nak

/-- The control pipe the driver stands for. -/
def pipe (d : Ctx) : Device where
  address := d.regs.devAddr
  pending := if d.ep0.pendingAddress = addressPendingNone then none else some d.ep0.pendingAddress
  configuration := d.configured
  reply := ep0Reply d

/-- The request in a SETUP packet. -/
def SetupPkt.request (p : SetupPkt) : Request :=
  if p.bmRequestType &&& 0x60 ≠ 0 then .unsupported
  else if p.bRequest = 0x06 then .getDescriptor p.wValue p.wLength.toNat
  else if p.bRequest = 0x05 then .setAddress p.address
  else if p.bRequest = 0x09 then .setConfiguration (p.wValue &&& 0xFF).toUInt8
  else if p.bRequest = 0x08 then .getConfiguration
  else if p.bRequest = 0x00 then .getStatus
  else .unsupported

def Control.event : Control → Event
  | .busReset => .reset
  | .setup p => .setup p.request
  | .ep0In => .inAcked
  | .ep0Out data => .out data

/-- Between interrupts: nothing remains of a data stage, and a packet that is
armed fits the endpoint. -/
structure Settled (d : Ctx) : Prop where
  remaining : d.ep0.remaining = 0
  txLen : d.regs.uep0TxLen.toNat ≤ ep0Size

/-! ## One transfer -/

/-- Arming the first packet of a stage keeps its toggle, which is that of DATA1. -/
theorem armed_loaded : ((uepTTog ||| uepTResNak) &&& uepTTog) ||| uepTResAck = 0x04 := by decide

/-- What `USBDEV_StartEp0Data` comes to, for a stage of one packet at most:
that packet is armed as DATA1, and nothing remains. -/
theorem startEp0Data_spec (d : Ctx) (src : List UInt8) {len : UInt16} (hl : len.toNat ≤ ep0Size)
    (hsrc : len.toNat ≤ src.length) :
    let d' := startEp0Data d (some src) len
    pipe d' = { pipe d with reply := .data true (src.take len.toNat) } ∧ Settled d' := by
  have hmax : ¬ len > UInt16.ofNat ep0Size := UInt16.not_lt.mpr (UInt16.le_iff_toNat_le.mpr hl)
  by_cases h0 : len = 0
  · subst h0
    refine ⟨?_, ⟨rfl, Nat.zero_le _⟩⟩
    simp only [startEp0Data, continueEp0Tx, setEp0Ctrl, loadEp0Tx, if_true, Option.isSome_none, Bool.false_eq_true,
      false_and, if_false, armed_loaded, pipe, ep0Reply, UInt16.toNat_zero, List.take_zero]
    rfl
  · have hpos : len > 0 := UInt16.lt_iff_toNat_lt.mpr (Nat.pos_of_ne_zero fun h => h0 (UInt16.toNat_inj.mp h))
    have hcells : Ptr.cells (some src) len.toNat = src.take len.toNat := Ptr.cells_some hsrc
    have hlen : (src.take len.toNat).length = len.toNat := List.length_take_of_le hsrc
    have htake : (d.ep0Dma.write 0 (src.take len.toNat)).toList.take len.toNat = src.take len.toNat :=
      d.ep0Dma.take_write hlen hl
    constructor
    · simp only [startEp0Data, continueEp0Tx, setEp0Ctrl, h0, if_false, hmax, loadEp0Tx, Option.isSome_some, hpos,
        and_self, if_true, hcells, armed_loaded, pipe, ep0Reply, htake]
      rfl
    · refine ⟨?_, ?_⟩
      · simp only [startEp0Data, continueEp0Tx, setEp0Ctrl, h0, if_false, hmax, loadEp0Tx, Option.isSome_some, hpos,
          and_self, if_true, sub_self]
      · simp only [startEp0Data, continueEp0Tx, setEp0Ctrl, h0, if_false, hmax, loadEp0Tx]
        exact hl

theorem length_findDescriptor {wValue : UInt16} {desc : List UInt8} (h : findDescriptor wValue = some desc) :
    desc.length ≤ ep0Size := by
  simp only [findDescriptor] at h
  split_ifs at h <;> cases h <;> decide

theorem status_spec (d : Ctx) (hr : d.ep0.remaining = 0) :
    let d' := loadEp0Tx (setEp0Ctrl d uepTResNak uepRResAck) none 0
    pipe d' = { pipe d with reply := .data true [] } ∧ Settled d' := by
  refine ⟨?_, ⟨hr, Nat.zero_le _⟩⟩
  simp only [setEp0Ctrl, loadEp0Tx, Option.isSome_none, Bool.false_eq_true, false_and, if_false, armed_loaded, pipe,
    ep0Reply, UInt16.toNat_zero, List.take_zero]
  rfl

theorem stallEp0_spec (d : Ctx) (hr : d.ep0.remaining = 0) (hl : d.regs.uep0TxLen.toNat ≤ ep0Size) :
    pipe (stallEp0 d) = { pipe d with reply := .stall } ∧ Settled (stallEp0 d) := by
  have hreply : ep0Reply (stallEp0 d) = .stall :=
    if_pos (show (uepTTog ||| uepTResStall) &&& uepTResMask = uepTResStall by decide)
  refine ⟨?_, ⟨hr, hl⟩⟩
  rw [pipe, hreply]
  rfl

/-- **A SETUP** is handled as the control pipe handles the request in it. -/
theorem handleEp0Setup_pipe {d : Ctx} {p : SetupPkt} (hp : setupPkt d = p) (hl : d.regs.uep0TxLen.toNat ≤ ep0Size) :
    pipe (handleEp0Setup d) = (pipe d).request findDescriptor p.request ∧ Settled (handleEp0Setup d) := by
  obtain ⟨d₀, hd₀⟩ : ∃ d₀, d₀ = { d with ep0 := { d.ep0 with data := none, remaining := 0 } } := ⟨_, rfl⟩
  have hr : d₀.ep0.remaining = 0 := by rw [hd₀]
  have hpipe : pipe d₀ = pipe d := by rw [hd₀]; rfl
  have hl₀ : d₀.regs.uep0TxLen.toNat ≤ ep0Size := by rw [hd₀]; exact hl
  -- the control registers are written twice: the first write does not show
  have hreg (data : List UInt8) (len : UInt16) :
      startEp0Data (setEp0Ctrl d₀ uepTResNak uepRResAck) (some data) len = startEp0Data d₀ (some data) len := rfl
  simp only [handleEp0Setup, hp, ← hd₀, SetupPkt.request]
  have hstall : pipe (stallEp0 (setEp0Ctrl d₀ uepTResNak uepRResAck)) =
      (pipe d).request findDescriptor .unsupported ∧ Settled (stallEp0 (setEp0Ctrl d₀ uepTResNak uepRResAck)) := by
    rw [Device.request, ← hpipe]
    exact stallEp0_spec d₀ hr hl₀
  split
  · exact hstall
  simp only [handleStandardRequest]
  split
  · -- GET_DESCRIPTOR
    rw [Device.request]
    cases hdesc : findDescriptor p.wValue with
    | none => exact hstall
    | some desc =>
      have hle : desc.length ≤ 64 := length_findDescriptor hdesc
      have hn : (UInt16.ofNat desc.length).toNat = desc.length := by
        rw [UInt16.toNat_ofNat']
        exact Nat.mod_eq_of_lt (by omega)
      generalize hlen : (if UInt16.ofNat desc.length > p.wLength then p.wLength else UInt16.ofNat desc.length) = len
      have hmin : len.toNat = min p.wLength.toNat desc.length := by
        rw [← hlen]
        split
        · next h =>
          rw [gt_iff_lt, UInt16.lt_iff_toNat_lt, hn] at h
          omega
        · next h =>
          rw [gt_iff_lt, UInt16.lt_iff_toNat_lt, hn] at h
          omega
      have h64 : len.toNat ≤ 64 := by omega
      obtain ⟨h1, h2⟩ := startEp0Data_spec d₀ desc h64 (by omega)
      simp only [hreg, hlen, h1, hpipe]
      refine ⟨?_, h2⟩
      rw [hmin, ← List.take_eq_take_min]
  split
  · -- SET_ADDRESS
    obtain ⟨h1, h2⟩ := status_spec { d₀ with ep0 := { d₀.ep0 with pendingAddress := p.address } } hr
    refine ⟨?_, h2⟩
    refine h1.trans ?_
    rw [Device.request, ← hpipe]
    simp only [pipe, address_ne, if_false]
  split
  · -- SET_CONFIGURATION
    obtain ⟨h1, h2⟩ := status_spec { d₀ with configured := (p.wValue &&& 0xFF).toUInt8 } hr
    refine ⟨h1.trans ?_, h2⟩
    rw [Device.request, ← hpipe]
    rfl
  split
  · -- GET_CONFIGURATION
    have hlen := (d₀.ep0Dma.put 0 d₀.configured).toList_length
    obtain ⟨h1, h2⟩ := startEp0Data_spec { d₀ with ep0Dma := d₀.ep0Dma.put 0 d₀.configured }
      (d₀.ep0Dma.put 0 d₀.configured).toList (show (1 : UInt16).toNat ≤ ep0Size by decide) (by rw [hlen]; decide)
    refine ⟨h1.trans ?_, h2⟩
    rw [Device.request, ← hpipe]
    have htake : (d₀.ep0Dma.put 0 d₀.configured).toList.take 1 = [d₀.configured] := d₀.ep0Dma.take_put _ (by decide)
    rw [UInt16.toNat_one, htake]
    rfl
  split
  · -- GET_STATUS
    have hlen := ((d₀.ep0Dma.put 0 0).put 1 0).toList_length
    obtain ⟨h1, h2⟩ := startEp0Data_spec { d₀ with ep0Dma := (d₀.ep0Dma.put 0 0).put 1 0 }
      ((d₀.ep0Dma.put 0 0).put 1 0).toList (show (2 : UInt16).toNat ≤ ep0Size by decide) (by rw [hlen]; decide)
    refine ⟨h1.trans ?_, h2⟩
    rw [Device.request, ← hpipe]
    have htake : ((d₀.ep0Dma.put 0 0).put 1 0).toList.take 2 = [0, 0] := by
      have h1 : (d₀.ep0Dma.put 0 0).toList.take 1 = [0] := d₀.ep0Dma.take_put _ (by decide)
      have h2 : ((d₀.ep0Dma.put 0 0).put 1 0).toList.take 2 = (d₀.ep0Dma.put 0 0).toList.take 1 ++ [0] :=
        (d₀.ep0Dma.put 0 0).take_put _ (by decide)
      rw [h2, h1]
      rfl
    rw [show (2 : UInt16).toNat = 2 from rfl, htake]
    rfl
  · exact hstall

/-! ## Interrupts -/

theorem request_reply (descriptor : UInt16 → Option (List UInt8)) (d : Device) (r : Request) (reply : Reply) :
    { d with reply := reply }.request descriptor r = d.request descriptor r := by
  cases r with
  | getDescriptor value length => rfl
  | setAddress | setConfiguration | getConfiguration | getStatus | unsupported => rfl

theorem take_overwrite (b : Block UInt8 ep0Size) (data : List UInt8) {n : Nat} (hn : n ≤ ep0Size) :
    (b.write 0 data).toList.take n =
      (data ++ (b.toList.take n).drop data.length).take (b.toList.take n).length := by
  have hb : b.toList.length = ep0Size := b.toList_length
  have hl : (b.toList.take n).length = n := List.length_take_of_le (by rw [hb]; exact hn)
  have hblit : (b.write 0 data).toList = data.take ep0Size ++ b.toList.drop data.length := by
    simp only [Block.toList_write, blit, hb, List.take_zero, List.nil_append, Nat.sub_zero, Nat.zero_add]
  rw [hl, hblit, List.take_append, List.take_append, List.take_take, Nat.min_eq_left hn, List.length_take,
    List.drop_take, List.take_take]
  by_cases hd : data.length ≤ ep0Size
  · rw [Nat.min_eq_right hd, Nat.min_self]
  · have h1 : n - min ep0Size data.length = 0 := by omega
    have h2 : n - data.length = 0 := by omega
    rw [h1, h2, List.take_zero, Nat.min_self, List.take_zero]

theorem ep0Reply_nak {d : Ctx} (h : d.regs.uep0TxCtrl = uepTResNak) : ep0Reply d = .nak := by
  rw [ep0Reply, h]
  rfl

theorem pipe_busReset (d : Ctx) (rx : UsbRx.Ctx) :
    pipe (interrupt d rx .busReset).1 = start ∧ Settled (interrupt d rx .busReset).1 := by
  rw [interrupt_busReset]
  refine ⟨?_, ⟨rfl, Nat.zero_le _⟩⟩
  rw [pipe, ep0Reply_nak rfl]
  rfl

/-- **An acknowledged IN packet** makes a pending address take effect and
leaves the endpoint idle: no data stage goes on. -/
theorem pipe_ep0In {d : Ctx} (h : Settled d) (rx : UsbRx.Ctx) :
    let d' := (interrupt d rx .ep0In).1
    pipe d' = { pipe d with
      address := (pipe d).pending.getD (pipe d).address, pending := none, reply := .nak } ∧ Settled d' := by
  intro d'
  obtain ⟨haddr, hpend⟩ := interrupt_address d rx .ep0In
  have hidle : d'.configured = d.configured ∧ d'.regs.uep0TxCtrl = uepTResNak ∧ d'.regs.uep0TxLen = 0 ∧
      d'.ep0.remaining = 0 := by
    have hr : ¬ d.ep0.remaining > 0 := by
      rw [h.remaining]
      decide
    simp only [d', interrupt_ep0In, handleEp0In, raise]
    by_cases hp : d.ep0.pendingAddress = addressPendingNone
    · simp only [hp, ne_eq, not_true_eq_false, if_false, hr]
      exact ⟨rfl, rfl, rfl, h.remaining⟩
    · simp only [hp, ne_eq, not_false_eq_true, if_true, hr, if_false]
      exact ⟨rfl, rfl, rfl, h.remaining⟩
  obtain ⟨hconf, hctrl, hlen, hrem⟩ := hidle
  have haddr' : d'.regs.devAddr = (pipe d).pending.getD (pipe d).address := by
    refine haddr.trans ?_
    by_cases hp : d.ep0.pendingAddress = addressPendingNone
    · simp only [devAddrWrites, pipe, hp, ne_eq, not_true_eq_false, if_false, if_true]
      rfl
    · simp only [devAddrWrites, pipe, hp, ne_eq, not_false_eq_true, if_true, if_false]
      rfl
  have hpend' : d'.ep0.pendingAddress = addressPendingNone := hpend
  refine ⟨?_, ⟨hrem, ?_⟩⟩
  · rw [pipe, ep0Reply_nak hctrl, haddr', hpend', if_pos rfl, hconf]
    rfl
  · rw [hlen]
    exact Nat.zero_le _

theorem pipe_setup {d : Ctx} (h : Settled d) (rx : UsbRx.Ctx) (p : SetupPkt) :
    let d' := (interrupt d rx (.setup p.bytes)).1
    pipe d' = (pipe d).request findDescriptor p.request ∧ Settled d' := by
  rw [interrupt_setup]
  obtain ⟨h1, h2⟩ := handleEp0Setup_pipe (setupPkt_raise d p) h.txLen
  refine ⟨h1.trans ?_, ⟨h2.remaining, h2.txLen⟩⟩
  -- the packet has overwritten what the endpoint held
  exact request_reply findDescriptor (pipe d) p.request (ep0Reply (raise d (.setup p.bytes)))

theorem pipe_ep0Out {d : Ctx} (h : Settled d) (rx : UsbRx.Ctx) (data : List UInt8) :
    let d' := (interrupt d rx (.ep0Out data)).1
    pipe d' = { pipe d with reply := (pipe d).reply.overwrite data } ∧ Settled d' := by
  intro d'
  have hd : d' = _ := congrArg Prod.fst (interrupt_ep0Out d rx data)
  have hreply : ep0Reply d' = (ep0Reply d).overwrite data := by
    have hctrl : d'.regs.uep0TxCtrl = d.regs.uep0TxCtrl := by rw [hd]; rfl
    have hlen : d'.regs.uep0TxLen = d.regs.uep0TxLen := by rw [hd]; rfl
    have hdma : d'.ep0Dma = d.ep0Dma.write 0 data := by rw [hd]; rfl
    rw [ep0Reply, ep0Reply, hctrl, hlen, hdma, take_overwrite _ _ h.txLen]
    split
    · rfl
    split <;> rfl
  have hpipe : pipe d' = { pipe d with reply := ep0Reply d' } := by rw [hd]; rfl
  rw [hpipe, hreply]
  exact ⟨rfl, by rw [hd]; exact ⟨h.remaining, h.txLen⟩⟩

/-- **A control event** does to the driver what it does to the control pipe. -/
theorem pipe_control {d : Ctx} (h : Settled d) (rx : UsbRx.Ctx) (c : Control) :
    let d' := (interrupt d rx c.irq).1
    pipe d' = (step findDescriptor (pipe d) c.event).1 ∧ Settled d' := by
  cases c with
  | busReset => exact pipe_busReset d rx
  | setup p => exact pipe_setup h rx p
  | ep0In => exact pipe_ep0In h rx
  | ep0Out data => exact pipe_ep0Out h rx data

/-! ## All that goes on in the driver -/

/-- A control event, an interrupt of a data endpoint, or a call that sends. -/
inductive Activity
  | control (c : Control)
  | ep1In
  | ep2In
  | ep3Out (data : Packet) (pid : Bool)
  | sendHint (hint : VpIrqHint)
  | sendFrame (data : Ptr UInt8) (len : UInt16)

def Activity.run (s : Ctx × UsbRx.Ctx) : Activity → Ctx × UsbRx.Ctx
  | .control c => interrupt s.1 s.2 c.irq
  | .ep1In => interrupt s.1 s.2 .ep1In
  | .ep2In => interrupt s.1 s.2 .ep2In
  | .ep3Out data pid => interrupt s.1 s.2 (.ep3Out data pid)
  | .sendHint hint => ((UsbDev.sendHint s.1 hint).1, s.2)
  | .sendFrame data len => ((UsbDev.sendFrame s.1 data len).1, s.2)

/-- The control event it is, if it is one. -/
def Activity.event : Activity → Option Event
  | .control c => some c.event
  | .ep1In | .ep2In | .ep3Out _ _ | .sendHint _ | .sendFrame _ _ => none

/-- One activity; what is seen is the control pipe after a control event. -/
def activityStep : Mealy.Step (Ctx × UsbRx.Ctx) Activity Device := fun s a =>
  let s := a.run s
  (s, if a.event.isSome then [pipe s.1] else [])

/-- `d'` differs from `d` in nothing the control pipe uses. -/
def SamePipe (d' d : Ctx) : Prop :=
  pipe d' = pipe d ∧ d'.ep0.remaining = d.ep0.remaining ∧ d'.regs.uep0TxLen = d.regs.uep0TxLen

theorem SamePipe.settled {d' d : Ctx} (h : SamePipe d' d) (hs : Settled d) : Settled d' where
  remaining := h.2.1.trans hs.remaining
  txLen := by rw [h.2.2]; exact hs.txLen

/-- The data endpoints and the calls that send leave the control pipe alone. -/
theorem samePipe_run (s : Ctx × UsbRx.Ctx) {a : Activity} (ha : a.event = none) : SamePipe (a.run s).1 s.1 := by
  cases a with
  | control c => cases ha
  | ep1In =>
    simp only [Activity.run, interrupt_ep1In]
    exact ⟨rfl, rfl, rfl⟩
  | ep2In =>
    simp only [Activity.run, interrupt_ep2In, handleEp2In]
    split <;> exact ⟨rfl, rfl, rfl⟩
  | ep3Out data pid =>
    simp only [Activity.run, interrupt_ep3Out]
    exact ⟨rfl, rfl, rfl⟩
  | sendHint hint =>
    simp only [Activity.run, UsbDev.sendHint]
    split <;> exact ⟨rfl, rfl, rfl⟩
  | sendFrame data len =>
    rcases sendFrame_cases s.1 data len with he | ⟨-, -, -, he⟩
    · simp only [Activity.run, he]
      exact ⟨rfl, rfl, rfl⟩
    · simp only [Activity.run, he]
      exact ⟨rfl, rfl, rfl⟩

theorem pipe_stutters :
    Mealy.Stutters activityStep (step findDescriptor) Activity.event some
      (fun s dev => pipe s.1 = dev ∧ Settled s.1) where
  takes := by
    rintro s dev a e ⟨rfl, hs⟩ ha
    cases a with
    | control c =>
      cases ha
      obtain ⟨h1, h2⟩ := pipe_control hs s.2 c
      exact ⟨⟨h1, h2⟩, congrArg (fun dev => [dev]) h1⟩
    | ep1In | ep2In | ep3Out | sendHint | sendFrame => cases ha
  skips := by
    rintro s dev a ⟨rfl, hs⟩ ha
    have hsame := samePipe_run s ha
    refine ⟨⟨hsame.1, hsame.settled hs⟩, ?_⟩
    simp only [activityStep, ha, Option.isSome_none, Bool.false_eq_true, if_false, List.filterMap_nil]

theorem settled_init : pipe init = start ∧ Settled init := by
  refine ⟨?_, ⟨rfl, Nat.zero_le _⟩⟩
  rw [pipe, ep0Reply_nak rfl]
  rfl

/-- **Endpoint 0.** Over every run of interrupts and calls that send, the
driver is for the host the control pipe of `Lib/ControlPipe.lean` with the
descriptors it has: the same address, configuration and answers after every
control event. No data stage ever has a second packet. -/
theorem control_refines (rx : UsbRx.Ctx) (is : List Activity) :
    let s := Mealy.run activityStep (init, rx) is
    let es := is.filterMap Activity.event
    pipe s.1 = Mealy.run (step findDescriptor) start es ∧
      Mealy.outs activityStep (init, rx) is = Mealy.outs (step findDescriptor) start es ∧
      s.1.ep0.remaining = 0 := by
  intro s es
  obtain ⟨⟨h1, h2⟩, h3⟩ := pipe_stutters.run (s := (init, rx)) settled_init is
  exact ⟨h1, by rwa [List.filterMap_some] at h3, h2.remaining⟩

/-- **The driver is configured**, which it has to be to send on a data endpoint,
just where the last `SET_CONFIGURATION` with no reset behind it was for a
configuration other than 0, whatever else has gone on. -/
theorem isConfigured_iff (rx : UsbRx.Ctx) (is : List Activity) :
    isConfigured (Mealy.run activityStep (init, rx) is).1 = true ↔
      ∃ value, value ≠ 0 ∧
        Recent Event.Passes (.setup (.setConfiguration value)) (is.filterMap Activity.event) := by
  have hpipe := (control_refines rx is).1
  generalize is.filterMap Activity.event = es at hpipe
  have hconf : (Mealy.run activityStep (init, rx) is).1.configured =
      (Mealy.run (step findDescriptor) start es).configuration := congrArg Device.configuration hpipe
  have hlast (value : UInt8) : (Mealy.run (step findDescriptor) start es).configuration = value ↔ _ :=
    configuration_run es value
  simp only [isConfigured, bne_iff_ne, ne_eq, hconf]
  constructor
  · intro h
    rcases (hlast _).mp rfl with hr | ⟨h0, -⟩
    · exact ⟨_, h, hr⟩
    · exact absurd h0 h
  · rintro ⟨value, hv, hr⟩
    rw [(hlast value).mpr (.inl hr)]
    exact hv

end UsbMux.UsbDev
