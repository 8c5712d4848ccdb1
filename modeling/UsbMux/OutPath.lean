/-
The way in, from the bus to the parser: EP3 OUT interrupts that push into the
raw ring, bus resets and control requests, and `USBRX_Process` between them.

The interrupt handler arms the endpoint again whatever the ring took, does
not look at `USBFS_UIS_TOG_OK`, and a reset of the bus leaves ring and parser
as they are; each of the three is made exact here.
-/
import UsbMux.DevFacts
import UsbMux.RxRuns

namespace UsbMux.OutPath

open Framing UsbDev

/-! ## The machine of interrupts and processing -/

/-- The driver and the receive path. -/
structure State where
  dev : UsbDev.Ctx
  rx : UsbRx.Run

/-- An interrupt of the controller, or `USBRX_Process`. -/
inductive Input
  | irq (i : Irq)
  | process
deriving DecidableEq

/-- The bytes an input delivers. -/
def Input.bytes : Input → List UInt8
  | .irq i => i.bytes
  | .process => []

/-- What an input is for the receive path. -/
def Input.toRx : Input → UsbRx.Input
  | .irq i => .push i.bytes
  | .process => .process

/-- The driver in any state, the receive path after `USBRX_Init`. -/
def start (d : UsbDev.Ctx) : State := ⟨d, UsbRx.start⟩

/-- One input; processing answers with the calls it makes. -/
def step : Mealy.Step State Input UsbRx.Delivery
  | s, .irq i =>
    let r := interrupt s.dev s.rx.ctx i
    (⟨r.1, { s.rx with ctx := r.2 }⟩, [])
  | s, .process =>
    let r := UsbRx.step s.rx .process
    ({ s with rx := r.1 }, r.2)

/-- All bytes the interrupts deliver. -/
def delivered (is : List Input) : List UInt8 := is.flatMap Input.bytes

@[simp] theorem delivered_append (is js : List Input) :
    delivered (is ++ js) = delivered is ++ delivered js := List.flatMap_append

/-- The bytes an interrupt delivers fit the free space of the ring. -/
def RoomFor (s : State) (i : Input) : Prop := i.bytes.length ≤ s.rx.ctx.rawRb.space.toNat

instance (s : State) (i : Input) : Decidable (RoomFor s i) := inferInstanceAs (Decidable (_ ≤ _))

theorem step_rx (s : State) (i : Input) :
    (step s i).1.rx = (UsbRx.step s.rx i.toRx).1 ∧ (step s i).2 = (UsbRx.step s.rx i.toRx).2 := by
  cases i with
  | irq i => simp only [step, UsbRx.step, Input.toRx, interrupt_rx, and_self]
  | process => exact ⟨rfl, rfl⟩

theorem run_rx (s : State) (is : List Input) :
    (Mealy.run step s is).rx = Mealy.run UsbRx.step s.rx (is.map Input.toRx) ∧
      Mealy.outs step s is = Mealy.outs UsbRx.step s.rx (is.map Input.toRx) :=
  Mealy.sim_run (R := fun (s : State) (t : UsbRx.Run) => s.rx = t)
    (by rintro s _ i rfl; exact step_rx s i) rfl is

theorem roomFor_iff (s : State) (is : List Input) :
    Mealy.Along step RoomFor s is ↔ Mealy.Along UsbRx.step UsbRx.Fits s.rx (is.map Input.toRx) := by
  refine Mealy.sim_along (R := fun (s : State) (t : UsbRx.Run) => s.rx = t)
    (by rintro s _ i rfl; exact (step_rx s i).1) ?_ rfl is
  rintro s _ i rfl
  cases i with
  | irq i => exact Iff.rfl
  | process => simp [RoomFor, Input.bytes, UsbRx.Fits, Input.toRx]

theorem stream_toRx (is : List Input) : UsbRx.stream (is.map Input.toRx) = delivered is := by
  simp only [UsbRx.stream, delivered, List.flatMap_map]
  exact congrFun (congrArg _ (funext fun i => by cases i <;> rfl)) _

/-! ## Acknowledged bytes -/

theorem received_iff (s : State) (is : List Input) :
    (Mealy.run step s is).rx.received = s.rx.received ++ delivered is ↔ Mealy.Along step RoomFor s is := by
  rw [(run_rx s is).1, roomFor_iff, ← stream_toRx]
  exact UsbRx.run_received_iff _ _

/-- **Acknowledged bytes.** For every sequence of interrupts and processing
runs, the bytes popped so far and those in the ring are all bytes delivered
on EP3 if and only if each packet fitted the free space of the ring when it came. -/
theorem acked_bytes_kept_iff (d : UsbDev.Ctx) (is : List Input) :
    let s := Mealy.run step (start d) is
    s.rx.taken ++ s.rx.ctx.rawRb.toList = delivered is ↔ Mealy.Along step RoomFor (start d) is := by
  have h := received_iff (start d) is
  rwa [start, UsbRx.received_start, List.nil_append] at h

theorem size_run (d : UsbDev.Ctx) (is : List Input) :
    (Mealy.run step (start d) is).rx.ctx.rawRb.size = UsbRx.rawRingSize := by
  refine Mealy.inv_run (I := fun s : State => s.rx.ctx.rawRb.size = UsbRx.rawRingSize) ?_ rfl is
  intro s i h
  rw [(step_rx s i).1, UsbRx.size_step, h]

theorem taken_irqs (s : State) (is : List Irq) : (Mealy.run step s (is.map .irq)).rx.taken = s.rx.taken := by
  induction is generalizing s with
  | nil => rfl
  | cons i is ih => rw [List.map_cons, Mealy.run_cons, ih]; rfl

/-- Seventeen full packets in a row are more than the ring holds. -/
theorem acked_bytes_lost :
    ¬ ∀ is : List Input, let s := Mealy.run step (start UsbDev.init) is
      s.rx.taken ++ s.rx.ctx.rawRb.toList = delivered is := by
  intro h
  obtain ⟨packet, hp⟩ : ∃ p : Packet, p.1.length = 64 := ⟨⟨List.replicate 64 0, by simp⟩, by simp⟩
  let is : List Irq := List.replicate 17 (.ep3Out packet false)
  have hring := (Mealy.run step (start UsbDev.init) (is.map .irq)).rx.ctx.rawRb.length_toList_lt
  have hl := congrArg List.length (h (is.map .irq))
  have hlen : (delivered (is.map .irq)).length = 17 * 64 := by
    simp [delivered, is, Input.bytes, Irq.bytes, hp]
  rw [size_run] at hring
  rw [taken_irqs, hlen, show (start UsbDev.init).rx.taken = [] from rfl, List.nil_append] at hl
  rw [hl] at hring
  exact absurd hring (by decide)

/-! ## Retransmissions -/

/-- A packet of the host: it is sent once, and `retries` times again because
the acknowledgement got lost. -/
structure HostPacket where
  data : Packet
  retries : Nat

/-- The interrupts of a list of packets, whose PIDs alternate from `pid` on. -/
def sends : Bool → List HostPacket → List Irq
  | _, [] => []
  | pid, p :: ps => List.replicate (p.retries + 1) (.ep3Out p.data pid) ++ sends (!pid) ps

/-- The interrupts among the inputs. -/
def irqs (is : List Input) : List Irq :=
  is.filterMap fun
    | .irq i => some i
    | .process => none

theorem delivered_eq_irqs (is : List Input) : delivered is = (irqs is).flatMap Irq.bytes := by
  induction is with
  | nil => rfl
  | cons i is ih => cases i <;> simpa [delivered, irqs, Input.bytes] using ih

theorem pidOf_autoToggle {ctrl : UInt8} (h : ctrl &&& uepRAutoTog ≠ 0) :
    pidOf ((autoToggle ctrl &&& uepRTog) ||| uepRAutoTog ||| uepRResAck) = !pidOf ctrl := by
  obtain ⟨v⟩ := ctrl
  revert v
  decide

theorem pidOf_rearmed (ctrl : UInt8) : pidOf ((ctrl &&& uepRTog) ||| uepRAutoTog ||| uepRResAck) = pidOf ctrl := by
  obtain ⟨v⟩ := ctrl
  revert v
  decide

/-- Once accepted, a packet sent again arrives with `USBFS_UIS_TOG_OK` clear
and leaves the expected PID alone. -/
theorem retransmission_flagged (d : UsbDev.Ctx) (rx : UsbRx.Ctx) (data : Packet) (pid : Bool)
    (hexp : pidOf d.regs.uep3RxCtrl = pid) (hauto : d.regs.uep3RxCtrl &&& uepRAutoTog ≠ 0) :
    let d' := (interrupt d rx (.ep3Out data pid)).1
    (raise d' (.ep3Out data pid)).regs.intSt &&& uisTogOk = 0 ∧
      pidOf (interrupt d' rx (.ep3Out data pid)).1.regs.uep3RxCtrl = !pid := by
  intro d'
  have h1 : pidOf d'.regs.uep3RxCtrl = !pid := by
    have hc : d'.regs.uep3RxCtrl = (autoToggle d.regs.uep3RxCtrl &&& uepRTog) ||| uepRAutoTog ||| uepRResAck := by
      simp only [d', interrupt_ep3Out, clearFlag, handleEp3Out, raise, Regs.transfer, hexp, beq_self_eq_true, if_true]
    rw [hc, pidOf_autoToggle hauto, hexp]
  have hne : (pidOf d'.regs.uep3RxCtrl == pid) = false := by rw [h1]; cases pid <;> rfl
  constructor
  · simp only [raise, Regs.transfer, hne, Bool.false_eq_true, if_false]
    rfl
  · simp only [interrupt_ep3Out, clearFlag, handleEp3Out, raise, Regs.transfer, hne, Bool.false_eq_true, if_false]
    rw [pidOf_rearmed, h1]

theorem sends_bytes (pid : Bool) (ps : List HostPacket) :
    (sends pid ps).flatMap Irq.bytes = ps.flatMap fun p => (List.replicate (p.retries + 1) p.data.1).flatten := by
  induction ps generalizing pid with
  | nil => rfl
  | cons p ps ih => simp [sends, ih, Irq.bytes, List.flatMap_replicate]

theorem retries_length (ps : List HostPacket) :
    (ps.flatMap fun p => (List.replicate (p.retries + 1) p.data.1).flatten).length =
      (ps.flatMap fun p => p.data.1).length + (ps.map fun p => p.retries * p.data.1.length).sum := by
  induction ps with
  | nil => rfl
  | cons p ps ih =>
    simp only [List.flatMap_cons, List.length_append, ih, List.map_cons, List.sum_cons, List.length_flatten,
      List.map_replicate, List.sum_replicate_nat, Nat.add_mul, Nat.one_mul]
    omega

/-- **Retransmissions.** While the ring has room, the bytes pushed for a list
of host packets are those of each packet once if and only if no packet but an
empty one was sent again. -/
theorem retransmission_once_iff (d : UsbDev.Ctx) (ps : List HostPacket) (is : List Input)
    (hs : irqs is = sends (pidOf d.regs.uep3RxCtrl) ps) (h : Mealy.Along step RoomFor (start d) is) :
    let s := Mealy.run step (start d) is
    s.rx.taken ++ s.rx.ctx.rawRb.toList = ps.flatMap (fun p => p.data.1) ↔
      ∀ p ∈ ps, p.retries = 0 ∨ p.data.1 = [] := by
  have hr := (received_iff (start d) is).mpr h
  rw [start, UsbRx.received_start, List.nil_append, delivered_eq_irqs, hs, sends_bytes] at hr
  intro s
  change s.rx.received = _ ↔ _
  rw [show s.rx.received = _ from hr]
  constructor
  · intro he p hp
    have hl := congrArg List.length he
    rw [retries_length] at hl
    have h0 := List.sum_eq_zero_iff_forall_eq_nat.mp
      (show (ps.map fun p => p.retries * p.data.1.length).sum = 0 by omega) _ (List.mem_map_of_mem hp)
    exact (Nat.mul_eq_zero.mp h0).imp_right List.length_eq_zero_iff.mp
  · intro hp
    refine List.flatMap_congr ?_
    intro p hm
    rcases hp p hm with h0 | h0 <;> simp [h0]

/-- Two packets, the second of them empty and sent twice. -/
theorem retransmission_once_iff_empty :
    let ps : List HostPacket := [⟨⟨[1, 2], by decide⟩, 0⟩, ⟨⟨[], by decide⟩, 1⟩]
    let is : List Input := [.irq (.ep3Out ⟨[1, 2], by decide⟩ false), .process,
      .irq (.ep3Out ⟨[], by decide⟩ true), .irq (.ep3Out ⟨[], by decide⟩ true)]
    let s := Mealy.run step (start UsbDev.init) is
    s.rx.taken ++ s.rx.ctx.rawRb.toList = ps.flatMap (fun p => p.data.1) ↔
      ∀ p ∈ ps, p.retries = 0 ∨ p.data.1 = [] :=
  retransmission_once_iff UsbDev.init _ _ (by decide +kernel) (by decide +kernel)

/-- A one-byte packet whose acknowledgement is lost is pushed twice. -/
theorem retransmission_pushed_twice :
    ¬ ∀ (ps : List HostPacket) (is : List Input), irqs is = sends (pidOf UsbDev.init.regs.uep3RxCtrl) ps →
      Mealy.Along step RoomFor (start UsbDev.init) is →
      let s := Mealy.run step (start UsbDev.init) is
      s.rx.taken ++ s.rx.ctx.rawRb.toList = ps.flatMap fun p => p.data.1 := by
  intro h
  have := h [⟨⟨[7], by decide⟩, 1⟩]
    [.irq (.ep3Out ⟨[7], by decide⟩ false), .irq (.ep3Out ⟨[7], by decide⟩ false)]
    (by decide +kernel) (by decide +kernel)
  revert this
  decide +kernel

/-! ## Resets of the bus -/

/-- A reset of the bus and the `SET_CONFIGURATION` request of value `v`. -/
def resetIrqs (v : UInt8) : List Irq := [.busReset, .setup [0x00, 0x09, v, 0x00, 0x00, 0x00, 0x00, 0x00]]

/-- The two as inputs. -/
def busReset (v : UInt8) : List Input := (resetIrqs v).map .irq

/-- A frame with an accepted header and the payload that header announces. -/
structure WellFormed (h : VpHdr) (f : List UInt8) : Prop where
  accepted : UsbRx.format.accept (f.take 24) = some h
  payloadLen_le : h.payloadLen.toNat ≤ 488
  length : f.length = 24 + h.payloadLen.toNat

theorem WellFormed.totalLen {h : VpHdr} {f : List UInt8} (hf : WellFormed h f) :
    h.totalLen.toNat = 24 + h.payloadLen.toNat :=
  (UsbRx.accept_payloadLen hf.accepted).mp hf.payloadLen_le

theorem WellFormed.isFrame {h : VpHdr} {f : List UInt8} (hf : WellFormed h f) : IsFrame UsbRx.format h f := by
  have ht := hf.totalLen
  exact ⟨by rw [hf.length, UsbRx.format_size]; omega, hf.accepted⟩

/-- What is left of the bytes received so far once all frames that are
complete are taken out: the unfinished frame the machine holds and the ring. -/
def unfinished (c : UsbRx.Ctx) : List UInt8 := rest UsbRx.format (UsbRx.held c.fsm ++ c.rawRb.toList)

/-- After `n` received bytes, `f` comes out of `calls` where it was sent, and
every frame ends before those bytes do or starts after them. -/
structure Resynced (n : Nat) (h : VpHdr) (f : List UInt8) (calls : List UsbRx.Delivery) : Prop where
  dispatched : ∃ e ∈ calls, e.1.length = n + f.length ∧ e.2.hdr = h ∧ e.2.raw = f ∧
    e.2.payload.cells e.2.payloadLen.toNat = f.drop 24
  unmixed : ∀ e ∈ calls, e.1.length ≤ n ∨ n + e.2.raw.length ≤ e.1.length

theorem call_length_le {s : State} {is₀ : List UsbRx.Input} (hs : s.rx = Mealy.run UsbRx.step UsbRx.start is₀)
    {is : List Input} {e : UsbRx.Delivery} (he : e ∈ Mealy.outs step s is) :
    e.1.length ≤ (Mealy.run step s is).rx.received.length := by
  rw [(run_rx s is).2, hs] at he
  have hm : e ∈ Mealy.outs UsbRx.step UsbRx.start (is₀ ++ is.map Input.toRx) := by
    rw [Mealy.outs_append]; exact List.mem_append_right _ he
  have := (UsbRx.run_frame hm).2.1.length_le
  rw [Mealy.run_append, ← hs, ← (run_rx s is).1] at this
  rw [UsbRx.Run.received, List.length_append]
  omega

/-- The calls after a reset, as frames: those of the bytes received before
it, then those of what was left of these with all that follows. `f` is what
is received first. -/
theorem calls_after_reset {s : State} {is₀ : List UsbRx.Input}
    (hs : s.rx = Mealy.run UsbRx.step UsbRx.start is₀) {is : List Input} {f : List UInt8}
    (hf : s.rx.received ++ f <+: (Mealy.run step s is).rx.received) :
    ∃ pre q u, pre.length + q.length = s.rx.received.length ∧ rest UsbRx.format q = unfinished s.rx.ctx ∧
      (Mealy.outs step s (is ++ [Input.process])).map UsbRx.Delivery.frame =
        located pre (tokens UsbRx.format (q ++ (f ++ u))) := by
  have hst : UsbRx.Stands s.rx := hs ▸ (UsbRx.run_located is₀).1
  have hraw := raw_tokens_append_rest (F := UsbRx.format) s.rx.taken
  obtain ⟨u, hu⟩ := hf
  rw [(run_rx s is).1] at hu
  have hlast := UsbRx.process_state (s := Mealy.run UsbRx.step s.rx (is.map Input.toRx))
  refine ⟨(tokens UsbRx.format s.rx.taken).flatMap Token.raw,
    rest UsbRx.format s.rx.taken ++ s.rx.ctx.rawRb.toList, u, ?_, ?_, ?_⟩
  · rw [UsbRx.Run.received, ← List.length_append, ← List.append_assoc, hraw]
  · rw [unfinished, hst.held]
  · rw [(run_rx s _).2, List.map_append, hs, List.append_assoc]
    refine UsbRx.outs_after is₀ _ ?_
    rw [Mealy.run_append, ← hs, Mealy.run_append]
    exact hlast.2.1.trans (by
      rw [← UsbRx.Run.received.eq_1 (Mealy.run _ _ _), ← hu, UsbRx.Run.received]; simp)

/-- Calls that end before the frame's bytes, then the frame, then what is found
after it. -/
theorem resynced_of_calls {calls : List UsbRx.Delivery} {n : Nat} {h : VpHdr} {f pre t : List UInt8}
    {before : List (List UInt8 × VpHdr × List UInt8)} (hf : WellFormed h f)
    (hcalls : calls.map UsbRx.Delivery.frame =
      before ++ located pre (.frame h f :: tokens UsbRx.format t))
    (hn : pre.length = n) (hbefore : ∀ e ∈ before, e.1.length ≤ n) : Resynced n h f calls := by
  rw [located] at hcalls
  constructor
  · have hmem : (pre ++ f, h, f) ∈ calls.map UsbRx.Delivery.frame := by
      rw [hcalls]; exact List.mem_append_right _ (List.mem_cons_self ..)
    obtain ⟨e, he, hfr⟩ := List.mem_map.mp hmem
    obtain ⟨h1, h2, h3⟩ := UsbRx.Delivery.frame_eq_iff.mp hfr
    refine ⟨e, he, by rw [h1, List.length_append, hn], h2, h3, ?_⟩
    rw [UsbRx.payload_eq_body, UsbRx.Dispatch.body, h3, VP.headerLen_eq]
    · rw [h2, h3, hf.isFrame.1, UsbRx.format_size]
    · rw [h2, hf.totalLen]
    · rw [h2]; exact (UsbRx.accept_totalLen hf.accepted).2
  · intro e he
    have hm := List.mem_map_of_mem (f := UsbRx.Delivery.frame) he
    rw [hcalls, List.mem_append] at hm
    rcases hm with hm | hm
    · exact .inl (hbefore _ hm)
    · rcases List.mem_cons.mp hm with hm | hm
      · obtain ⟨h1, -, h3⟩ := UsbRx.Delivery.frame_eq_iff.mp hm
        exact .inr (by rw [h1, h3, List.length_append, hn])
      · obtain ⟨u, hu⟩ := (of_mem_located hm).1
        have hlen := congrArg List.length hu
        simp only [UsbRx.Delivery.frame, List.length_append] at hlen
        exact .inr (by omega)

/-- After a reset in a reachable state, re-synchronisation on a frame that
is received first is a matter of the unfinished bytes. -/
theorem resynced_iff {s : State} {is₀ : List UsbRx.Input} (hs : s.rx = Mealy.run UsbRx.step UsbRx.start is₀)
    {is : List Input} {h : VpHdr} {f : List UInt8} (hf : WellFormed h f)
    (hrec : s.rx.received ++ f <+: (Mealy.run step s is).rx.received) :
    Resynced s.rx.received.length h f (Mealy.outs step s (is ++ [Input.process])) ↔
      Clean UsbRx.format (unfinished s.rx.ctx) f := by
  obtain ⟨pre, q, t, hlen, hrest, hcalls⟩ := calls_after_reset hs hrec
  rw [tokens_append, hrest, ← List.append_assoc, located_append] at hcalls
  have hpre : (pre ++ (tokens UsbRx.format q).flatMap Token.raw).length + (unfinished s.rx.ctx).length =
      s.rx.received.length := by
    have := congrArg List.length (raw_tokens_append_rest (F := UsbRx.format) q)
    rw [List.length_append, hrest] at this
    rw [List.length_append, ← hlen]; omega
  have hpos : 24 ≤ f.length := by rw [hf.length]; omega
  have old {e : List UInt8 × VpHdr × List UInt8} (he : e ∈ located pre (tokens UsbRx.format q)) :
      e.1.length ≤ s.rx.received.length := by
    rw [← hlen, ← List.length_append]; exact (of_mem_located he).2.1.length_le
  generalize pre ++ (tokens UsbRx.format q).flatMap Token.raw = pre' at hcalls hpre
  constructor
  · intro hr
    obtain ⟨e, he, hl, -, hraw, -⟩ := hr.dispatched
    have hm := List.mem_map_of_mem (f := UsbRx.Delivery.frame) he
    rw [hcalls, List.mem_append] at hm
    rcases hm with hm | hm
    · have := old hm
      simp only [UsbRx.Delivery.frame] at this
      omega
    · refine clean_of_located (hrest ▸ pending_rest q) hpos hm ?_ (congrArg List.length hraw)
      rw [hpre]; exact hl
  · intro hc
    rw [tokens_clean hf.isFrame hc, located_skips] at hcalls
    refine resynced_of_calls hf hcalls ?_ (fun e he => old he)
    rw [List.length_append, hpre]

/-- What the host sends first after a reset is received first, if the ring
has room for it. -/
theorem received_after_reset {s : State} {v : UInt8} {is : List Input} {f : List UInt8}
    (hroom : f.length ≤ s.rx.ctx.rawRb.space.toNat) (hpre : f <+: delivered is) :
    s.rx.received ++ f <+: (Mealy.run step s (busReset v ++ is)).rx.received := by
  rw [(run_rx s _).1]
  refine UsbRx.received_of_room ?_ hroom ?_
  · intro i hi
    obtain ⟨i, -, rfl⟩ := List.mem_map.mp hi
    cases i with
    | irq i => exact i.length_bytes.trans_lt (by decide)
    | process => exact Nat.zero_lt_succ _
  · rw [stream_toRx, delivered_append]
    exact hpre

/-- A frame in packets of one byte. -/
def bytewise (f : List UInt8) : List Irq := f.map fun b => .ep3Out ⟨[b], show 1 ≤ 64 by decide⟩ false

theorem delivered_bytewise (f : List UInt8) : delivered ((bytewise f).map .irq) = f := by
  simp [delivered, bytewise, Input.bytes, Irq.bytes, List.flatMap_map]

theorem received_irqs (s : State) (is : List Irq) :
    (Mealy.run step s (is.map .irq)).rx.received.length ≤ s.rx.received.length + s.rx.ctx.rawRb.space.toNat := by
  have hsize : (Mealy.run step s (is.map .irq)).rx.ctx.rawRb.size = s.rx.ctx.rawRb.size := by
    refine Mealy.inv_run (I := fun t : State => t.rx.ctx.rawRb.size = s.rx.ctx.rawRb.size) ?_ rfl _
    intro t i h
    rw [(step_rx t i).1, UsbRx.size_step, h]
  have hlt := (Mealy.run step s (is.map .irq)).rx.ctx.rawRb.length_toList_lt
  have hsp := s.rx.ctx.rawRb.space_toNat
  rw [hsize] at hlt
  rw [UsbRx.Run.received, taken_irqs, UsbRx.Run.received, List.length_append, List.length_append]
  omega

/-- **Resets.** For every state the receive path can be in and every
well-formed frame: whatever else the host sends once it has sent that frame
first after a reset of the bus and `SET_CONFIGURATION`, in whatever packets
and with whatever processing between them, the frame is dispatched unchanged
and no frame mixes bytes from before and after the reset, if and only if it
fits the free space of the ring and no header window that starts in the
unfinished bytes from before is accepted. -/
theorem reset_resync_iff (d : UsbDev.Ctx) (before : List Input) (v : UInt8) {h : VpHdr} {f : List UInt8}
    (hf : WellFormed h f) :
    let s := Mealy.run step (start d) before
    (∀ is, f <+: delivered is →
      Resynced s.rx.received.length h f (Mealy.outs step s (busReset v ++ is ++ [Input.process]))) ↔
      f.length ≤ s.rx.ctx.rawRb.space.toNat ∧ Clean UsbRx.format (unfinished s.rx.ctx) f := by
  intro s
  have hs := (run_rx (start d) before).1
  constructor
  · intro hr
    have hb : f <+: delivered ((bytewise f).map .irq) := by rw [delivered_bytewise]
    have hres := hr _ hb
    have hroom : f.length ≤ s.rx.ctx.rawRb.space.toNat := by
      -- without processing, what is handed on at last is in the ring before
      obtain ⟨e, he, hl, -⟩ := hres.dispatched
      have hle := call_length_le hs he
      have hproc : (Mealy.run step s (busReset v ++ (bytewise f).map .irq ++ [Input.process])).rx.received =
          (Mealy.run step s (busReset v ++ (bytewise f).map .irq)).rx.received := by
        obtain ⟨-, h2, h3, -⟩ := UsbRx.process_state
          (s := (Mealy.run step s (busReset v ++ (bytewise f).map .irq)).rx)
        rw [Mealy.run_append]
        simp only [Mealy.run_cons, Mealy.run_nil, step, UsbRx.Run.received, h2, h3, List.append_nil]
      have hirq : busReset v ++ (bytewise f).map .irq =
          (resetIrqs v ++ bytewise f).map .irq := rfl
      have := received_irqs s (resetIrqs v ++ bytewise f)
      rw [hproc, hirq] at hle
      omega
    exact ⟨hroom, (resynced_iff hs hf (received_after_reset hroom hb)).mp hres⟩
  · rintro ⟨hroom, hc⟩ is hpre
    exact (resynced_iff hs hf (received_after_reset hroom hpre)).mpr hc

/-- A frame of two payload bytes after a single stray byte. -/
theorem reset_resync_iff_stray :
    let f : List UInt8 := [0x5A, 0xA5, 1, 24, 26, 0, 7, 0, 0, 0, 0, 0, 1, 3, 0, 0, 0, 0, 2, 0, 5, 251, 0, 0, 1, 2]
    let s := Mealy.run step (start UsbDev.init) [.irq (.ep3Out ⟨[0x5A], by decide⟩ false), .process]
    (∀ is, f <+: delivered is → Resynced s.rx.received.length (UsbRx.parseHeader f).1 f
        (Mealy.outs step s (busReset 1 ++ is ++ [Input.process]))) ↔
      f.length ≤ s.rx.ctx.rawRb.space.toNat ∧ Clean UsbRx.format (unfinished s.rx.ctx) f :=
  reset_resync_iff UsbDev.init _ 1
    ⟨UsbRx.accept_iff.mpr ⟨by decide +kernel, by decide +kernel⟩, by decide +kernel, by decide +kernel⟩

/-- A header before the reset swallows the first bytes of the frame after it. -/
theorem reset_keeps_partial_frame :
    ¬ ∀ (before is : List Input) (v : UInt8) (h : VpHdr) (f : List UInt8), WellFormed h f → f <+: delivered is →
      let s := Mealy.run step (start UsbDev.init) before
      Resynced s.rx.received.length h f (Mealy.outs step s (busReset v ++ is ++ [Input.process])) := by
  intro H
  let hdr : List UInt8 := [0x5A, 0xA5, 1, 24, 26, 0, 7, 0, 0, 0, 0, 0, 1, 3, 0, 0, 0, 0, 2, 0, 5, 251, 0, 0]
  let before : List Input := [.irq (.ep3Out ⟨hdr, by decide⟩ false)]
  let is : List Input := [.irq (.ep3Out ⟨hdr ++ [1, 2], by decide⟩ false)]
  have hr := H before is 1 (UsbRx.parseHeader hdr).1 (hdr ++ [1, 2])
    ⟨UsbRx.accept_iff.mpr ⟨by decide +kernel, by decide +kernel⟩, by decide +kernel, by decide +kernel⟩
    (by decide)
  obtain ⟨e, he, hl, -⟩ := hr.dispatched
  have hne : ∀ e ∈ Mealy.outs step (Mealy.run step (start UsbDev.init) before) (busReset 1 ++ is ++ [Input.process]),
      e.1.length ≠ 50 := by decide +kernel
  refine hne e he (hl.trans ?_)
  decide +kernel

end UsbMux.OutPath
