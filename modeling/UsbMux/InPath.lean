/-
The way out, from an enqueued message to a parser on the other side: the
scheduler hands serialized frames to the driver, the driver cuts them into
EP2 packets as the completions come in, and the packets between two resets of
the bus, fed to the receive state machine, give the messages back.

What holds the pieces together is one relation (`Flow`): the packets armed so
far are the frames handed over so far, but for what the staging buffer still
holds of the last one.
-/
import UsbMux.DevFacts
import UsbMux.TxFacts
import UsbMux.RxRuns

namespace UsbMux.InPath

open Framing UsbDev UsbTx

/-! ## The machine of enqueues, scheduling and interrupts -/

/-- An enqueue call with a payload that fits a frame and is there. -/
abbrev Request :=
  { call : Enqueue // call.payloadLen.toNat ≤ 488 ∧ (0 < call.payloadLen.toNat → call.payload.isSome) }

/-- Scheduler, driver and receive path; all requests so far; and, since the
last reset of the bus, the frames the driver accepted, the EP2 packets armed
and how many of these the host has acknowledged. -/
structure State where
  tx : UsbTx.Ctx
  dev : UsbDev.Ctx
  rx : UsbRx.Ctx
  calls : List Request
  frames : List Frame
  packets : List (List UInt8)
  completed : Nat

/-- An enqueue call, `USBTX_Process`, or an interrupt. -/
inductive Input
  | enqueue (call : Request)
  | process
  | irq (i : Irq)

/-- After the initialisation of the three modules. -/
def start : State := ⟨UsbTx.init, UsbDev.init, UsbRx.init, [], [], [], 0⟩

/-- The frames a step handed to the driver. -/
def handed (tr : List Event) : List Frame :=
  tr.filterMap fun
    | .sent _ f => some f
    | _ => none

/-- One input. An EP2 packet is acknowledged only where the endpoint is armed. -/
def step : Mealy.Step State Input Empty
  | s, .enqueue call => ({ s with tx := (enqueue s.tx call.1).1, calls := s.calls ++ [call] }, [])
  | s, .process =>
    let r := process device s.tx s.dev
    ({ s with
      tx := r.1
      dev := r.2.1
      frames := s.frames ++ handed r.2.2
      packets := s.packets ++ (handed r.2.2).map fun _ => ep2Packet r.2.1 }, [])
  | s, .irq i =>
    let r := interrupt s.dev s.rx i
    match i with
    | .busReset => ({ s with dev := r.1, rx := r.2, frames := [], packets := [], completed := 0 }, [])
    | .ep2In =>
      if armed s.dev.regs.uep2TxCtrl then
        ({ s with
          dev := r.1
          rx := r.2
          packets := s.packets ++ if armed r.1.regs.uep2TxCtrl then [ep2Packet r.1] else []
          completed := s.completed + 1 }, [])
      else (s, [])
    | _ => ({ s with dev := r.1, rx := r.2 }, [])

/-! ## What a frame carries -/

/-- The header and the payload in a frame's bytes. -/
def content (f : Frame) : VpHdr × List UInt8 := (VP.deserializeHeader f.bytes, f.bytes.drop VP.headerLen)

/-- The message of a request that is enqueued with the sequence number `seq`. -/
def Request.message (call : Request) (seq : UInt16) : VpHdr × List UInt8 :=
  (VP.encodeHeader (call.1.hdr seq), call.1.payload.cells call.1.payloadLen.toNat)

/-- `f` is the serialized message of one of the requests. -/
def Encodes (calls : List Request) (f : Frame) : Prop :=
  ∃ call ∈ calls, ∃ seq, f.len.toNat = 24 + call.1.payloadLen.toNat ∧
    f.bytes = (call.message seq).1.bytes (call.message seq).1.headerCrc16 ++ (call.message seq).2

theorem hdr_payloadLen (seq : UInt16) (call : Enqueue) : (call.hdr seq).payloadLen = call.payloadLen := by
  cases call <;> rfl

theorem Encodes.content {calls : List Request} {f : Frame} (h : Encodes calls f) :
    ∃ call ∈ calls, ∃ seq, content f = call.message seq ∧
      f.bytes = (call.message seq).1.bytes (call.message seq).1.headerCrc16 ++ (call.message seq).2 := by
  obtain ⟨call, hm, seq, -, hb⟩ := h
  refine ⟨call, hm, seq, Prod.ext ?_ ?_, hb⟩
  · rw [InPath.content, hb, VP.deserializeHeader_own]
  · rw [InPath.content, hb]
    exact List.drop_left' (VpHdr.length_bytes _ _)

theorem Encodes.isFrame {calls : List Request} {f : Frame} (h : Encodes calls f) :
    IsFrame UsbRx.format (InPath.content f).1 f.bytes ∧ (InPath.content f).1.payloadLen.toNat ≤ 488 := by
  obtain ⟨call, -, seq, hl, hb⟩ := h
  have hp : (call.1.hdr seq).payloadLen.toNat ≤ 488 := by rw [hdr_payloadLen]; exact call.2.1
  have hc : (InPath.content f).1 = VP.encodeHeader (call.1.hdr seq) := by
    rw [InPath.content, hb, VP.deserializeHeader_own]; rfl
  have hacc := UsbRx.accept_encoded (call.1.hdr seq) hp (call.message seq).2
  have ht := (UsbRx.accept_payloadLen hacc).mp hp
  rw [hc]
  refine ⟨⟨?_, ?_⟩, hp⟩
  · rw [UsbRx.format_size, ht, hb, List.length_append, VpHdr.length_bytes, VP.headerLen_eq, Request.message,
      Ptr.length_cells, VP.encodeHeader_payloadLen, hdr_payloadLen]
    omega
  · rw [UsbRx.format_window, UsbRx.accept_take, hb]
    exact hacc

theorem Encodes.mono {calls calls' : List Request} {f : Frame} (h : Encodes calls f) (hs : calls ⊆ calls') :
    Encodes calls' f := by
  obtain ⟨call, hm, h⟩ := h
  exact ⟨call, hs hm, h⟩

/-- An accepted request puts its serialized message into its queue. -/
theorem encodes_enqueue {c : UsbTx.Ctx} {calls : List Request} (call : Request) {q : UsbTx.Class}
    (hq : ∀ f ∈ (c.queue q).toList, Encodes calls f) :
    ∀ f ∈ ((enqueue c call.1).1.queue q).toList, Encodes (calls ++ [call]) f := by
  have old {f : Frame} (hf : f ∈ (c.queue q).toList) : Encodes (calls ++ [call]) f :=
    (hq f hf).mono (List.subset_append_left _ _)
  intro f hf
  rcases enqueue_cases c call.1 with ⟨⟨bit, hr⟩, -⟩ | ⟨g, -, hp, -, hg, -, hadd, hne⟩
  · rw [hr, queue_dropFrame] at hf
    exact old hf
  · by_cases he : q = call.1.queue
    · rw [he, hadd, List.mem_append, List.mem_singleton] at hf
      rcases hf with hf | rfl
      · exact old (he ▸ hf)
      · have htot : (VP.encodeHeader (call.1.hdr c.seq)).totalLen = 24 + call.1.payloadLen := by
          rw [VP.encodeHeader_totalLen, hdr_payloadLen]
        refine ⟨call, by simp, c.seq, ?_, ?_⟩
        · have hlen : f.len = 24 + call.1.payloadLen := by rw [hg]; exact htot
          have := call.2.1
          rw [hlen, UInt16.toNat_add]
          simp; omega
        · rw [hg, writeFrame_bytes _ hp htot]
          have hpay : (if call.1.payload.isSome then call.1.payload.cells call.1.payloadLen.toNat
              else ((c.queue call.1.queue).slot.data.toList.drop 24).take call.1.payloadLen.toNat) =
                call.1.payload.cells call.1.payloadLen.toNat := by
            split
            · rfl
            · next hn =>
              have h0 : call.1.payloadLen.toNat = 0 := Nat.eq_zero_of_not_pos fun h => hn (call.2.2 h)
              rw [h0]; rfl
          rw [hpay]
          rfl
    · rw [hne q he] at hf
      exact old hf

/-! ## What the scheduler does to the driver -/

theorem sendHintIfNeeded_ep2In (c : UsbTx.Ctx) (d : UsbDev.Ctx) :
    ep2In (sendHintIfNeeded device c d).2.1 = ep2In d := by
  have hs (hint : VpIrqHint) : ep2In (device.sendHint d hint).1 = ep2In d := by
    rcases sendHint_cases d hint with he | ⟨-, he⟩
    · exact congrArg (fun r => ep2In r.1) he
    · exact he
  simp only [sendHintIfNeeded]
  split
  · rfl
  · have hhint := hs ⟨VP.irqHintVersion, 0, c.pendingBitmap, c.droppedBitmap, 0⟩
    split <;> next he => rw [he] at hhint; exact hhint

/-- One run of the scheduler: it leaves EP2 alone and hands over nothing, or
it hands the oldest frame of a queue to a driver whose EP2 is idle. -/
theorem process_cases (c : UsbTx.Ctx) (d : UsbDev.Ctx) :
    let r := process device c d
    (∀ q, (r.1.queue q).toList ⊆ (c.queue q).toList) ∧
    ((ep2In r.2.1 = ep2In d ∧ handed r.2.2 = []) ∨
      ∃ q f d₁, f ∈ (c.queue q).toList ∧ ep2In d₁ = ep2In d ∧ d₁.ep2TxActive = 0 ∧ 0 < f.len.toNat ∧
        f.len.toNat ≤ 512 ∧ handed r.2.2 = [f] ∧
        r.2.1 = loadEp2Chunk (stageFrame d₁ (some f.data.toList) f.len)) := by
  simp only [process]
  split
  · exact ⟨fun q => List.Subset.refl _, .inl ⟨rfl, rfl⟩⟩
  have hq := sendHintIfNeeded_queue device c d
  have hh : handed (sendHintIfNeeded device c d).2.2 = [] := by
    rcases sendHintIfNeeded_events device c d with he | ⟨hint, he⟩ <;> rw [he] <;> rfl
  have hd := sendHintIfNeeded_ep2In c d
  generalize sendHintIfNeeded device c d = r at hq hh hd
  have hand (tr : List Event) : handed (r.2.2 ++ tr) = handed tr := by
    rw [handed, List.filterMap_append]
    exact (congrArg (· ++ _) hh).trans (List.nil_append _)
  simp only [hand]
  rcases sendNextFrame_cases device r.1 r.2.1 with he | ⟨q, f, -, hf, -, he⟩
  · rw [he]
    exact ⟨fun q => by rw [hq]; exact List.Subset.refl _, .inl ⟨hd, rfl⟩⟩
  · rw [he]
    have hmem : f ∈ (c.queue q).toList := by
      rw [← hq]; exact List.mem_of_head? hf
    rcases UsbDev.sendFrame_cases r.2.1 (some f.data.toList) f.len with hs | ⟨hact, h0, hl, hs⟩
    · have hs' : device.sendFrame r.2.1 (some f.data.toList) f.len = (r.2.1, false) := hs
      rcases sendFrom_cases device r.1 r.2.1 q f with ⟨-, h⟩ | ⟨ht, -⟩
      · rw [h, hs']
        exact ⟨fun q => by rw [hq]; exact List.Subset.refl _, .inl ⟨hd, rfl⟩⟩
      · rw [hs'] at ht; cases ht
    · have hs' : device.sendFrame r.2.1 (some f.data.toList) f.len = _ := hs
      rcases sendFrom_cases device r.1 r.2.1 q f with ⟨hn, -⟩ | ⟨-, h⟩
      · rw [hs'] at hn; cases hn
      · rw [h, hs']
        refine ⟨?_, .inr ⟨q, f, r.2.1, hmem, hd, hact, h0, hl, rfl, rfl⟩⟩
        intro q'
        rw [popQueue_queue, hq, hq]
        split
        · next he => rw [he]; exact List.tail_subset _
        · exact List.Subset.refl _

/-! ## Frames and packets -/

/-- Where the bytes of the frames handed over stand: all are in packets the
host has acknowledged, or the last frame is staged, part of it in packets, and
the last of these is waiting for the host. -/
inductive Flow (e : Ep2In) (frames : List Frame) (packets : List (List UInt8)) (completed : Nat) : Prop
  | idle (notArmed : armed e.txCtrl = false) (sent : packets.flatten = frames.flatMap Frame.bytes)
      (done : completed = packets.length)
  | sending (fs : List Frame) (f : Frame) (arm : armed e.txCtrl = true) (active : e.active = 1)
      (frames_eq : frames = fs ++ [f]) (len_eq : e.len.toNat = f.bytes.length) (len_le : e.len.toNat ≤ 512)
      (staged : e.stage.toList.take e.len.toNat = f.bytes) (offset_le : e.offset.toNat ≤ e.len.toNat)
      (sent : packets.flatten = fs.flatMap Frame.bytes ++ f.bytes.take e.offset.toNat)
      (done : completed + 1 = packets.length)

theorem flow_load (d : UsbDev.Ctx) (fs : List Frame) (f : Frame) (packets : List (List UInt8))
    (hlt : d.ep2TxOffset < d.ep2TxLen) (hle : d.ep2TxLen.toNat ≤ 512) (hact : d.ep2TxActive = 1)
    (hlen : d.ep2TxLen.toNat = f.bytes.length) (hst : d.ep2TxStage.toList.take d.ep2TxLen.toNat = f.bytes)
    (hsent : packets.flatten = fs.flatMap Frame.bytes ++ f.bytes.take d.ep2TxOffset.toNat) :
    let d' := loadEp2Chunk d
    Flow (ep2In d') (fs ++ [f]) (packets ++ [ep2Packet d']) packets.length ∧ armed d'.regs.uep2TxCtrl = true ∧
      1 ≤ (ep2Packet d').length ∧ (ep2Packet d').length ≤ 64 := by
  obtain ⟨hoff, hpacket, harm⟩ := loadEp2Chunk_spec hlt hle
  rw [UInt16.lt_iff_toNat_lt] at hlt
  generalize hn : min 64 (d.ep2TxLen.toNat - d.ep2TxOffset.toNat) = n at hoff hpacket
  have hlp : (ep2Packet (loadEp2Chunk d)).length = n := by
    rw [hpacket, d.ep2TxStage.length_slice (show _ ≤ 512 by omega)]
  refine ⟨.sending fs f harm hact rfl hlen hle hst ?_ ?_ (by simp), harm, by omega, by omega⟩
  · change (loadEp2Chunk d).ep2TxOffset.toNat ≤ d.ep2TxLen.toNat
    omega
  · change _ = _ ++ f.bytes.take (loadEp2Chunk d).ep2TxOffset.toNat
    have htake : f.bytes.take (d.ep2TxOffset.toNat + n) =
        f.bytes.take d.ep2TxOffset.toNat ++ d.ep2TxStage.slice d.ep2TxOffset.toNat n := by
      rw [← hst, List.take_take, List.take_take, Nat.min_eq_left (by omega), Nat.min_eq_left (by omega),
        List.take_add]
      rfl
    rw [List.flatten_append, hsent, hoff, htake, hpacket]
    simp

theorem flow_begin {d : UsbDev.Ctx} {frames : List Frame} {f : Frame} {packets : List (List UInt8)}
    {completed : Nat} (h : Flow (ep2In d) frames packets completed) (hact : d.ep2TxActive = 0)
    (h0 : 0 < f.len.toNat) (hle : f.len.toNat ≤ 512) :
    let d' := loadEp2Chunk (stageFrame d (some f.data.toList) f.len)
    completed = packets.length ∧ packets.flatten = frames.flatMap Frame.bytes ∧
      Flow (ep2In d') (frames ++ [f]) (packets ++ [ep2Packet d']) completed ∧
      1 ≤ (ep2Packet d').length ∧ (ep2Packet d').length ≤ 64 := by
  have hl : f.data.toList.length = 512 := f.data.toList_length
  have hcells : Ptr.cells (some f.data.toList) f.len.toNat = f.bytes := Ptr.cells_some (by omega)
  have hbytes : f.bytes.length = f.len.toNat := by rw [Frame.bytes, List.length_take]; omega
  cases h with
  | sending fs g arm active =>
    have active : d.ep2TxActive = 1 := active
    rw [hact] at active
    exact absurd active (by decide)
  | idle notArmed sent done =>
    refine ⟨done, sent, ?_⟩
    have hstage : (d.ep2TxStage.write 0 f.bytes).toList.take f.len.toNat = f.bytes :=
      d.ep2TxStage.take_write hbytes hle
    obtain ⟨h1, -, h3⟩ := flow_load (stageFrame d (some f.data.toList) f.len) frames f packets
      (UInt16.lt_iff_toNat_lt.mpr h0) hle rfl hbytes.symm (by simp only [stageFrame, hcells]; exact hstage)
      (by simp [stageFrame, sent])
    exact ⟨done ▸ h1, h3⟩

theorem ep2Packet_congr {d d' : UsbDev.Ctx} (h : ep2In d = ep2In d') : ep2Packet d = ep2Packet d' := by
  have h1 : d.ep2Dma = d'.ep2Dma := congrArg Ep2In.dma h
  have h2 : d.regs.uep2TxLen = d'.regs.uep2TxLen := congrArg Ep2In.txLen h
  rw [ep2Packet, ep2Packet, h1, h2]

/-- A packet is acknowledged: the next one is armed, or all of the frame is out. -/
theorem flow_ep2In {d : UsbDev.Ctx} (rx : UsbRx.Ctx) {frames : List Frame} {packets : List (List UInt8)}
    {completed : Nat} (h : Flow (ep2In d) frames packets completed)
    (ha : armed d.regs.uep2TxCtrl = true) :
    let d' := (interrupt d rx .ep2In).1
    let new := if armed d'.regs.uep2TxCtrl then [ep2Packet d'] else []
    Flow (ep2In d') frames (packets ++ new) (completed + 1) ∧ (∀ p ∈ new, 1 ≤ p.length ∧ p.length ≤ 64) ∧
      d'.ep2TxStage = d.ep2TxStage := by
  intro d' new
  cases h with
  | idle notArmed => exact absurd (ha.symm.trans notArmed) (by decide)
  | sending fs f arm active frames_eq len_eq len_le staged offset_le sent done =>
    rcases ep_ep2In d rx with ⟨hlt, d₁, h1, h2, h3, h4, he⟩ | ⟨hge, hna, hstage⟩
    · obtain ⟨hf, harm, hsize⟩ := flow_load d₁ fs f packets (by rwa [h1, h2]) (by rwa [h2])
        (h4.trans active) (by rwa [h2]) (by rw [h2, h3]; exact staged) (by rwa [h1])
      have hctrl : d'.regs.uep2TxCtrl = (loadEp2Chunk d₁).regs.uep2TxCtrl := congrArg Ep2In.txCtrl he
      have hnew : new = [ep2Packet (loadEp2Chunk d₁)] := by
        simp only [new, hctrl, harm, if_true]
        rw [ep2Packet_congr he]
      have hst : d'.ep2TxStage = (loadEp2Chunk d₁).ep2TxStage := congrArg Ep2In.stage he
      rw [hnew, show ep2In d' = _ from he, frames_eq, done]
      refine ⟨hf, ?_, hst.trans h3⟩
      intro p hp
      rw [List.mem_singleton.mp hp]
      exact hsize
    · have hnew : new = [] := by
        simp only [new, d', hna, Bool.false_eq_true, if_false]
      rw [hnew, List.append_nil]
      refine ⟨.idle hna ?_ done, by simp, hstage⟩
      have hoff : (ep2In d).offset.toNat = f.bytes.length := by
        have : (ep2In d).len.toNat ≤ (ep2In d).offset.toNat := UInt16.le_iff_toNat_le.mp (UInt16.not_lt.mp hge)
        omega
      rw [sent, hoff, List.take_length, frames_eq]
      simp

/-! ## Every step -/

/-- What holds in every state reached. -/
structure Inv (s : State) : Prop where
  flow : Flow (ep2In s.dev) s.frames s.packets s.completed
  sizes : ∀ p ∈ s.packets, 1 ≤ p.length ∧ p.length ≤ 64
  queued : ∀ q, ∀ f ∈ (s.tx.queue q).toList, Encodes s.calls f
  handed : ∀ f ∈ s.frames, Encodes s.calls f

theorem inv_start : Inv start where
  flow := .idle rfl rfl rfl
  sizes := by simp [start]
  queued q := by cases q <;> simp [start, UsbTx.init, Ctx.queue]
  handed := by simp [start]

/-- The staging buffer is free: all frames handed over are in packets, and the
host has acknowledged all of these. -/
def Done (s : State) : Prop := s.completed = s.packets.length ∧ s.packets.flatten = s.frames.flatMap Frame.bytes

/-- An input writes the staging buffer. -/
def Overwrites (s : State) (i : Input) : Prop :=
  s.frames.length < (step s i).1.frames.length ∨ (step s i).1.dev.ep2TxStage ≠ s.dev.ep2TxStage

/-- A step that leaves EP2, the queues and the history alone. -/
theorem Inv.same {s s' : State} (h : Inv s) (he : ep2In s'.dev = ep2In s.dev) (htx : s'.tx = s.tx)
    (hc : s'.calls = s.calls) (hf : s'.frames = s.frames) (hp : s'.packets = s.packets)
    (hn : s'.completed = s.completed) : Inv s' where
  flow := by rw [he, hf, hp, hn]; exact h.flow
  sizes := hp ▸ h.sizes
  queued := by rw [htx, hc]; exact h.queued
  handed := by rw [hf, hc]; exact h.handed

theorem inv_enqueue {s : State} (h : Inv s) (call : Request) :
    Inv (step s (.enqueue call)).1 ∧ ¬ Overwrites s (.enqueue call) :=
  ⟨⟨h.flow, h.sizes, fun q => encodes_enqueue call (h.queued q),
    fun f hf => (h.handed f hf).mono (List.subset_append_left _ _)⟩,
    not_or.mpr ⟨Nat.lt_irrefl _, fun hne => hne rfl⟩⟩

theorem inv_process {s : State} (h : Inv s) :
    Inv (step s .process).1 ∧ (Overwrites s .process → Done s) := by
  obtain ⟨hq, hcase⟩ := process_cases s.tx s.dev
  have hqueued (q : UsbTx.Class) : ∀ f ∈ ((process device s.tx s.dev).1.queue q).toList, Encodes s.calls f :=
    fun f hf => h.queued q f (hq q hf)
  rcases hcase with ⟨he, hh⟩ | ⟨q, f, d₁, hmem, he, hact, h0, hl, hh, hd⟩
  · refine ⟨⟨?_, ?_, hqueued, ?_⟩, ?_⟩
    · simp only [step, hh, he, List.append_nil, List.map_nil]
      exact h.flow
    · simpa [step, hh] using h.sizes
    · simpa [step, hh] using h.handed
    · rintro (hlt | hne)
      · simp [step, hh] at hlt
      · exact absurd (congrArg Ep2In.stage he) hne
  · obtain ⟨hdone, hsent, hflow, hsize⟩ := flow_begin (he.symm ▸ h.flow) hact h0 hl
    refine ⟨⟨?_, ?_, hqueued, ?_⟩, fun _ => ⟨hdone, hsent⟩⟩
    · simp only [step, hh, hd, List.map_cons, List.map_nil]
      exact hflow
    · intro p hp
      simp only [step, hh, hd, List.map_cons, List.map_nil, List.mem_append, List.mem_singleton] at hp
      rcases hp with hp | rfl
      · exact h.sizes p hp
      · exact hsize
    · intro g hg
      simp only [step, hh, List.mem_append, List.mem_singleton] at hg
      rcases hg with hg | rfl
      · exact h.handed g hg
      · exact h.queued q g hmem

theorem inv_irq {s : State} (h : Inv s) (i : Irq) :
    Inv (step s (.irq i)).1 ∧ ¬ Overwrites s (.irq i) := by
  have quiet {i : Irq} (hr : i ≠ .busReset) (h1 : i ≠ .ep1In) (h2 : i ≠ .ep2In)
      (hs : (step s (.irq i)).1 = { s with dev := (interrupt s.dev s.rx i).1, rx := (interrupt s.dev s.rx i).2 }) :
      Inv (step s (.irq i)).1 ∧ ¬ Overwrites s (.irq i) := by
    have he := (sameIn_interrupt s.dev s.rx hr h1 h2).2
    rw [Overwrites, hs]
    exact ⟨h.same he rfl rfl rfl rfl rfl,
      not_or.mpr ⟨Nat.lt_irrefl _, fun hne => hne (congrArg Ep2In.stage he)⟩⟩
  cases i with
  | setup packet => exact quiet (by simp) (by simp) (by simp) rfl
  | ep0In => exact quiet (by simp) (by simp) (by simp) rfl
  | ep0Out data => exact quiet (by simp) (by simp) (by simp) rfl
  | ep3Out data pid => exact quiet (by simp) (by simp) (by simp) rfl
  | ep1In =>
    have he := (ep_ep1In s.dev s.rx).2
    exact ⟨h.same he rfl rfl rfl rfl rfl,
      not_or.mpr ⟨Nat.lt_irrefl _, fun hne => hne (congrArg Ep2In.stage he)⟩⟩
  | busReset =>
    have he := (ep_busReset s.dev s.rx).2
    have hna : armed (interrupt s.dev s.rx .busReset).1.regs.uep2TxCtrl = false := by
      have hc : (interrupt s.dev s.rx .busReset).1.regs.uep2TxCtrl = uepTAutoTog ||| uepTResNak :=
        congrArg Ep2In.txCtrl he
      rw [hc]
      decide
    exact ⟨⟨.idle hna rfl rfl, by simp [step], h.queued, by simp [step]⟩,
      not_or.mpr ⟨Nat.not_lt_zero _, fun hne => hne (congrArg Ep2In.stage he)⟩⟩
  | ep2In =>
    cases ha : armed s.dev.regs.uep2TxCtrl with
    | false =>
      have hs : (step s (.irq .ep2In)).1 = s := by simp only [step, ha, Bool.false_eq_true, if_false]
      rw [Overwrites, hs]
      exact ⟨h, not_or.mpr ⟨Nat.lt_irrefl _, fun hne => hne rfl⟩⟩
    | true =>
      obtain ⟨hf, hnew, hst⟩ := flow_ep2In s.rx h.flow ha
      simp only [Overwrites, step, ha, if_true]
      refine ⟨⟨hf, ?_, h.queued, h.handed⟩,
        not_or.mpr ⟨Nat.lt_irrefl _, fun hne => hne hst⟩⟩
      intro p hp
      rcases List.mem_append.mp hp with hp | hp
      · exact h.sizes p hp
      · exact hnew p hp

/-- Every input keeps the invariant, and writes the staging buffer only while it is free. -/
theorem inv_step {s : State} (i : Input) (h : Inv s) :
    Inv (step s i).1 ∧ (Overwrites s i → Done s) := by
  cases i with
  | enqueue call => exact (inv_enqueue h call).imp_right fun hn ho => absurd ho hn
  | process => exact inv_process h
  | irq i => exact (inv_irq h i).imp_right fun hn ho => absurd ho hn

theorem inv_run (is : List Input) : Inv (Mealy.run step start is) :=
  Mealy.inv_run (I := Inv) (fun _ i h => (inv_step i h).1) inv_start is

/-! ## What the host reads -/

/-- The frames whose bytes are all in packets: all of them, or all but the last. -/
def complete (s : State) : List Frame :=
  if s.packets.flatten.length = (s.frames.flatMap Frame.bytes).length then s.frames else s.frames.dropLast

/-- The packets are the complete frames and the beginning of one more. -/
theorem Flow.packets_eq {s : State} (h : Flow (ep2In s.dev) s.frames s.packets s.completed) :
    complete s ⊆ s.frames ∧ s.frames.dropLast.flatMap Frame.bytes <+: s.packets.flatten ∧
      s.packets.flatten <+: s.frames.flatMap Frame.bytes ∧
      ∃ tail, s.packets.flatten = (complete s).flatMap Frame.bytes ++ tail ∧
        (tail = [] ∨ ∃ f ∈ s.frames, tail <+: f.bytes ∧ tail.length < f.bytes.length) := by
  have hsub : complete s ⊆ s.frames := by
    simp only [complete]
    split
    · exact List.Subset.refl _
    · exact List.dropLast_subset _
  refine ⟨hsub, ?_⟩
  cases h with
  | idle notArmed sent done =>
    have hc : complete s = s.frames := if_pos (by rw [sent])
    refine ⟨?_, by rw [sent], [], by rw [hc, sent, List.append_nil], .inl rfl⟩
    rw [sent]
    exact List.IsPrefix.flatMap (List.dropLast_prefix _) _
  | sending fs f arm active frames_eq len_eq len_le staged offset_le sent done =>
    have hpre : f.bytes.take (ep2In s.dev).offset.toNat <+: f.bytes := List.take_prefix _ _
    have hall : s.frames.flatMap Frame.bytes = fs.flatMap Frame.bytes ++ f.bytes := by
      rw [frames_eq]; simp
    rw [sent, hall, frames_eq, List.dropLast_concat]
    refine ⟨List.prefix_append _ _, (List.prefix_append_right_inj _).mpr hpre, ?_⟩
    by_cases hend : (ep2In s.dev).offset.toNat = f.bytes.length
    · have hc : complete s = s.frames := if_pos (by rw [sent, hall, hend, List.take_length])
      exact ⟨[], by rw [hc, hall, hend, List.take_length, List.append_nil], .inl rfl⟩
    · have hlt : (f.bytes.take (ep2In s.dev).offset.toNat).length < f.bytes.length := by
        rw [List.length_take]; omega
      have hc : complete s = fs := by
        rw [complete, if_neg, frames_eq, List.dropLast_concat]
        rw [sent, hall, List.length_append, List.length_append]
        omega
      exact ⟨_, by rw [hc], .inr ⟨f, by simp, hpre, hlt⟩⟩

/-- **Reading back.** A fresh receiver that is fed serialized messages and the
beginning of one more hands on just these messages. -/
theorem reads_messages {calls : List Request} {fs : List Frame} (hfs : ∀ f ∈ fs, Encodes calls f)
    {tail : List UInt8} (htail : tail = [] ∨ ∃ f, Encodes calls f ∧ tail <+: f.bytes ∧ tail.length < f.bytes.length)
    {js : List UsbRx.Input} (hjs : UsbRx.stream js = fs.flatMap Frame.bytes ++ tail)
    (hfit : Mealy.Along UsbRx.step UsbRx.Fits UsbRx.start js) :
    (Mealy.outs UsbRx.step UsbRx.start (js ++ [.process])).map
      (fun e => (e.2.hdr, e.2.payload.cells e.2.payloadLen.toNat)) = fs.map content := by
  have htokens : tokens UsbRx.format (UsbRx.stream js) = fs.map fun f => .frame (content f).1 f.bytes := by
    have hpend : tokens UsbRx.format tail = [] := by
      rcases htail with rfl | ⟨f, hf, hpre, hlt⟩
      · exact tokens_of_pending pending_nil
      · exact tokens_of_pending (pending_of_cut hf.isFrame.1 hpre hlt)
    have hframes : ∀ p ∈ fs.map fun f => ((content f).1, f.bytes), IsFrame UsbRx.format p.1 p.2 := by
      intro p hp
      obtain ⟨f, hf, rfl⟩ := List.mem_map.mp hp
      exact (hfs f hf).isFrame.1
    have := tokens_frames hframes tail
    rw [hjs, ← List.flatMap_map (f := fun f => ((content f).1, f.bytes)) (g := Prod.snd) (l := fs), this, hpend,
      List.append_nil, List.map_map]
    rfl
  have hframes := UsbRx.outs_processed hfit
  -- the payload handed on is what follows the header in the frame
  have hpay : ∀ e ∈ Mealy.outs UsbRx.step UsbRx.start (js ++ [.process]),
      e.2.payload.cells e.2.payloadLen.toNat = e.2.body := by
    intro e he
    obtain ⟨-, -, hl, ha⟩ := UsbRx.run_frame he
    have hm : e.frame ∈ located [] (tokens UsbRx.format (UsbRx.stream js)) := hframes ▸ List.mem_map_of_mem he
    have hb : (e.2.hdr, e.2.raw.drop 24) ∈ bodies UsbRx.format (tokens UsbRx.format (UsbRx.stream js)) := by
      rw [bodies_eq_located []]
      exact List.mem_map_of_mem (f := fun e => (e.2.1, e.2.2.drop UsbRx.format.window)) hm
    rw [htokens] at hb
    simp only [bodies, List.filterMap_map, List.mem_filterMap, Function.comp] at hb
    obtain ⟨f, hf, hfe⟩ := hb
    have hh : (content f).1 = e.2.hdr := congrArg Prod.fst (Option.some.inj hfe)
    exact UsbRx.payload_eq_body hl ((UsbRx.accept_payloadLen ha).mp (hh ▸ (hfs f hf).isFrame.2))
      (UsbRx.accept_totalLen ha).2
  calc (Mealy.outs UsbRx.step UsbRx.start (js ++ [.process])).map
        (fun e => (e.2.hdr, e.2.payload.cells e.2.payloadLen.toNat))
      = (Mealy.outs UsbRx.step UsbRx.start (js ++ [.process])).map fun e => (e.2.hdr, e.2.body) :=
        List.map_congr_left fun e he => by rw [hpay e he]
    _ = bodies UsbRx.format (tokens UsbRx.format (UsbRx.stream js)) := by
        rw [bodies_eq_located [], ← hframes, List.map_map]; rfl
    _ = fs.map content := by
        rw [htokens, bodies, List.filterMap_map]
        exact congrFun List.filterMap_eq_map' _

/-- What is true of the packets armed since the last reset of the bus. -/
structure Period (s : State) : Prop where
  /-- Each packet has a byte at least and 64 at most. -/
  sizes : ∀ p ∈ s.packets, 1 ≤ p.length ∧ p.length ≤ 64
  /-- Together they are a beginning of the frames handed over. -/
  isPrefix : s.packets.flatten <+: s.frames.flatMap Frame.bytes
  /-- Of these only the last one can be cut. -/
  whole : s.frames.dropLast.flatMap Frame.bytes <+: s.packets.flatten
  /-- It is cut only while the next packet is waiting for the host. -/
  cut : armed s.dev.regs.uep2TxCtrl = false → s.packets.flatten = s.frames.flatMap Frame.bytes
  /-- The staging buffer is written only once all of it has been acknowledged. -/
  staged : ∀ i, Overwrites s i → Done s
  /-- The frames are the serialized messages of requests. -/
  origin : ∀ f ∈ s.frames, ∃ call ∈ s.calls, ∃ seq, content f = call.message seq ∧
    f.bytes = (call.message seq).1.bytes (call.message seq).1.headerCrc16 ++ (call.message seq).2
  /-- A fresh receiver, fed the packets in any pieces its ring takes, hands on
  the messages of the complete frames. -/
  readBack : ∀ js, UsbRx.stream js = s.packets.flatten → Mealy.Along UsbRx.step UsbRx.Fits UsbRx.start js →
    (Mealy.outs UsbRx.step UsbRx.start (js ++ [.process])).map
      (fun e => (e.2.hdr, e.2.payload.cells e.2.payloadLen.toNat)) = (complete s).map content

/-- **EP2 IN.** Over every run of requests, scheduling and interrupts, what
leaves on EP2 after a reset of the bus parses back to what was queued. -/
theorem packets_read_back (is : List Input) : Period (Mealy.run step start is) := by
  have h := inv_run is
  generalize Mealy.run step start is = s at h
  obtain ⟨hsub, hwhole, hpre, tail, htail, hcut⟩ := h.flow.packets_eq
  refine ⟨h.sizes, hpre, hwhole, ?_, fun i => (inv_step i h).2, fun f hf => (h.handed f hf).content, ?_⟩
  · intro ha
    cases h.flow with
    | idle notArmed sent done => exact sent
    | sending fs f arm => exact absurd (arm.symm.trans ha) (by decide)
  · intro js hjs hfit
    refine reads_messages (fun f hf => h.handed f (hsub hf)) ?_ (hjs.trans htail) hfit
    exact hcut.imp_right fun ⟨f, hf, h⟩ => ⟨f, ‹Inv s›.handed f hf, h⟩

end UsbMux.InPath
