/-
Nothing that is queued stays behind: while the device is configured, every
order of `USBTX_Process`, IN completions and other interrupts in which the
first two come often enough takes all queued frames to the host, responses
first, then events, then data.

The measure is the packets still to be acknowledged: no step adds to them,
`USBTX_Process` arms EP2 while a frame is queued, and a completion on an armed
EP2 takes one away (`ranking`).
-/
import UsbMux.InPath
import UsbMux.Lib.Progress

namespace UsbMux

namespace UsbTx

/-! ## The queues in the order they are served -/

/-- The queued frames in the order `USBTX_SendNextFrame` takes them. -/
def backlog (c : Ctx) : List Frame := c.rspQ.toList ++ c.evtQ.toList ++ c.dataQ.toList

theorem backlog_congr {c c' : Ctx} (h : ∀ q, (c'.queue q).toList = (c.queue q).toList) : backlog c' = backlog c := by
  have h1 : c'.rspQ.toList = c.rspQ.toList := h .rsp
  have h2 : c'.evtQ.toList = c.evtQ.toList := h .evt
  have h3 : c'.dataQ.toList = c.dataQ.toList := h .data
  rw [backlog, h1, h2, h3, backlog]

theorem mem_backlog {c : Ctx} {f : Frame} : f ∈ backlog c ↔ ∃ q, f ∈ (c.queue q).toList := by
  simp only [backlog, List.mem_append]
  constructor
  · rintro ((h | h) | h)
    · exact ⟨.rsp, h⟩
    · exact ⟨.evt, h⟩
    · exact ⟨.data, h⟩
  · rintro ⟨q, h⟩
    cases q with
    | rsp => exact .inl (.inl h)
    | evt => exact .inl (.inr h)
    | data => exact .inr h

theorem length_backlog_le (c : Ctx) : (backlog c).length ≤ 12 := by
  have h1 := c.rspQ.length_toList_le
  have h2 := c.evtQ.length_toList_le
  have h3 := c.dataQ.length_toList_le
  simp only [backlog, List.length_append]
  omega

/-- The first frame of the backlog is the oldest of the first queue that holds one. -/
theorem backlog_cons {c : Ctx} {f : Frame} {fs : List Frame} (h : backlog c = f :: fs) :
    ∃ q, (c.queue q).peek = some f ∧ (∀ q', q'.rank < q.rank → (c.queue q').peek = none) ∧
      backlog (popQueue c q) = fs := by
  have pop (q : Class) {rest : List Frame} (hq : (c.queue q).toList = f :: rest) (q' : Class) :
      ((popQueue c q).queue q').toList = if q' = q then rest else (c.queue q').toList := by
    rw [popQueue_queue, hq, List.tail_cons]
  have peek {q : Class} {rest : List Frame} (hq : (c.queue q).toList = f :: rest) : (c.queue q).peek = some f := by
    rw [Queue.peek_eq, hq, List.head?_cons]
  have none {q : Class} (hq : (c.queue q).toList = []) : (c.queue q).peek = none := by
    rw [Queue.peek_eq, hq, List.head?_nil]
  have split (q : Class) : backlog (popQueue c q) = ((popQueue c q).queue .rsp).toList ++
      ((popQueue c q).queue .evt).toList ++ ((popQueue c q).queue .data).toList := rfl
  have hb : (c.queue .rsp).toList ++ (c.queue .evt).toList ++ (c.queue .data).toList = f :: fs := h
  cases hr : (c.queue .rsp).toList with
  | cons g rest =>
    rw [hr, List.cons_append, List.cons_append, List.cons.injEq] at hb
    obtain ⟨rfl, hb⟩ := hb
    refine ⟨.rsp, peek hr, fun q' hlt => absurd hlt (Nat.not_lt_zero _), ?_⟩
    rw [split, pop .rsp hr, pop .rsp hr, pop .rsp hr]
    exact hb
  | nil =>
    rw [hr, List.nil_append] at hb
    cases he : (c.queue .evt).toList with
    | cons g rest =>
      rw [he, List.cons_append, List.cons.injEq] at hb
      obtain ⟨rfl, hb⟩ := hb
      refine ⟨.evt, peek he, ?_, ?_⟩
      · intro q' hlt
        cases q' with
        | rsp => exact none hr
        | evt | data => simp [Class.rank] at hlt
      · rw [split, pop .evt he, pop .evt he, pop .evt he, if_neg (by decide), hr]
        exact hb
    | nil =>
      rw [he, List.nil_append] at hb
      refine ⟨.data, peek hb, ?_, ?_⟩
      · intro q' hlt
        cases q' with
        | rsp => exact none hr
        | evt => exact none he
        | data => simp [Class.rank] at hlt
      · rw [split, pop .data hb, pop .data hb, pop .data hb, if_neg (by decide), if_neg (by decide), hr, he]
        rfl

variable {δ : Type} (dev : UsbDevice δ)

/-- With a free device layer the first frame of the backlog is offered to it. -/
theorem sendNextFrame_free {c : Ctx} {d : δ} (hcan : dev.canSendFrame d = true) {f : Frame} {fs : List Frame}
    (h : backlog c = f :: fs) :
    ∃ q, sendNextFrame dev c d = sendFrom dev c d q f ∧ backlog (popQueue c q) = fs := by
  obtain ⟨q, hf, hbefore, hpop⟩ := backlog_cons h
  refine ⟨q, ?_, hpop⟩
  rw [sendNextFrame, if_neg (by simp [hcan])]
  cases q with
  | rsp =>
    have hf : c.rspQ.peek = some f := hf
    rw [hf]
  | evt =>
    have hr : c.rspQ.peek = none := hbefore .rsp (by decide)
    have hf : c.evtQ.peek = some f := hf
    rw [hr, hf]
  | data =>
    have hr : c.rspQ.peek = none := hbefore .rsp (by decide)
    have he : c.evtQ.peek = none := hbefore .evt (by decide)
    have hf : c.dataQ.peek = some f := hf
    rw [hr, he, hf]

/-- With nothing queued, or a device layer that is not free, nothing is sent. -/
theorem sendNextFrame_none {c : Ctx} {d : δ} (h : dev.canSendFrame d = false ∨ backlog c = []) :
    sendNextFrame dev c d = (c, d, []) := by
  rcases sendNextFrame_cases dev c d with he | ⟨q, f, hcan, hf, -, -⟩
  · exact he
  · rcases h with h | h
    · rw [h] at hcan
      cases hcan
    · have hmem : f ∈ backlog c := mem_backlog.mpr ⟨q, List.mem_of_head? hf⟩
      rw [h] at hmem
      cases hmem

end UsbTx

namespace InPath

open UsbDev UsbTx

/-! ## One run of the scheduler -/

theorem sendHintIfNeeded_configured (c : UsbTx.Ctx) (d : UsbDev.Ctx) :
    (sendHintIfNeeded device c d).2.1.configured = d.configured := by
  have hs (hint : VpIrqHint) : (device.sendHint d hint).1.configured = d.configured := by
    simp only [device, sendHint]
    split <;> rfl
  simp only [sendHintIfNeeded]
  split
  · rfl
  · have hhint := hs ⟨VP.irqHintVersion, 0, c.pendingBitmap, c.droppedBitmap, 0⟩
    split <;> next he => rw [he] at hhint; exact hhint

theorem sendHintIfNeeded_handed (c : UsbTx.Ctx) (d : UsbDev.Ctx) :
    handed (sendHintIfNeeded device c d).2.2 = [] := by
  rcases sendHintIfNeeded_events device c d with he | ⟨hint, he⟩
  · rw [he]; rfl
  · rw [he]; rfl

theorem handed_append (tr us : List Event) : handed (tr ++ us) = handed tr ++ handed us := List.filterMap_append

/-- `USBTX_Process` of a configured device hands over the first frame of the
backlog while EP2 is free, and stages it. -/
theorem process_free {c : UsbTx.Ctx} {d : UsbDev.Ctx} (hconf : isConfigured d = true) (hact : d.ep2TxActive = 0)
    {f : Frame} {fs : List Frame} (hb : backlog c = f :: fs) (h0 : 0 < f.len.toNat) (hl : f.len.toNat ≤ 512) :
    let r := process device c d
    backlog r.1 = fs ∧ handed r.2.2 = [f] ∧ isConfigured r.2.1 = true ∧
      r.2.1.ep2TxLen = f.len ∧ r.2.1.ep2TxOffset.toNat = min 64 f.len.toNat ∧ armed r.2.1.regs.uep2TxCtrl = true := by
  have hc := sendHintIfNeeded_configured c d
  have he := sendHintIfNeeded_ep2In c d
  have hh := sendHintIfNeeded_handed c d
  have hb' := backlog_congr fun q => congrArg Queue.toList (sendHintIfNeeded_queue device c d q)
  have hdev : device.isConfigured d = true := hconf
  simp only [process, hdev, Bool.true_eq_false, if_false]
  generalize sendHintIfNeeded device c d = r at hc he hh hb'
  obtain ⟨c₁, d₁, tr⟩ := r
  simp only at hc he hh hb' ⊢
  have hact₁ : d₁.ep2TxActive = 0 := (congrArg Ep2In.active he).trans hact
  have hconf₁ : isConfigured d₁ = true := by rw [isConfigured, hc]; exact hconf
  have hcan : device.canSendFrame d₁ = true := by simp [device, canSendFrame, hconf₁, hact₁]
  obtain ⟨q, hs, hpop⟩ := sendNextFrame_free device hcan (hb'.trans hb)
  have hsend : device.sendFrame d₁ (some f.data.toList) f.len =
      (loadEp2Chunk (stageFrame d₁ (some f.data.toList) f.len), true) := by
    have hlen0 : f.len ≠ 0 := fun h => by simp [h] at h0
    have hmax : ¬ f.len > UInt16.ofNat appUsbMaxFrameLen := UInt16.not_lt.mpr (UInt16.le_iff_toNat_le.mpr hl)
    have hcan' : canSendFrame d₁ = true := hcan
    simp only [device, sendFrame, Option.isNone_some, Bool.false_eq_true, hlen0, hmax, hcan', Bool.true_eq_false,
      or_self, if_false]
    rfl
  have hfrom : sendFrom device c₁ d₁ q f =
      (popQueue c₁ q, loadEp2Chunk (stageFrame d₁ (some f.data.toList) f.len), [.sent q f]) := by
    rw [sendFrom, hsend]
  obtain ⟨hoff, -, harm⟩ := loadEp2Chunk_spec (d := stageFrame d₁ (some f.data.toList) f.len)
    (UInt16.lt_iff_toNat_lt.mpr h0) hl
  rw [hs, hfrom, handed_append, hh, List.nil_append]
  refine ⟨hpop, rfl, hconf₁, rfl, ?_, harm⟩
  simpa [stageFrame] using hoff

/-- With no configuration, EP2 busy or nothing queued it hands over nothing. -/
theorem process_rest {c : UsbTx.Ctx} {d : UsbDev.Ctx}
    (h : isConfigured d = false ∨ d.ep2TxActive ≠ 0 ∨ backlog c = []) :
    let r := process device c d
    backlog r.1 = backlog c ∧ handed r.2.2 = [] ∧ r.2.1.configured = d.configured ∧ ep2In r.2.1 = ep2In d := by
  have hc := sendHintIfNeeded_configured c d
  have he := sendHintIfNeeded_ep2In c d
  have hh := sendHintIfNeeded_handed c d
  have hb := backlog_congr fun q => congrArg Queue.toList (sendHintIfNeeded_queue device c d q)
  simp only [process]
  split
  · exact ⟨rfl, rfl, rfl, rfl⟩
  next hconf =>
  have h : d.ep2TxActive ≠ 0 ∨ backlog c = [] := h.resolve_left hconf
  generalize sendHintIfNeeded device c d = r at hc he hh hb
  obtain ⟨c₁, d₁, tr⟩ := r
  simp only at hc he hh hb ⊢
  have hnone : device.canSendFrame d₁ = false ∨ backlog c₁ = [] := by
    refine h.imp (fun hact => ?_) fun hb' => hb.trans hb'
    have hact₁ : d₁.ep2TxActive ≠ 0 := fun h0 => hact ((congrArg Ep2In.active he).symm.trans h0)
    simp [device, canSendFrame, hact₁]
  rw [sendNextFrame_none device hnone, handed_append, hh]
  exact ⟨hb, rfl, hc, he⟩

/-! ## Interrupts -/

theorem configured_loadEp0Tx (d : UsbDev.Ctx) (data : Ptr UInt8) (len : UInt16) :
    (loadEp0Tx d data len).configured = d.configured := by
  simp only [loadEp0Tx]
  split <;> rfl

theorem configured_continueEp0Tx (d : UsbDev.Ctx) : (continueEp0Tx d).configured = d.configured := by
  simp only [continueEp0Tx]
  split
  · exact configured_loadEp0Tx ..
  · exact configured_loadEp0Tx ..

theorem configured_handleEp0In (d : UsbDev.Ctx) : (handleEp0In d).configured = d.configured := by
  simp only [handleEp0In]
  split <;> split
  · exact configured_continueEp0Tx _
  · rfl
  · exact configured_continueEp0Tx _
  · rfl

theorem interrupt_configured (d : UsbDev.Ctx) (rx : UsbRx.Ctx) {i : Irq} (hr : i ≠ .busReset)
    (hs : ∀ packet, i ≠ .setup packet) : (interrupt d rx i).1.configured = d.configured := by
  cases i with
  | busReset => exact absurd rfl hr
  | setup packet => exact absurd rfl (hs packet)
  | ep0In =>
    rw [interrupt_ep0In]
    exact configured_handleEp0In _
  | ep0Out data => rw [interrupt_ep0Out]; rfl
  | ep1In => rw [interrupt_ep1In]; rfl
  | ep2In =>
    rw [interrupt_ep2In]
    change (handleEp2In (raise d .ep2In)).configured = d.configured
    simp only [handleEp2In]
    split <;> rfl
  | ep3Out data pid => rw [interrupt_ep3Out]; rfl

theorem interrupt_ep2In_active {d : UsbDev.Ctx} (rx : UsbRx.Ctx) (h : ¬ d.ep2TxOffset < d.ep2TxLen) :
    (interrupt d rx .ep2In).1.ep2TxActive = 0 := by
  rw [interrupt_ep2In]
  change (handleEp2In (raise d .ep2In)).ep2TxActive = 0
  have h' : ¬ (raise d .ep2In).ep2TxOffset < (raise d .ep2In).ep2TxLen := h
  rw [handleEp2In, if_neg h']

/-- EP2 is free whenever it is not armed. -/
def Free (e : Ep2In) : Prop := armed e.txCtrl = false → e.active = 0

theorem free_of_armed {e : Ep2In} (h : armed e.txCtrl = true) : Free e := fun hn => absurd (h.symm.trans hn) (by decide)

/-- The packets of the staged frame that the host has yet to acknowledge. -/
def packetsLeft (d : UsbDev.Ctx) : Nat :=
  if armed d.regs.uep2TxCtrl then 1 + (d.ep2TxLen.toNat - d.ep2TxOffset.toNat + 63) / 64 else 0

theorem packetsLeft_congr {d d' : UsbDev.Ctx} (h : ep2In d' = ep2In d) : packetsLeft d' = packetsLeft d := by
  have h1 : d'.regs.uep2TxCtrl = d.regs.uep2TxCtrl := congrArg Ep2In.txCtrl h
  have h2 : d'.ep2TxLen = d.ep2TxLen := congrArg Ep2In.len h
  have h3 : d'.ep2TxOffset = d.ep2TxOffset := congrArg Ep2In.offset h
  rw [packetsLeft, packetsLeft, h1, h2, h3]

theorem packetsLeft_pos {d : UsbDev.Ctx} : 0 < packetsLeft d ↔ armed d.regs.uep2TxCtrl = true := by
  rw [packetsLeft]
  split
  · next h => exact iff_of_true (Nat.add_pos_left Nat.one_pos _) h
  · next h => exact iff_of_false (Nat.lt_irrefl 0) h

/-- What holds of scheduler and driver between steps: the frames in the queues
and the staged one fit the staging buffer. -/
structure Sound (c : UsbTx.Ctx) (d : UsbDev.Ctx) : Prop where
  queued : ∀ f ∈ backlog c, 0 < f.len.toNat ∧ f.len.toNat ≤ 512
  staged : armed d.regs.uep2TxCtrl = true → d.ep2TxLen.toNat ≤ 512
  free : Free (ep2In d)

theorem sound_init : Sound UsbTx.init UsbDev.init where
  queued f hf := by
    obtain ⟨q, hq⟩ := mem_backlog.mp hf
    cases q <;> simp [UsbTx.init, Ctx.queue] at hq
  staged ha := absurd ha (by decide)
  free _ := rfl

theorem Sound.same {c c' : UsbTx.Ctx} {d d' : UsbDev.Ctx} (h : Sound c d) (hb : backlog c' = backlog c)
    (he : ep2In d' = ep2In d) : Sound c' d' where
  queued := hb ▸ h.queued
  staged ha := by
    have h1 : d'.regs.uep2TxCtrl = d.regs.uep2TxCtrl := congrArg Ep2In.txCtrl he
    have h2 : d'.ep2TxLen = d.ep2TxLen := congrArg Ep2In.len he
    rw [h2]
    exact h.staged (h1 ▸ ha)
  free := he ▸ h.free

theorem Sound.packetsLeft_le {c : UsbTx.Ctx} {d : UsbDev.Ctx} (h : Sound c d) : packetsLeft d ≤ 9 := by
  rw [packetsLeft]
  split
  · next ha =>
    have := h.staged ha
    omega
  · omega

/-- A call of the queues appends a frame that fits, or is refused. -/
theorem Sound.enqueue {c : UsbTx.Ctx} {d : UsbDev.Ctx} (h : Sound c d) (call : Enqueue) :
    Sound (enqueue c call).1 d where
  queued f hf := by
    obtain ⟨q, hq⟩ := mem_backlog.mp hf
    rcases enqueue_cases c call with ⟨⟨bit, hr⟩, -⟩ | ⟨g, hg, hl, -, hw, -, hself, hother⟩
    · rw [hr, queue_dropFrame] at hq
      exact h.queued f (mem_backlog.mpr ⟨q, hq⟩)
    · by_cases he : q = call.queue
      · rw [he, hself] at hq
        rcases List.mem_append.mp hq with hq | hq
        · exact h.queued f (mem_backlog.mpr ⟨_, hq⟩)
        · have htot : (VP.encodeHeader (call.hdr c.seq)).totalLen = 24 + call.payloadLen := by
            rw [VP.encodeHeader_totalLen, hdr_payloadLen]
          have hlen : f.len = 24 + call.payloadLen := by
            rw [List.mem_singleton.mp hq, hw]
            exact htot
          rw [hlen, UInt16.toNat_add]
          simp
          omega
      · rw [hother q he] at hq
        exact h.queued f (mem_backlog.mpr ⟨q, hq⟩)
  staged := h.staged
  free := h.free

theorem Sound.enqueueAll {c : UsbTx.Ctx} {d : UsbDev.Ctx} (h : Sound c d) (cs : List Enqueue) :
    Sound (enqueueAll c cs).1 d := by
  induction cs generalizing c with
  | nil => exact h
  | cons call cs ih => exact ih (h.enqueue call)

/-- What `USBTX_Process` does: nothing to EP2 and the queues, or it stages the
first frame of the backlog. -/
theorem Sound.process {c : UsbTx.Ctx} {d : UsbDev.Ctx} (h : Sound c d) :
    let r := process device c d
    Sound r.1 r.2.1 ∧ isConfigured r.2.1 = isConfigured d ∧
      ((backlog r.1 = backlog c ∧ handed r.2.2 = [] ∧ ep2In r.2.1 = ep2In d ∧
          (isConfigured d = false ∨ d.ep2TxActive ≠ 0 ∨ backlog c = [])) ∨
        ∃ f, backlog c = f :: backlog r.1 ∧ handed r.2.2 = [f] ∧ 0 < packetsLeft r.2.1 ∧ packetsLeft r.2.1 ≤ 8) := by
  intro r
  by_cases hrest : isConfigured d = false ∨ d.ep2TxActive ≠ 0 ∨ backlog c = []
  · obtain ⟨hb, hh, hc, he⟩ := process_rest hrest
    exact ⟨h.same hb he, by rw [isConfigured, hc, isConfigured], .inl ⟨hb, hh, he, hrest⟩⟩
  · rw [not_or, not_or, not_not, Bool.not_eq_false] at hrest
    obtain ⟨hconf, hact, hne⟩ := hrest
    obtain ⟨f, fs, hb⟩ := List.exists_cons_of_ne_nil hne
    obtain ⟨h0, hl⟩ := h.queued f (hb ▸ List.mem_cons_self)
    obtain ⟨h1, h2, h3, h4, h5, h6⟩ := process_free hconf hact hb h0 hl
    have h4 : r.2.1.ep2TxLen = f.len := h4
    have h5 : r.2.1.ep2TxOffset.toNat = min 64 f.len.toNat := h5
    have hleft : packetsLeft r.2.1 ≤ 8 := by
      rw [packetsLeft, if_pos h6, h4, h5]
      omega
    refine ⟨⟨fun g hg => ?_, fun _ => by rwa [h4], free_of_armed h6⟩, h3.trans hconf.symm,
      .inr ⟨f, hb.trans (congrArg _ h1.symm), h2, packetsLeft_pos.mpr h6, hleft⟩⟩
    rw [h1] at hg
    exact h.queued g (hb ▸ List.mem_cons_of_mem _ hg)

/-- An interrupt, with EP2 acknowledged only where it is armed. -/
theorem Sound.interrupt {c : UsbTx.Ctx} {d : UsbDev.Ctx} (h : Sound c d) (rx : UsbRx.Ctx) {i : Irq}
    (ha : i = .ep2In → armed d.regs.uep2TxCtrl = true) : Sound c (interrupt d rx i).1 := by
  by_cases hr : i = .busReset
  · subst hr
    have he := (ep_busReset d rx).2
    have hctrl : (UsbDev.interrupt d rx .busReset).1.regs.uep2TxCtrl = uepTAutoTog ||| uepTResNak :=
      congrArg Ep2In.txCtrl he
    refine ⟨h.queued, fun ha => ?_, he ▸ fun _ => rfl⟩
    rw [hctrl] at ha
    exact absurd ha (by decide)
  by_cases h2 : i = .ep2In
  · subst h2
    have ha := ha rfl
    rcases ep_ep2In d rx with ⟨hlt, d', h1, h2, -, -, he⟩ | ⟨hge, hna, -⟩
    · have hle : d'.ep2TxLen.toNat ≤ 512 := h2 ▸ h.staged ha
      have harm := (loadEp2Chunk_spec (by rwa [h1, h2]) hle).2.2
      have hfree : Free (ep2In (loadEp2Chunk d')) := free_of_armed harm
      have hlen : (UsbDev.interrupt d rx .ep2In).1.ep2TxLen = d'.ep2TxLen := congrArg Ep2In.len he
      exact ⟨h.queued, fun _ => by rwa [hlen], he ▸ hfree⟩
    · exact ⟨h.queued, fun ha' => absurd (ha'.symm.trans hna) (by decide), fun _ => interrupt_ep2In_active rx hge⟩
  · refine h.same rfl ?_
    by_cases h1 : i = .ep1In
    · subst h1
      exact (ep_ep1In d rx).2
    · exact (sameIn_interrupt d rx hr h1 h2).2

theorem Sound.ep2In {c : UsbTx.Ctx} {d : UsbDev.Ctx} (h : Sound c d) (rx : UsbRx.Ctx)
    (ha : armed d.regs.uep2TxCtrl = true) : packetsLeft (UsbDev.interrupt d rx .ep2In).1 < packetsLeft d := by
  have hle := h.staged ha
  rcases ep_ep2In d rx with ⟨hlt, d', h1, h2, -, -, he⟩ | ⟨-, hna, -⟩
  · obtain ⟨hoff, -, harm⟩ := loadEp2Chunk_spec (d := d') (by rwa [h1, h2]) (by rwa [h2])
    rw [packetsLeft_congr he, packetsLeft, packetsLeft, if_pos harm, if_pos ha]
    rw [UInt16.lt_iff_toNat_lt] at hlt
    have hlen : (loadEp2Chunk d').ep2TxLen = d.ep2TxLen := h2
    rw [h1, h2] at hoff
    rw [hlen]
    omega
  · rw [packetsLeft, packetsLeft, if_neg (by rw [hna]; decide), if_pos ha]
    omega

/-- Any other interrupt, a reset of the bus apart, leaves EP2 alone. -/
theorem interrupt_ep2 (d : UsbDev.Ctx) (rx : UsbRx.Ctx) {i : Irq} (hr : i ≠ .busReset) (h2 : i ≠ .ep2In) :
    UsbDev.ep2In (UsbDev.interrupt d rx i).1 = UsbDev.ep2In d := by
  by_cases h1 : i = .ep1In
  · subst h1
    exact (ep_ep1In d rx).2
  · exact (sameIn_interrupt d rx hr h1 h2).2

/-! ## The work that is left -/

/-- A queued frame takes one `USBTX_Process` and eight packets at most. -/
def work (s : State) : Nat := 9 * (backlog s.tx).length + packetsLeft s.dev

/-- The device is configured. -/
structure Ready (s : State) : Prop where
  sound : Sound s.tx s.dev
  configured : isConfigured s.dev = true

/-- Nothing new is queued, and the host neither resets the bus nor sends a SETUP. -/
def Steady : Input → Prop
  | .enqueue _ => False
  | .process => True
  | .irq i => i ≠ .busReset ∧ ∀ packet, i ≠ .setup packet

/-- All frames handed over since the reset, and those still queued. -/
def due (s : State) : List Frame := s.frames ++ backlog s.tx

/-- An interrupt of the machine, with EP2 acknowledged only where it is armed. -/
theorem step_irq (s : State) (i : Irq) :
    (step s (.irq i)).1.tx = s.tx ∧
      ((i = .ep2In ∧ armed s.dev.regs.uep2TxCtrl = false ∧ (step s (.irq i)).1 = s) ∨
        (i = .ep2In → armed s.dev.regs.uep2TxCtrl = true) ∧
          (step s (.irq i)).1.dev = (interrupt s.dev s.rx i).1 ∧
          (i ≠ .busReset → (step s (.irq i)).1.frames = s.frames)) := by
  cases i with
  | ep2In =>
    cases ha : armed s.dev.regs.uep2TxCtrl with
    | false =>
      have hs : (step s (.irq .ep2In)).1 = s := by simp only [step, ha, Bool.false_eq_true, if_false]
      exact ⟨by rw [hs], .inl ⟨rfl, rfl, hs⟩⟩
    | true =>
      have hs : (step s (.irq .ep2In)).1.tx = s.tx ∧ (step s (.irq .ep2In)).1.dev = (interrupt s.dev s.rx .ep2In).1 ∧
          (step s (.irq .ep2In)).1.frames = s.frames := by
        simp only [step, ha, if_true, and_self]
      exact ⟨hs.1, .inr ⟨fun _ => rfl, hs.2.1, fun _ => hs.2.2⟩⟩
  | busReset => exact ⟨rfl, .inr ⟨by simp, rfl, fun h => absurd rfl h⟩⟩
  | setup packet | ep0In | ep0Out data | ep1In | ep3Out data pid =>
    exact ⟨rfl, .inr ⟨by simp, rfl, fun _ => rfl⟩⟩

theorem sound_step {s : State} (h : Sound s.tx s.dev) (i : Input) : Sound (step s i).1.tx (step s i).1.dev := by
  cases i with
  | enqueue call => exact h.enqueue call.1
  | process => exact h.process.1
  | irq i =>
    obtain ⟨htx, ⟨-, -, hs⟩ | ⟨ha, hdev, -⟩⟩ := step_irq s i
    · rw [hs]
      exact h
    · rw [htx, hdev]
      exact h.interrupt s.rx ha

theorem sound_run (is : List Input) : Sound (Mealy.run step start is).tx (Mealy.run step start is).dev :=
  Mealy.inv_run (I := fun s : State => Sound s.tx s.dev) (fun _ i h => sound_step h i) sound_init is

/-- What a step of a ready device comes to. -/
structure Advance (s s' : State) : Prop where
  ready : Ready s'
  due : due s' = due s
  work_le : work s' ≤ work s

theorem advance_process {s : State} (h : Ready s) :
    Advance s (step s .process).1 ∧ (0 < work s → armed (step s .process).1.dev.regs.uep2TxCtrl = true) := by
  obtain ⟨hsound, hconf, hcase⟩ := h.sound.process
  have hready : Ready (step s .process).1 := ⟨hsound, hconf.trans h.configured⟩
  have hframes : (step s .process).1.frames = s.frames ++ handed (process device s.tx s.dev).2.2 := rfl
  rcases hcase with ⟨hb, hh, he, hrest⟩ | ⟨f, hb, hh, hpos, hle⟩
  · rw [hh, List.append_nil] at hframes
    have hb : backlog (step s .process).1.tx = backlog s.tx := hb
    have hleft : packetsLeft (step s .process).1.dev = packetsLeft s.dev := packetsLeft_congr he
    refine ⟨⟨hready, by rw [due, hframes, hb, due], by rw [work, work, hb, hleft]⟩, fun hw => ?_⟩
    rw [← packetsLeft_pos, hleft]
    -- EP2 is busy, and then it is armed, or nothing is queued, and then the work is in its packets
    rcases hrest with hconf | hact | hempty
    · exact absurd (hconf.symm.trans h.configured) (by decide)
    · rw [packetsLeft_pos]
      by_contra hna
      exact hact (h.sound.free (Bool.eq_false_iff.mpr hna))
    · rwa [work, hempty, List.length_nil, Nat.mul_zero, Nat.zero_add] at hw
  · have hb : backlog s.tx = f :: backlog (step s .process).1.tx := hb
    have hle : packetsLeft (step s .process).1.dev ≤ 8 := hle
    rw [hh] at hframes
    refine ⟨⟨hready, ?_, ?_⟩, fun _ => packetsLeft_pos.mp hpos⟩
    · rw [due, hframes, due, hb, List.append_assoc]
      rfl
    · rw [work, work, hb, List.length_cons]
      omega

/-- An interrupt; a completion on an armed EP2 takes a packet away. -/
theorem advance_irq {s : State} (h : Ready s) {i : Irq} (hr : i ≠ .busReset) (hs : ∀ packet, i ≠ .setup packet) :
    Advance s (step s (.irq i)).1 ∧
      (armed s.dev.regs.uep2TxCtrl = true →
        (i ≠ .ep2In ∧ armed (step s (.irq i)).1.dev.regs.uep2TxCtrl = true) ∨ work (step s (.irq i)).1 < work s) := by
  obtain ⟨htx, ⟨-, hna, he⟩ | ⟨ha, hdev, hframes⟩⟩ := step_irq s i
  · rw [he]
    exact ⟨⟨h, rfl, Nat.le_refl _⟩, fun ha => absurd (ha.symm.trans hna) (by decide)⟩
  have hready : Ready (step s (.irq i)).1 := by
    refine ⟨sound_step h.sound (.irq i), ?_⟩
    rw [hdev, isConfigured, interrupt_configured s.dev s.rx hr hs]
    exact h.configured
  have hdue : due (step s (.irq i)).1 = due s := by rw [due, hframes hr, htx, due]
  by_cases h2 : i = .ep2In
  · subst h2
    have hlt := h.sound.ep2In s.rx (ha rfl)
    have hw : work (step s (.irq .ep2In)).1 < work s := by
      rw [work, work, htx, hdev]
      omega
    exact ⟨⟨hready, hdue, hw.le⟩, fun _ => .inr hw⟩
  · have he := interrupt_ep2 s.dev s.rx hr h2
    have hleft : packetsLeft (step s (.irq i)).1.dev = packetsLeft s.dev := by rw [hdev, packetsLeft_congr he]
    refine ⟨⟨hready, hdue, by rw [work, work, htx, hleft]⟩, fun ha => .inl ⟨h2, ?_⟩⟩
    rw [← packetsLeft_pos, hleft, packetsLeft_pos]
    exact ha

/-! ## Every order of steps -/

theorem advance_step {s : State} (h : Ready s) {i : Input} (hi : Steady i) : Advance s (step s i).1 := by
  cases i with
  | enqueue call => exact hi.elim
  | process => exact (advance_process h).1
  | irq i => exact (advance_irq h hi.1 hi.2).1

/-- **One round** of `USBTX_Process` and a completion lowers the work, whatever comes between. -/
theorem ranking : Mealy.Ranking step Ready (fun s => armed s.dev.regs.uep2TxCtrl = true) Steady work .process
    (.irq .ep2In) where
  keeps s i hi h := (advance_step h hi).ready
  le s i hi h := (advance_step h hi).work_le
  waits s h hw := .inl ((advance_process h).2 hw)
  stays s i hi h ha := by
    cases i with
    | enqueue call => exact hi.elim
    | process => exact .inl ((advance_process h).2 (Nat.add_pos_right _ (packetsLeft_pos.mpr ha)))
    | irq i => exact ((advance_irq h hi.1 hi.2).2 ha).imp_left And.right
  helps s h ha := ((advance_irq h (by simp) (by simp)).2 ha).resolve_left fun h => h.1 rfl

/-- Twelve frames are queued at most, and nine packets are left. -/
theorem work_le {s : State} (h : Ready s) : work s ≤ 117 := by
  have hb := length_backlog_le s.tx
  have hl := h.sound.packetsLeft_le
  rw [work]
  omega

/-- **Nothing stays behind.** From every state of every run in which the
device is configured, over every further order of `USBTX_Process` and
interrupts without a reset or a SETUP that has 117 rounds of `USBTX_Process`
and an EP2 completion among its steps: all frames that were queued have been
handed over behind those before them, responses first, then events, then data;
the queues are empty, EP2 is idle and the host has acknowledged every packet,
so all frames are complete in what it read. -/
theorem backlog_delivered (is₀ is : List Input) (hconf : isConfigured (Mealy.run step start is₀).dev = true)
    (his : ∀ i ∈ is, Steady i) (hr : (List.replicate 117 [Input.process, .irq .ep2In]).flatten.Sublist is) :
    let s := Mealy.run step start is₀
    let s' := Mealy.run step s is
    s'.frames = s.frames ++ (s.tx.rspQ.toList ++ s.tx.evtQ.toList ++ s.tx.dataQ.toList) ∧
      (∀ q, (s'.tx.queue q).toList = []) ∧ armed s'.dev.regs.uep2TxCtrl = false ∧ Done s' ∧
      complete s' = s'.frames := by
  intro s s'
  have hready : Ready s := ⟨sound_run is₀, hconf⟩
  have hdue : Ready s' ∧ due s' = due s := Mealy.inv_run_along (P := fun _ i => Steady i)
    (I := fun s' => Ready s' ∧ due s' = due s)
    (fun _ _ hi h => ⟨(advance_step h.1 hi).ready, (advance_step h.1 hi).due.trans h.2⟩) ⟨hready, rfl⟩
    (Mealy.along_of_forall s his)
  have hzero : work s' = 0 := ranking.run_eq_zero hready his (work_le hready) hr
  have hnil : backlog s'.tx = [] := by
    rw [← List.length_eq_zero_iff]
    rw [work] at hzero
    omega
  have hna : armed s'.dev.regs.uep2TxCtrl = false := by
    rw [← Bool.not_eq_true, ← packetsLeft_pos, Nat.not_lt, Nat.le_zero]
    exact (Nat.add_eq_zero_iff.mp hzero).2
  refine ⟨?_, ?_, hna, ?_⟩
  · have h := hdue.2
    rwa [due, hnil, List.append_nil] at h
  · intro q
    by_contra hne
    obtain ⟨f, hf⟩ := List.exists_mem_of_ne_nil _ hne
    have hmem := mem_backlog.mpr ⟨q, hf⟩
    rw [hnil] at hmem
    cases hmem
  · have hinv : Inv s' := Mealy.inv_run (I := Inv) (fun _ i h => (inv_step i h).1) (inv_run is₀) is
    cases hinv.flow with
    | idle notArmed sent done => exact ⟨⟨done, sent⟩, if_pos (by rw [sent])⟩
    | sending _ _ arm => exact absurd (arm.symm.trans hna) (by decide)

/-- A data frame and an event are queued after SET_CONFIGURATION: both go out, the event first. -/
theorem backlog_delivered_two :
    let is₀ : List Input := [.irq .busReset, .irq (.setup [0x00, 0x09, 0x01, 0x00, 0x00, 0x00, 0x00, 0x00]),
      .irq .ep0In, .enqueue ⟨.data 2 0 (some [7, 8]) 2, by decide, by decide⟩,
      .enqueue ⟨.evt 3 0 0x81 (some [1]) 1, by decide, by decide⟩]
    let is := (List.replicate 117 [Input.process, .irq .ep2In]).flatten
    (Mealy.run step (Mealy.run step start is₀) is).frames.map (·.len) = [25, 26] := by
  intro is₀ is
  have hsteady : ∀ i ∈ is, Steady i := by
    intro i hi
    obtain ⟨round, hround, hi⟩ := List.mem_flatten.mp hi
    rw [List.eq_of_mem_replicate hround] at hi
    rcases List.mem_pair.mp hi with rfl | rfl
    · trivial
    · exact ⟨by simp, by simp⟩
  have h := (backlog_delivered is₀ is (by decide +kernel) hsteady (List.Sublist.refl _)).1
  rw [h]
  decide +kernel

end InPath

end UsbMux
