/-
What the host knows of the queues. Pending and dropped bits are gathered by
every enqueue and every pop and leave with a hint; `hint_dirty` says that the
host has to be told. The invariant (`Told`) relates the three fields to the
hints accepted so far and to the refusals no hint has reported yet.
-/
import UsbMux.Lib.Bits
import UsbMux.TxFacts

namespace UsbMux.UsbTx

/-! ## Bits -/

/-- The bit of class `q` is set in a bitmap. -/
def HasBit (bitmap : UInt16) (q : Class) : Prop := bitmap &&& q.bit = q.bit

instance (bitmap : UInt16) (q : Class) : Decidable (HasBit bitmap q) := by unfold HasBit; infer_instance

theorem hasBit_or_self (bitmap : UInt16) (q : Class) : HasBit (bitmap ||| q.bit) q :=
  Bits.set_self (UInt16.and_self) bitmap

theorem HasBit.or {bitmap : UInt16} {q : Class} (h : HasBit bitmap q) (bit : UInt16) : HasBit (bitmap ||| bit) q := by
  unfold HasBit at h ⊢
  rw [UInt16.or_comm]
  exact Bits.set_self h bit

/-- The bitmap computed from the queues has a class's bit exactly when its
queue holds a frame, and no other bit. -/
theorem hasBit_pending (c : Ctx) (q : Class) : HasBit (pending c) q ↔ (c.queue q).toList ≠ [] := by
  have hpos (q : Queue) : q.count > 0 ↔ q.toList ≠ [] := by
    rw [Ne, ← q.count_eq_zero, ← UInt8.toNat_inj]
    exact ⟨fun h => by have := UInt8.lt_iff_toNat_lt.mp h; simp at this ⊢; omega,
      fun h => UInt8.lt_iff_toNat_lt.mpr (by simp at h ⊢; omega)⟩
  simp only [pending, hpos]
  by_cases h1 : c.rspQ.toList = [] <;> by_cases h2 : c.evtQ.toList = [] <;> by_cases h3 : c.dataQ.toList = [] <;>
    cases q <;> simp [h1, h2, h3, Ctx.queue] <;> decide

theorem pending_lt (c : Ctx) : pending c < 8 := by
  simp only [pending]
  split_ifs <;> decide

/-! ## The trace -/

/-- The hints the device layer accepted, in order. -/
def hints (tr : List Event) : List VpIrqHint :=
  tr.filterMap fun
    | .hint h => some h
    | _ => none

@[simp] theorem hints_append (tr us : List Event) : hints (tr ++ us) = hints tr ++ hints us :=
  List.filterMap_append
@[simp] theorem hints_hint (h : VpIrqHint) : hints [.hint h] = [h] := rfl

/-- A refusal for class `q` that no hint has followed. -/
def Owed (q : Class) (tr : List Event) : Prop :=
  ∃ pre post, tr = pre ++ .refused q :: post ∧ hints post = []

/-- The first hint after a refusal has the bit of its class in its dropped bitmap. -/
def Reported (tr : List Event) : Prop :=
  ∀ pre q mid h post, tr = pre ++ .refused q :: (mid ++ .hint h :: post) → hints mid = [] → HasBit h.droppedBitmap q

theorem Owed.of_concat {q : Class} {tr : List Event} {e : Event} (h : Owed q (tr ++ [e])) :
    e = .refused q ∨ (Owed q tr ∧ hints [e] = []) := by
  obtain ⟨pre, post, heq, hn⟩ := h
  rcases List.eq_nil_or_concat post with rfl | ⟨post, e', rfl⟩
  · obtain ⟨-, h2⟩ := List.append_inj' heq rfl
    exact .inl (List.cons.inj h2).1
  · rw [List.concat_eq_append, ← List.cons_append, ← List.append_assoc] at heq
    obtain ⟨h1, h2⟩ := List.append_inj' heq rfl
    obtain rfl : e = e' := (List.cons.inj h2).1
    rw [List.concat_eq_append, hints_append, List.append_eq_nil_iff] at hn
    exact .inr ⟨⟨pre, post, h1, hn.1⟩, hn.2⟩

theorem Reported.concat {tr : List Event} (h : Reported tr) {e : Event}
    (he : ∀ hint, e = .hint hint → ∀ q, Owed q tr → HasBit hint.droppedBitmap q) : Reported (tr ++ [e]) := by
  intro pre q mid hint post heq hmid
  rcases List.eq_nil_or_concat post with rfl | ⟨post, e', rfl⟩
  · rw [← List.cons_append, ← List.append_assoc] at heq
    obtain ⟨h1, h2⟩ := List.append_inj' heq rfl
    exact he hint (List.cons.inj h2).1 q ⟨pre, mid, h1, hmid⟩
  · rw [List.concat_eq_append, ← List.cons_append, ← List.append_assoc, ← List.cons_append,
      ← List.append_assoc] at heq
    have heq := (List.append_inj' heq rfl).1
    rw [List.append_assoc, List.cons_append] at heq
    exact h pre q mid hint post heq hmid

/-! ## The invariant -/

/-- The pending bitmap is the queues' one. Without `hint_dirty` the last hint
told the host all of it and nothing was dropped since; a refusal that is
still owed has its bit among the dropped ones. -/
structure Told (c : Ctx) (tr : List Event) : Prop where
  pending : c.pendingBitmap = UsbTx.pending c
  current : c.hintDirty = 0 →
    (∃ h, (hints tr).getLast? = some h ∧ h.pendingBitmap = c.pendingBitmap) ∧ c.droppedBitmap = 0
  owed : ∀ q, Owed q tr → HasBit c.droppedBitmap q
  reported : Reported tr

theorem Told.init : Told init [] where
  pending := rfl
  current h := by cases h
  owed q h := by obtain ⟨pre, post, heq, -⟩ := h; simp at heq
  reported := fun pre q mid h post heq => by simp at heq

/-- The queues have changed and `USBTX_UpdatePendingBitmap` was called, with
at most an event on the trace that is no hint and no refusal. -/
theorem Told.update {c c' : Ctx} {tr us : List Event} (h : Told c tr) (h1 : c'.pendingBitmap = c.pendingBitmap)
    (h2 : c'.droppedBitmap = c.droppedBitmap) (h3 : c'.hintDirty = c.hintDirty) (hus : hints us = [])
    (howed : ∀ q, Owed q (tr ++ us) → Owed q tr) (hrep : Reported (tr ++ us)) :
    Told (updatePendingBitmap c') (tr ++ us) := by
  have hsame : UsbTx.pending (updatePendingBitmap c') = UsbTx.pending c' := by
    unfold updatePendingBitmap
    split <;> rfl
  refine ⟨?_, ?_, ?_, hrep⟩
  · rw [hsame]
    unfold updatePendingBitmap
    split
    · rfl
    · next hp => exact not_ne_iff.mp hp
  · unfold updatePendingBitmap
    split
    · intro hd; cases hd
    · intro hd
      rw [h1, h2, hints_append, hus, List.append_nil]
      exact h.current (h3 ▸ hd)
  · intro q hq
    have hdrop : (updatePendingBitmap c').droppedBitmap = c'.droppedBitmap := by
      unfold updatePendingBitmap
      split <;> rfl
    rw [hdrop, h2]
    exact h.owed q (howed q hq)

/-- A refused frame: its bit is noted and the host has to be told. -/
theorem Told.drop {c : Ctx} {tr : List Event} (h : Told c tr) (q : Class) :
    Told (dropFrame c q.bit) (tr ++ [.refused q]) := by
  have hdirty : (dropFrame c q.bit).hintDirty = 1 := rfl
  refine ⟨h.pending, fun hd => absurd (hdirty.symm.trans hd) (by decide), ?_,
    h.reported.concat fun _ he => by cases he⟩
  intro q' hq
  rcases hq.of_concat with he | ⟨hq, -⟩
  · cases he
    exact hasBit_or_self ..
  · exact (h.owed q' hq).or _

theorem Told.hint {c : Ctx} {tr : List Event} (h : Told c tr) {hint : VpIrqHint}
    (hp : hint.pendingBitmap = c.pendingBitmap) (hd : hint.droppedBitmap = c.droppedBitmap) :
    Told { c with hintDirty := 0, droppedBitmap := 0 } (tr ++ [.hint hint]) := by
  refine ⟨h.pending, fun _ => ⟨⟨hint, by simp, hp⟩, rfl⟩, ?_, h.reported.concat ?_⟩
  · intro q hq
    rcases hq.of_concat with he | ⟨-, hn⟩
    · cases he
    · simp at hn
  · intro h' he q hq
    cases he
    rw [hd]
    exact h.owed q hq

theorem owed_of_other {q : Class} {tr : List Event} {e : Event} (h : Owed q (tr ++ [e]))
    (he : ∀ q, e ≠ .refused q) : Owed q tr :=
  h.of_concat.elim (fun h => absurd h (he q)) fun h => h.1

/-! ## The entry points -/

/-- An enqueue refuses under its own class's bit, or it adds a frame and the
pending bitmap is brought up to date. -/
theorem enqueue_bits (c : Ctx) (call : Enqueue) :
    enqueue c call = (dropFrame c call.queue.bit, none) ∨
    ∃ c' f, enqueue c call = (updatePendingBitmap c', some f) ∧ c'.pendingBitmap = c.pendingBitmap ∧
      c'.droppedBitmap = c.droppedBitmap ∧ c'.hintDirty = c.hintDirty := by
  have frame (q : Class) (chType chId : UInt8) (msgType : VpMsgType) (opcode : UInt8) (refSeq : UInt16)
      (status : VpStatus) (payload : Ptr UInt8) (payloadLen : UInt16) :
      let r := queueFrame c q q.bit chType chId msgType opcode refSeq status payload payloadLen
      r = (dropFrame c q.bit, none) ∨ ∃ c' f, r = (updatePendingBitmap c', some f) ∧
        c'.pendingBitmap = c.pendingBitmap ∧ c'.droppedBitmap = c.droppedBitmap ∧ c'.hintDirty = c.hintDirty := by
    unfold queueFrame
    split_ifs
    · exact .inl rfl
    · exact .inl rfl
    · exact .inr ⟨_, _, rfl, by cases q <;> rfl, by cases q <;> rfl, by cases q <;> rfl⟩
  cases call with
  | rsp reqHdr status payload payloadLen => exact frame ..
  | evt chType chId opcode payload payloadLen => exact frame ..
  | data chType chId payload payloadLen => exact frame ..

theorem Told.enqueue {c : Ctx} {tr : List Event} (h : Told c tr) (call : Enqueue) :
    Told (enqueue c call).1 (tr ++ [enqueued call.queue (UsbTx.enqueue c call).2]) := by
  rcases enqueue_bits c call with he | ⟨c', f, he, h1, h2, h3⟩
  · rw [he]
    exact h.drop call.queue
  · rw [he]
    exact h.update h1 h2 h3 rfl (fun q hq => owed_of_other hq fun _ hn => by cases hn)
      (h.reported.concat fun _ hn => by cases hn)

theorem Told.pop {c : Ctx} {tr : List Event} (h : Told c tr) {q : Class} {f : Frame}
    (hf : (c.queue q).toList.head? = some f) : Told (popQueue c q) (tr ++ [.sent q f]) := by
  have hne : (c.queue q).count ≠ 0 := by
    rw [Ne, (c.queue q).count_eq_zero]
    intro hnil
    rw [hnil] at hf
    cases hf
  unfold popQueue
  rw [dif_neg hne]
  exact h.update (by cases q <;> rfl) (by cases q <;> rfl) (by cases q <;> rfl) rfl
    (fun q' hq => owed_of_other hq fun _ hn => by cases hn) (h.reported.concat fun _ hn => by cases hn)

variable {δ : Type} (dev : UsbDevice δ)

theorem sendHintIfNeeded_cases (c : Ctx) (d : δ) :
    ((sendHintIfNeeded dev c d).1 = c ∧ (sendHintIfNeeded dev c d).2.2 = []) ∨
    ∃ hint, (sendHintIfNeeded dev c d).1 = { c with hintDirty := 0, droppedBitmap := 0 } ∧
      (sendHintIfNeeded dev c d).2.2 = [.hint hint] ∧ hint.pendingBitmap = c.pendingBitmap ∧
      hint.droppedBitmap = c.droppedBitmap := by
  simp only [sendHintIfNeeded]
  split
  · exact .inl ⟨rfl, rfl⟩
  · split
    · exact .inr ⟨_, rfl, rfl, rfl, rfl⟩
    · exact .inl ⟨rfl, rfl⟩

theorem Told.sendHintIfNeeded {c : Ctx} {tr : List Event} (h : Told c tr) (d : δ) :
    Told (sendHintIfNeeded dev c d).1 (tr ++ (sendHintIfNeeded dev c d).2.2) := by
  rcases sendHintIfNeeded_cases dev c d with ⟨h1, h2⟩ | ⟨hint, h1, h2, hp, hd⟩
  · rw [h1, h2, List.append_nil]
    exact h
  · rw [h1, h2]
    exact h.hint hp hd

theorem Told.process {c : Ctx} {tr : List Event} (h : Told c tr) (d : δ) :
    Told (process dev c d).1 (tr ++ (process dev c d).2.2) := by
  unfold UsbTx.process
  split
  · simpa using h
  · have h' := h.sendHintIfNeeded dev d
    rw [← List.append_assoc]
    rcases sendNextFrame_trace dev (UsbTx.sendHintIfNeeded dev c d).1 (UsbTx.sendHintIfNeeded dev c d).2.1 with
      ⟨h1, h2⟩ | ⟨q, f, hf, -, h1, h2⟩
    · rw [h1, h2, List.append_nil]
      exact h'
    · rw [h1, h2]
      exact h'.pop hf

theorem Told.step {c : Ctx} {tr : List Event} (h : Told c tr) (op : Op δ) :
    Told (step dev c op).1 (tr ++ (UsbTx.step dev c op).2) := by
  cases op with
  | enqueue call => exact h.enqueue call
  | process d => exact h.process dev d

/-- **The host's view is never silently stale.** After every run from
`USBTX_Init`, whatever the device layer answers: a pending bit is set exactly
when its queue holds a frame; without `hint_dirty` the last accepted hint
carried the pending bitmap and nothing is dropped; and the first hint
accepted after a refusal reports it. -/
theorem host_view_current (ops : List (Op δ)) :
    let c := Mealy.run (UsbTx.step dev) UsbTx.init ops
    let tr := Mealy.outs (UsbTx.step dev) UsbTx.init ops
    ((∀ q, HasBit c.pendingBitmap q ↔ (c.queue q).toList ≠ []) ∧ c.pendingBitmap < 8) ∧
    (c.hintDirty = 0 →
      (∃ h, (hints tr).getLast? = some h ∧ h.pendingBitmap = c.pendingBitmap) ∧ c.droppedBitmap = 0) ∧
    ∀ pre q mid h post, tr = pre ++ .refused q :: (mid ++ .hint h :: post) → hints mid = [] →
      HasBit h.droppedBitmap q := by
  intro c tr
  have h : Told c tr := by
    have := Mealy.history_run (J := Told) (fun _ _ op h => h.step dev op) Told.init ops
    simpa using this
  refine ⟨⟨?_, ?_⟩, h.current, h.reported⟩
  · intro q
    rw [h.pending]
    exact hasBit_pending c q
  · rw [h.pending]
    exact pending_lt c

/-! ## A burst of calls -/

/-- The bytes of the frame a call with a payload puts into its queue, with the
counter's value `seq`. -/
def Enqueue.bytes (seq : UInt16) (call : Enqueue) : List UInt8 :=
  let hdr := VP.encodeHeader (call.hdr seq)
  hdr.bytes hdr.headerCrc16 ++ call.payload.cells call.payloadLen.toNat

/-- The frames of calls that are all accepted. -/
def frames : UInt16 → List Enqueue → List (List UInt8)
  | _, [] => []
  | seq, call :: calls => call.bytes seq :: frames (seq + 1) calls

theorem length_frames (seq : UInt16) (calls : List Enqueue) : (frames seq calls).length = calls.length := by
  induction calls generalizing seq with
  | nil => rfl
  | cons call calls ih => exact congrArg (· + 1) (ih (seq + 1))

/-- A call for a class, with a payload that a frame has room for. -/
structure Enqueue.Fits (q : Class) (call : Enqueue) : Prop where
  queue : call.queue = q
  payload : call.payload.isSome = true
  length : call.payloadLen.toNat ≤ 488

theorem enqueue_fits (c : Ctx) {q : Class} {call : Enqueue} (h : call.Fits q) :
    (4 ≤ (c.queue q).toList.length ∧ enqueue c call = (dropFrame c q.bit, none)) ∨
    (∃ f, (enqueue c call).2 = some f ∧ (c.queue q).toList.length < 4 ∧ f.bytes = call.bytes c.seq ∧
      (enqueue c call).1.seq = c.seq + 1 ∧ ((enqueue c call).1.queue q).toList = (c.queue q).toList ++ [f]) := by
  obtain ⟨rfl, hp, hl⟩ := h
  rcases enqueue_cases c call with ⟨⟨bit, he⟩, hfull⟩ | ⟨f, hf, -, hlt, hw, hseq, hq, -⟩
  · refine .inl ⟨hfull.resolve_left (not_lt.mpr hl), ?_⟩
    rcases enqueue_bits c call with hd | ⟨_, f, hd, -⟩
    · exact hd
    · cases congrArg Prod.snd (he.symm.trans hd)
  · refine .inr ⟨f, hf, hlt, ?_, hseq, hq⟩
    have htot : (VP.encodeHeader (call.hdr c.seq)).totalLen = 24 + call.payloadLen := by cases call <;> rfl
    rw [hw, writeFrame_bytes _ hl htot, if_pos hp]
    rfl

theorem enqueueAll_dropped (c : Ctx) (calls : List Enqueue) {q : Class} (h : HasBit c.droppedBitmap q) :
    HasBit (enqueueAll c calls).1.droppedBitmap q := by
  induction calls generalizing c with
  | nil => exact h
  | cons call calls ih =>
    refine ih _ ?_
    rcases enqueue_bits c call with he | ⟨c', f, he, -, hd, -⟩
    · rw [he]
      exact h.or _
    · have hu : (updatePendingBitmap c').droppedBitmap = c'.droppedBitmap := by
        simp only [updatePendingBitmap]
        split <;> rfl
      rw [he, hu, hd]
      exact h

/-- What a burst of calls for one class comes to while nothing is sent: the
first ones fill the queue, and the others are refused and leave the dropped bit. -/
structure Burst (q : Class) (c : Ctx) (calls : List Enqueue) (r : Ctx × List Event) : Prop where
  queue : (r.1.queue q).toList.map Frame.bytes =
    (c.queue q).toList.map Frame.bytes ++ frames c.seq (calls.take (4 - (c.queue q).toList.length))
  refused_iff : .refused q ∈ r.2 ↔ 4 < (c.queue q).toList.length + calls.length
  dropped : .refused q ∈ r.2 → HasBit r.1.droppedBitmap q

theorem enqueueAll_burst {q : Class} {calls : List Enqueue} (h : ∀ call ∈ calls, call.Fits q) (c : Ctx) :
    Burst q c calls (enqueueAll c calls) := by
  have hle := (c.queue q).length_toList_le
  induction calls generalizing c with
  | nil =>
    refine ⟨by simp [enqueueAll, frames], ?_, fun hr => by cases hr⟩
    simpa [enqueueAll] using hle
  | cons call calls ih =>
    have hcall := h call List.mem_cons_self
    obtain ⟨hqueue, hrefused, hdropped⟩ :=
      ih (fun call' hc => h call' (List.mem_cons_of_mem call hc)) (enqueue c call).1
      ((enqueue c call).1.queue q).length_toList_le
    rcases enqueue_fits c hcall with ⟨hfull, he⟩ | ⟨f, hf, hlt, hb, hseq, hq⟩
    · -- the queue is full and stays full
      rw [he, queue_dropFrame] at hqueue
      have hzero : 4 - (c.queue q).toList.length = 0 := by omega
      refine ⟨?_, iff_of_true ?_ (by simp; omega), fun _ => ?_⟩
      · simpa [enqueueAll, he, hzero, frames] using hqueue
      · simp [enqueueAll, he, enqueued, hcall.queue]
      · simp only [enqueueAll, he]
        exact enqueueAll_dropped _ calls (hasBit_or_self c.droppedBitmap q)
    · have hroom : 4 - (c.queue q).toList.length = 4 - ((enqueue c call).1.queue q).toList.length + 1 := by
        rw [hq, List.length_append, List.length_singleton]
        omega
      have htail : .refused q ∈ (enqueueAll c (call :: calls)).2 ↔
          .refused q ∈ (enqueueAll (enqueue c call).1 calls).2 := by
        simp [enqueueAll, hf, enqueued]
      refine ⟨?_, ?_, fun hr => hdropped (htail.mp hr)⟩
      · rw [hroom, List.take_succ_cons, frames, ← hb, ← hseq]
        simp only [enqueueAll, hqueue, hq, List.map_append, List.map_cons, List.map_nil, List.append_assoc,
          List.singleton_append]
      · rw [htail, hrefused, hq, List.length_append, List.length_singleton, List.length_cons]
        omega

end UsbMux.UsbTx
