/-
What the transmit scheduler does to its three queues: one lemma for each
function, then the machine of all its entry points with a device layer that
answers as it likes, and what holds over every run of it.

A class's queue is what was accepted for it and not yet sent; that a frame is
sent only when the queues of higher priority are empty is a property of the
trace (`Prioritized`).
-/
import UsbMux.Lib.Mealy
import UsbMux.TxSched

namespace UsbMux.UsbTx

/-! ## What a queued frame holds -/

/-- A filled slot starts with the header's bytes, then what the payload
holds, or what the slot held where there is no payload. -/
theorem writeFrame_bytes (frame : Frame) {hdr : VpHdr} {payload : Ptr UInt8} {payloadLen : UInt16}
    (hlen : payloadLen.toNat ≤ 488) (htot : hdr.totalLen = 24 + payloadLen) :
    (writeFrame frame hdr payload payloadLen).bytes = hdr.bytes hdr.headerCrc16 ++
      if payload.isSome then payload.cells payloadLen.toNat
      else (frame.data.toList.drop 24).take payloadLen.toNat := by
  have hd : frame.data.toList.length = 512 := frame.data.toList_length
  have hser : (serializeHeader frame.data hdr).toList =
      hdr.bytes hdr.headerCrc16 ++ frame.data.toList.drop 24 := by
    rw [toList_serializeHeader, VP.serializeHeader_eq (by rw [hd]; decide), VP.headerLen_eq]
  have ht : hdr.totalLen.toNat = 24 + payloadLen.toNat := by rw [htot, UInt16.toNat_add]; simp; omega
  have hb : (hdr.bytes hdr.headerCrc16).length = 24 := hdr.length_bytes _
  simp only [Frame.bytes, writeFrame, ht]
  split_ifs with h1 h2 h2
  · have hfit : 24 + (payload.cells payloadLen.toNat).length ≤ (serializeHeader frame.data hdr).toList.length := by
      rw [(serializeHeader frame.data hdr).toList_length]; simp; omega
    have := take_blit hfit
    rw [Ptr.length_cells] at this
    rw [Block.toList_write, VP.headerLen_eq, this, hser, List.take_left' hb]
  · exact absurd h1.1 h2
  · have h0 : payloadLen = 0 := by
      by_contra h0
      exact h1 ⟨h2, UInt16.lt_iff_toNat_lt.mpr (Nat.pos_of_ne_zero fun h => h0 (UInt16.toNat_inj.mp h))⟩
    simp [h0, hser, List.take_left' hb, Ptr.cells]
  · rw [hser, List.take_append, hb, List.take_of_length_le (by omega)]
    simp

/-! ## One call -/

/-- What an enqueue does: it refuses and leaves the queues, the sequence
counter and the pending bitmap alone, or it adds its frame to its queue. -/
theorem queueFrame_cases (c : Ctx) (q : Class) (bit : UInt16) (chType chId : UInt8) (msgType : VpMsgType)
    (opcode : UInt8) (refSeq : UInt16) (status : VpStatus) (payload : Ptr UInt8) (payloadLen : UInt16) :
    let r := queueFrame c q bit chType chId msgType opcode refSeq status payload payloadLen
    (r = (dropFrame c bit, none) ∧ (488 < payloadLen.toNat ∨ 4 ≤ (c.queue q).toList.length)) ∨
    (∃ f, r.2 = some f ∧ payloadLen.toNat ≤ 488 ∧ (c.queue q).toList.length < 4 ∧
      f = writeFrame (c.queue q).slot
        (VP.encodeHeader (requestHdr c.seq chType chId msgType opcode refSeq status payloadLen)) payload
        payloadLen ∧
      r.1.seq = c.seq + 1 ∧ (r.1.queue q).toList = (c.queue q).toList ++ [f] ∧
      ∀ q' ≠ q, r.1.queue q' = c.queue q') := by
  simp only [queueFrame, gt_iff_lt, ge_iff_le, UInt16.lt_iff_toNat_lt]
  split_ifs with h1 h2
  · exact .inl ⟨rfl, .inl (by simpa using h1)⟩
  · refine .inl ⟨rfl, .inr ?_⟩
    rw [(c.queue q).length_toList]
    exact UInt8.le_iff_toNat_le.mp h2
  · refine .inr ⟨_, rfl, by simpa using h1, ?_, rfl, ?_, ?_, ?_⟩
    · rw [(c.queue q).length_toList]
      exact UInt8.lt_iff_toNat_lt.mp (UInt8.not_le.mp h2)
    · rw [seq_updatePendingBitmap]; cases q <;> rfl
    · rw [queue_updatePendingBitmap, Ctx.queue_setQueue_self, Queue.push_toList]
    · intro q' hq
      rw [queue_updatePendingBitmap, Ctx.queue_setQueue_of_ne _ _ hq]
      cases q' <;> rfl

/-- The header of a call's frame before it is encoded, with the counter's value `seq`. -/
def Enqueue.hdr (seq : UInt16) : Enqueue → VpHdr
  | .rsp reqHdr status _ payloadLen =>
    requestHdr seq reqHdr.chType reqHdr.chId .rsp reqHdr.opcode reqHdr.seq status payloadLen
  | .evt chType chId opcode _ payloadLen => requestHdr seq chType chId .evt opcode 0 .ok payloadLen
  | .data chType chId _ payloadLen => requestHdr seq chType chId .data 0 0 .ok payloadLen

def Enqueue.payload : Enqueue → Ptr UInt8
  | .rsp _ _ payload _ | .evt _ _ _ payload _ | .data _ _ payload _ => payload

def Enqueue.payloadLen : Enqueue → UInt16
  | .rsp _ _ _ payloadLen | .evt _ _ _ _ payloadLen | .data _ _ _ payloadLen => payloadLen

theorem enqueue_cases (c : Ctx) (call : Enqueue) :
    ((∃ bit, enqueue c call = (dropFrame c bit, none)) ∧
      (488 < call.payloadLen.toNat ∨ 4 ≤ (c.queue call.queue).toList.length)) ∨
    (∃ f, (enqueue c call).2 = some f ∧ call.payloadLen.toNat ≤ 488 ∧
      (c.queue call.queue).toList.length < 4 ∧
      f = writeFrame (c.queue call.queue).slot (VP.encodeHeader (call.hdr c.seq)) call.payload call.payloadLen ∧
      (enqueue c call).1.seq = c.seq + 1 ∧
      ((enqueue c call).1.queue call.queue).toList = (c.queue call.queue).toList ++ [f] ∧
      ∀ q ≠ call.queue, (enqueue c call).1.queue q = c.queue q) := by
  cases call with
  | rsp | evt | data =>
    refine (queueFrame_cases ..).imp (fun h => ⟨⟨_, h.1⟩, h.2⟩) fun h => h

theorem queue_dropFrame (c : Ctx) (bit : UInt16) (q : Class) : (dropFrame c bit).queue q = c.queue q := by
  cases q <;> rfl

theorem popQueue_queue (c : Ctx) (q q' : Class) :
    ((popQueue c q).queue q').toList = if q' = q then (c.queue q).toList.tail else (c.queue q').toList := by
  simp only [popQueue]
  split
  · next h =>
    rw [(c.queue q).count_eq_zero] at h
    split
    · next he => rw [he, h]; rfl
    · rfl
  · next h =>
    rw [queue_updatePendingBitmap]
    split
    · next he => rw [he, Ctx.queue_setQueue_self, Queue.advance_toList]
    · next he => rw [Ctx.queue_setQueue_of_ne _ _ he]

/-- The place of a class in the order `USBTX_SendNextFrame` looks at the queues. -/
def Class.rank : Class → Nat
  | .rsp => 0
  | .evt => 1
  | .data => 2

variable {δ : Type} (dev : UsbDevice δ)

theorem sendHintIfNeeded_queue (c : Ctx) (d : δ) (q : Class) :
    ((sendHintIfNeeded dev c d).1).queue q = c.queue q := by
  simp only [sendHintIfNeeded]
  split
  · rfl
  · split <;> cases q <;> rfl

theorem sendHintIfNeeded_events (c : Ctx) (d : δ) :
    (sendHintIfNeeded dev c d).2.2 = [] ∨ ∃ h, (sendHintIfNeeded dev c d).2.2 = [.hint h] := by
  simp only [sendHintIfNeeded]
  split
  · exact .inl rfl
  · split
    · exact .inr ⟨_, rfl⟩
    · exact .inl rfl

/-- Handing a frame on: the device layer takes it and it leaves its queue, or
it stays. -/
theorem sendFrom_cases (c : Ctx) (d : δ) (q : Class) (f : Frame) :
    let r := dev.sendFrame d (some f.data.toList) f.len
    (r.2 = false ∧ sendFrom dev c d q f = (c, r.1, [])) ∨
      (r.2 = true ∧ sendFrom dev c d q f = (popQueue c q, r.1, [.sent q f])) := by
  simp only [sendFrom]
  split
  · next h => exact .inr (by rw [h]; exact ⟨rfl, rfl⟩)
  · next h => exact .inl (by rw [h]; exact ⟨rfl, rfl⟩)

/-- What one send step does: nothing, or it hands on the oldest frame of the
first queue that holds one. -/
theorem sendNextFrame_cases (c : Ctx) (d : δ) :
    sendNextFrame dev c d = (c, d, []) ∨
    (∃ q f, dev.canSendFrame d = true ∧ (c.queue q).toList.head? = some f ∧
      (∀ q', q'.rank < q.rank → (c.queue q').toList = []) ∧ sendNextFrame dev c d = sendFrom dev c d q f) := by
  have empty (q : Queue) (h : q.peek = none) : q.toList = [] := by
    rwa [q.peek_eq, List.head?_eq_none_iff] at h
  have oldest {q : Class} {f : Frame} (hf : (c.queue q).peek = some f) : (c.queue q).toList.head? = some f := by
    rw [← (c.queue q).peek_eq, hf]
  simp only [sendNextFrame]
  split
  · exact .inl rfl
  next hcan =>
  have hcan : dev.canSendFrame d = true := by simpa using hcan
  split
  · next f hf => exact .inr ⟨.rsp, f, hcan, oldest hf, fun q' hq => by simp [Class.rank] at hq, rfl⟩
  next hr =>
  split
  · next f hf =>
    refine .inr ⟨.evt, f, hcan, oldest hf, ?_, rfl⟩
    intro q' hq
    cases q' with
    | rsp => exact empty _ hr
    | evt | data => simp [Class.rank] at hq
  next he =>
  split
  · next f hf =>
    refine .inr ⟨.data, f, hcan, oldest hf, ?_, rfl⟩
    intro q' hq
    cases q' with
    | rsp => exact empty _ hr
    | evt => exact empty _ he
    | data => simp [Class.rank] at hq
  · exact .inl rfl

/-- What a send step puts on the trace: nothing, or that it sent the oldest
frame of the first queue that holds one. -/
theorem sendNextFrame_trace (c : Ctx) (d : δ) :
    ((sendNextFrame dev c d).1 = c ∧ (sendNextFrame dev c d).2.2 = []) ∨
    (∃ q f, (c.queue q).toList.head? = some f ∧ (∀ q', q'.rank < q.rank → (c.queue q').toList = []) ∧
      (sendNextFrame dev c d).1 = popQueue c q ∧ (sendNextFrame dev c d).2.2 = [.sent q f]) := by
  rcases sendNextFrame_cases dev c d with he | ⟨q, f, -, hf, hq, he⟩
  · exact .inl (by rw [he]; exact ⟨rfl, rfl⟩)
  · rw [he]
    rcases sendFrom_cases dev c d q f with ⟨-, h⟩ | ⟨-, h⟩
    · exact .inl (by rw [h]; exact ⟨rfl, rfl⟩)
    · exact .inr ⟨q, f, hf, hq, by rw [h], by rw [h]⟩

/-! ## Histories -/

/-- The frames of a class whose enqueue answered 0, in order. -/
def accepted (q : Class) (tr : List Event) : List Frame :=
  tr.filterMap fun
    | .queued q' f => if q' = q then some f else none
    | _ => none

/-- The frames of a class the device layer accepted, in order. -/
def sent (q : Class) (tr : List Event) : List Frame :=
  tr.filterMap fun
    | .sent q' f => if q' = q then some f else none
    | _ => none

@[simp] theorem accepted_append (q : Class) (tr us : List Event) :
    accepted q (tr ++ us) = accepted q tr ++ accepted q us := List.filterMap_append
@[simp] theorem sent_append (q : Class) (tr us : List Event) :
    sent q (tr ++ us) = sent q tr ++ sent q us := List.filterMap_append
@[simp] theorem accepted_queued (q q' : Class) (f : Frame) :
    accepted q [.queued q' f] = if q' = q then [f] else [] := by
  simp only [accepted]; split <;> simp_all
@[simp] theorem sent_queued (q q' : Class) (f : Frame) : sent q [.queued q' f] = [] := rfl
@[simp] theorem accepted_sent (q q' : Class) (f : Frame) : accepted q [.sent q' f] = [] := rfl
@[simp] theorem sent_sent (q q' : Class) (f : Frame) :
    sent q [.sent q' f] = if q' = q then [f] else [] := by
  simp only [sent]; split <;> simp_all
@[simp] theorem accepted_refused (q q' : Class) : accepted q [.refused q'] = [] := rfl
@[simp] theorem sent_refused (q q' : Class) : sent q [.refused q'] = [] := rfl
@[simp] theorem accepted_hint (q : Class) (h : VpIrqHint) : accepted q [.hint h] = [] := rfl
@[simp] theorem sent_hint (q : Class) (h : VpIrqHint) : sent q [.hint h] = [] := rfl

theorem mem_accepted {q : Class} {f : Frame} {tr : List Event} (h : .queued q f ∈ tr) : f ∈ accepted q tr :=
  List.mem_filterMap.mpr ⟨_, h, if_pos rfl⟩

/-- Whenever a frame goes out, everything accepted before for a class of
higher priority has gone out before. -/
def Prioritized (tr : List Event) : Prop :=
  ∀ pre q f post, tr = pre ++ .sent q f :: post →
    ∀ q', q'.rank < q.rank → sent q' pre = accepted q' pre

theorem Prioritized.concat {tr : List Event} (h : Prioritized tr) {e : Event}
    (he : ∀ q f, e = .sent q f → ∀ q', q'.rank < q.rank → sent q' tr = accepted q' tr) :
    Prioritized (tr ++ [e]) := by
  intro pre q f post heq
  rcases List.eq_nil_or_concat post with rfl | ⟨post', e', rfl⟩
  · obtain ⟨rfl, h2⟩ := List.append_inj' heq rfl
    exact he q f (by simpa using h2)
  · rw [List.concat_eq_append, ← List.cons_append, ← List.append_assoc] at heq
    exact h pre q f post' (List.append_inj' heq rfl).1

/-- Each queue holds what was accepted for its class and has not been sent. -/
structure History (c : Ctx) (tr : List Event) : Prop where
  conserved : ∀ q, accepted q tr = sent q tr ++ (c.queue q).toList
  prioritized : Prioritized tr

theorem History.init : History init [] where
  conserved q := by cases q <;> rfl
  prioritized := fun pre q f post h => by simp at h

/-- A queue with nothing in it: all that was accepted is sent. -/
theorem History.sent_of_empty {c : Ctx} {tr : List Event} (h : History c tr) {q : Class}
    (hq : (c.queue q).toList = []) : sent q tr = accepted q tr := by
  rw [h.conserved q, hq, List.append_nil]

theorem History.hint {c c' : Ctx} {tr : List Event} (h : History c tr) (hc : ∀ q, c'.queue q = c.queue q)
    (hint : VpIrqHint) : History c' (tr ++ [.hint hint]) where
  conserved q := by simpa [hc] using h.conserved q
  prioritized := h.prioritized.concat fun _ _ he => by cases he

theorem History.quiet {c c' : Ctx} {tr : List Event} (h : History c tr)
    (hc : ∀ q, c'.queue q = c.queue q) : History c' tr where
  conserved q := by rw [hc, h.conserved q]
  prioritized := h.prioritized

/-- The oldest frame of a queue goes out while those before it are empty. -/
theorem History.pop {c : Ctx} {tr : List Event} (h : History c tr) {q : Class} {f : Frame}
    (hf : (c.queue q).toList.head? = some f) (hq : ∀ q', q'.rank < q.rank → (c.queue q').toList = []) :
    History (popQueue c q) (tr ++ [.sent q f]) where
  conserved q' := by
    obtain ⟨t, ht⟩ := List.head?_eq_some_iff.mp hf
    have h' := h.conserved q'
    by_cases he : q = q'
    · subst he; simp [popQueue_queue, ht, h']
    · simp [popQueue_queue, he, Ne.symm he, h']
  prioritized := h.prioritized.concat fun q₁ f₁ he q' hlt => by
    cases he; exact h.sent_of_empty (hq q' hlt)

/-! ## The calls of a handler -/

/-- The answer of an enqueue as an event. -/
def enqueued (q : Class) : Option Frame → Event
  | some f => .queued q f
  | none => .refused q

/-- The calls a handler makes, one after the other. -/
def enqueueAll (c : Ctx) : List Enqueue → Ctx × List Event
  | [] => (c, [])
  | call :: calls =>
    let r := enqueue c call
    let s := enqueueAll r.1 calls
    (s.1, enqueued call.queue r.2 :: s.2)

/-- The calls of `USBTX_QueueRsp` among them. -/
def rspCalls (calls : List Enqueue) : List Enqueue := calls.filter (·.queue = .rsp)

/-- A handler answers `hdr`: it queues events and, last, one response, with
`hdr` as the request and a payload of at most `n` bytes. -/
def Answers (hdr : VpHdr) (n : Nat) (calls : List Enqueue) : Prop :=
  ∃ events status rsp rspLen, (∀ call ∈ events, call.queue = .evt) ∧ rspLen.toNat ≤ n ∧
    calls = events ++ [.rsp hdr status rsp rspLen]

theorem answers_single (hdr : VpHdr) (status : VpStatus) (rsp : Ptr UInt8) {n : Nat} {rspLen : UInt16}
    (h : rspLen.toNat ≤ n) : Answers hdr n [.rsp hdr status rsp rspLen] :=
  ⟨[], status, rsp, rspLen, by simp, h, rfl⟩

/-- The answer of a handler that has only a status to report. -/
def statusRsp (hdr : VpHdr) (status : VpStatus) : List Enqueue := [.rsp hdr status none 0]

theorem answers_status (hdr : VpHdr) (status : VpStatus) {n : Nat} : Answers hdr n (statusRsp hdr status) :=
  answers_single hdr status none (Nat.zero_le n)

theorem Answers.rspCalls {hdr : VpHdr} {n : Nat} {calls : List Enqueue} (h : Answers hdr n calls) :
    ∃ status rsp rspLen, UsbTx.rspCalls calls = [.rsp hdr status rsp rspLen] := by
  obtain ⟨events, status, rsp, rspLen, he, -, rfl⟩ := h
  refine ⟨status, rsp, rspLen, ?_⟩
  have hev : events.filter (·.queue = .rsp) = [] := by
    rw [List.filter_eq_nil_iff]
    intro call hc
    simp [he call hc]
  rw [UsbTx.rspCalls, List.filter_append, hev]
  rfl

/-- A frame is a response to `hdr`. -/
def RespondsTo (hdr : VpHdr) (f : Frame) : Prop :=
  let r := VP.deserializeHeader f.bytes
  r.msgType = VpMsgType.rsp.code ∧ r.chType = hdr.chType ∧ r.chId = hdr.chId ∧ r.opcode = hdr.opcode ∧
    r.refSeq = hdr.seq

/-- An accepted response carries channel, opcode and sequence number of its request. -/
theorem enqueue_respondsTo {c : Ctx} {hdr : VpHdr} {status : VpStatus} {rsp : Ptr UInt8} {rspLen : UInt16}
    {f : Frame} (h : (enqueue c (.rsp hdr status rsp rspLen)).2 = some f) : RespondsTo hdr f := by
  rcases enqueue_cases c (.rsp hdr status rsp rspLen) with ⟨⟨bit, hr⟩, -⟩ | ⟨g, hg, hp, -, hw, -⟩
  · rw [hr] at h; cases h
  · obtain rfl : f = g := Option.some.inj (h.symm.trans hg)
    rw [RespondsTo, hw, writeFrame_bytes _ hp rfl, VP.deserializeHeader_own]
    exact ⟨rfl, rfl, rfl, rfl, rfl⟩

/-- Every response accepted while the calls of a handler are made is to the
request the handler was given. -/
theorem enqueueAll_respondsTo {hdr : VpHdr} {calls : List Enqueue}
    (hcalls : ∀ call ∈ rspCalls calls, ∃ status rsp rspLen, call = .rsp hdr status rsp rspLen) (c : Ctx) {f : Frame}
    (hf : .queued .rsp f ∈ (enqueueAll c calls).2) : RespondsTo hdr f := by
  induction calls generalizing c with
  | nil => cases hf
  | cons call calls ih =>
    rcases List.mem_cons.mp hf with hf | hf
    · cases hr : (enqueue c call).2 with
      | none => rw [hr] at hf; cases hf
      | some g =>
        rw [hr] at hf
        obtain ⟨hq, rfl⟩ : Class.rsp = call.queue ∧ f = g := by injection hf with h1 h2; exact ⟨h1, h2⟩
        obtain ⟨status, rsp, rspLen, rfl⟩ := hcalls call (by simp [rspCalls, ← hq])
        exact enqueue_respondsTo hr
    · refine ih (fun call' hc => hcalls call' ?_) _ hf
      simp only [rspCalls, List.mem_filter] at hc ⊢
      exact ⟨List.mem_cons_of_mem _ hc.1, hc.2⟩

/-- What the response queue answered, among the events of a handler. -/
def responses (tr : List Event) : List Event :=
  tr.filter fun
    | .queued .rsp _ | .refused .rsp => true
    | _ => false

@[simp] theorem responses_cons_of_evt (o : Option Frame) (tr : List Event) :
    responses (enqueued .evt o :: tr) = responses tr := by cases o <;> rfl

theorem responses_append (tr us : List Event) : responses (tr ++ us) = responses tr ++ responses us :=
  List.filter_append ..

theorem enqueueAll_append (c : Ctx) (calls calls' : List Enqueue) :
    enqueueAll c (calls ++ calls') = ((enqueueAll (enqueueAll c calls).1 calls').1,
      (enqueueAll c calls).2 ++ (enqueueAll (enqueueAll c calls).1 calls').2) := by
  induction calls generalizing c with
  | nil => rfl
  | cons call calls ih => simp [enqueueAll, ih]

theorem enqueueAll_events {calls : List Enqueue} (h : ∀ call ∈ calls, call.queue = .evt) (c : Ctx) :
    (enqueueAll c calls).1.rspQ = c.rspQ ∧ responses (enqueueAll c calls).2 = [] := by
  induction calls generalizing c with
  | nil => exact ⟨rfl, rfl⟩
  | cons call calls ih =>
    have hq : call.queue = .evt := h call (by simp)
    obtain ⟨h1, h2⟩ := ih (fun call' hc => h call' (by simp [hc])) (enqueue c call).1
    refine ⟨h1.trans ?_, by rw [enqueueAll, hq, responses_cons_of_evt]; exact h2⟩
    rcases enqueue_cases c call with ⟨⟨bit, hr⟩, -⟩ | ⟨f, -, -, -, -, -, -, hne⟩
    · rw [hr]; rfl
    · exact hne .rsp (by simp [hq])

/-- The message `hdr` has its response in the queue. -/
def Responded (hdr : VpHdr) (tr : List Event) : Prop := ∃ f, responses tr = [.queued .rsp f] ∧ RespondsTo hdr f

/-- What the calls of a handler of `hdr`, made from `c`, come to: under `p` the
response is queued, otherwise it is refused and the queue is as it was. -/
structure Outcome (hdr : VpHdr) (c : Ctx) (r : Ctx × List Event) (p : Prop) : Prop where
  queued : p → Responded hdr r.2 ∧ r.1.rspQ.toList.length = c.rspQ.toList.length + 1
  refused : ¬ p → responses r.2 = [.refused .rsp] ∧ r.1.rspQ = c.rspQ

theorem Outcome.responded_iff {hdr : VpHdr} {c : Ctx} {r : Ctx × List Event} {p : Prop} (h : Outcome hdr c r p) :
    Responded hdr r.2 ↔ p := by
  refine ⟨fun hr => by_contra ?_, fun hp => (h.queued hp).1⟩
  intro hp
  obtain ⟨f, hf, -⟩ := hr
  rw [(h.refused hp).1] at hf
  cases hf

theorem Outcome.length {hdr : VpHdr} {c : Ctx} {r : Ctx × List Event} {p : Prop} [Decidable p]
    (h : Outcome hdr c r p) :
    r.1.rspQ.toList.length = if p then c.rspQ.toList.length + 1 else c.rspQ.toList.length := by
  split
  · next hp => exact (h.queued hp).2
  · next hp => rw [(h.refused hp).2]

/-- One call of `USBTX_QueueRsp` is accepted exactly when its payload fits a
frame and the queue has a free slot. -/
theorem enqueue_rsp (c : Ctx) (hdr : VpHdr) (status : VpStatus) (rsp : Ptr UInt8) (rspLen : UInt16) :
    Outcome hdr c (enqueueAll c [.rsp hdr status rsp rspLen])
      (rspLen.toNat ≤ 488 ∧ c.rspQ.toList.length < queueDepth) := by
  simp only [enqueueAll]
  rcases enqueue_cases c (.rsp hdr status rsp rspLen) with ⟨⟨bit, hr⟩, hfull⟩ | ⟨f, hf, hp, hlt, -, -, hq, -⟩
  · refine ⟨fun ⟨h1, h2⟩ => ?_, fun _ => by rw [hr]; exact ⟨rfl, rfl⟩⟩
    exact hfull.elim (fun h => absurd h1 (not_le.mpr h)) (fun h => absurd h2 (not_lt.mpr h))
  · refine ⟨?_, fun hn => absurd ⟨hp, hlt⟩ hn⟩
    intro _
    rw [hf]
    exact ⟨⟨f, rfl, enqueue_respondsTo hf⟩, (congrArg List.length hq).trans List.length_append⟩

/-- An answer within a frame is accepted exactly when the queue has a free slot. -/
theorem Answers.outcome {hdr : VpHdr} {calls : List Enqueue} (h : Answers hdr 488 calls) (c : Ctx) :
    Outcome hdr c (enqueueAll c calls) (c.rspQ.toList.length < queueDepth) := by
  obtain ⟨events, status, rsp, rspLen, he, hl, rfl⟩ := h
  obtain ⟨h1, h2⟩ := enqueueAll_events he c
  obtain ⟨hq, hr⟩ := enqueue_rsp (enqueueAll c events).1 hdr status rsp rspLen
  have hres := enqueueAll_append c events [.rsp hdr status rsp rspLen]
  rw [h1] at hq hr
  rw [hres]
  constructor
  · intro hp
    obtain ⟨⟨f, hf, hto⟩, hlen⟩ := hq ⟨hl, hp⟩
    exact ⟨⟨f, by rw [responses_append, h2, hf, List.nil_append], hto⟩, hlen⟩
  · intro hp
    obtain ⟨hf, hsame⟩ := hr fun h => hp h.2
    exact ⟨by rw [responses_append, h2, hf, List.nil_append], hsame⟩

/-! ## Runs -/

/-- The entry points after `USBTX_Init`; `process` comes with the state the
device layer is in when it is called. -/
inductive Op (δ : Type)
  | enqueue (call : Enqueue)
  | process (d : δ)

/-- One entry point called. -/
def step : Mealy.Step Ctx (Op δ) Event
  | c, .enqueue call =>
    let r := enqueue c call
    (r.1, [enqueued call.queue r.2])
  | c, .process d =>
    let r := process dev c d
    (r.1, r.2.2)

theorem History.enqueue {c : Ctx} {tr : List Event} (h : History c tr) (call : Enqueue) :
    History (enqueue c call).1 (tr ++ [enqueued call.queue (UsbTx.enqueue c call).2]) := by
  rcases enqueue_cases c call with ⟨⟨bit, hr⟩, -⟩ | ⟨f, hf, -, -, -, -, hq, hne⟩
  · rw [hr]
    exact ⟨fun q => by simpa [enqueued, queue_dropFrame] using h.conserved q,
      h.prioritized.concat fun _ _ he => by cases he⟩
  · rw [hf]
    refine ⟨?_, h.prioritized.concat fun _ _ he => by cases he⟩
    intro q
    have h' := h.conserved q
    by_cases he : call.queue = q
    · subst he; simp [enqueued, hq, h']
    · simp [enqueued, hne q (Ne.symm he), he, h']

theorem History.enqueueAll {c : Ctx} {tr : List Event} (h : History c tr) (calls : List Enqueue) :
    History (enqueueAll c calls).1 (tr ++ (enqueueAll c calls).2) := by
  induction calls generalizing c tr with
  | nil => simpa [UsbTx.enqueueAll] using h
  | cons call calls ih => simpa [UsbTx.enqueueAll, List.append_assoc] using ih (h.enqueue call)

theorem History.sendNextFrame {c : Ctx} {tr : List Event} (h : History c tr) (d : δ) :
    History (sendNextFrame dev c d).1 (tr ++ (sendNextFrame dev c d).2.2) := by
  rcases sendNextFrame_trace dev c d with ⟨h1, h2⟩ | ⟨q, f, hf, hq, h1, h2⟩
  · rw [h1, h2, List.append_nil]; exact h
  · rw [h1, h2]; exact h.pop hf hq

theorem History.process {c : Ctx} {tr : List Event} (h : History c tr) (d : δ) :
    History (process dev c d).1 (tr ++ (process dev c d).2.2) := by
  simp only [UsbTx.process]
  split
  · simpa using h
  · rw [← List.append_assoc]
    refine History.sendNextFrame dev ?_ _
    rcases sendHintIfNeeded_events dev c d with he | ⟨hint, he⟩
    · rw [he, List.append_nil]; exact h.quiet (sendHintIfNeeded_queue dev c d)
    · rw [he]; exact h.hint (sendHintIfNeeded_queue dev c d) hint

/-- What one call of `USBTX_Process` does: after at most one hint it sends
nothing, or the oldest frame of the first queue that holds one. -/
theorem process_trace (c : Ctx) (d : δ) :
    let r := UsbTx.process dev c d
    ∃ hs, (hs = [] ∨ ∃ h, hs = [.hint h]) ∧
      (((∀ q, r.1.queue q = c.queue q) ∧ r.2.2 = hs) ∨
      ∃ q f fs, (c.queue q).toList = f :: fs ∧ (∀ q', q'.rank < q.rank → (c.queue q').toList = []) ∧
        (∀ q', (r.1.queue q').toList = if q' = q then fs else (c.queue q').toList) ∧ r.2.2 = hs ++ [.sent q f]) := by
  simp only [UsbTx.process]
  split
  · exact ⟨[], .inl rfl, .inl ⟨fun _ => rfl, rfl⟩⟩
  refine ⟨_, sendHintIfNeeded_events dev c d, ?_⟩
  have hqueue := sendHintIfNeeded_queue dev c d
  rcases sendNextFrame_trace dev (sendHintIfNeeded dev c d).1 (sendHintIfNeeded dev c d).2.1 with
    ⟨h1, h2⟩ | ⟨q, f, hf, hq, h1, h2⟩
  · exact .inl ⟨fun q => by rw [h1, hqueue], by rw [h2, List.append_nil]⟩
  · rw [hqueue] at hf
    simp only [hqueue] at hq
    obtain ⟨fs, hfs⟩ := List.head?_eq_some_iff.mp hf
    refine .inr ⟨q, f, fs, hfs, hq, ?_, by rw [h2]⟩
    intro q'
    rw [h1, popQueue_queue, hqueue, hqueue, hfs, List.tail_cons]

/-- A frame that goes out finds the queues before its own empty. -/
theorem process_sent (c : Ctx) (d : δ) {q : Class} {f : Frame}
    (h : .sent q f ∈ (UsbTx.process dev c d).2.2) : ∀ q', q'.rank < q.rank → (c.queue q').toList = [] := by
  obtain ⟨hs, rfl | ⟨hint, rfl⟩, ⟨-, he⟩ | ⟨q₁, f₁, fs, -, hq, -, he⟩⟩ := process_trace dev c d
  · simp [he] at h
  · obtain ⟨rfl, rfl⟩ : q = q₁ ∧ f = f₁ := by simpa [he] using h
    exact hq
  · simp [he] at h
  · obtain ⟨rfl, rfl⟩ : q = q₁ ∧ f = f₁ := by simpa [he] using h
    exact hq

/-- What one call of `USBTX_Process` sends: nothing, or the oldest frame of one
queue, which leaves it. -/
theorem process_sends (c : Ctx) (d : δ) :
    let r := UsbTx.process dev c d
    ((∀ q, (r.1.queue q).toList = (c.queue q).toList) ∧ ∀ q, sent q r.2.2 = []) ∨
    ∃ q f fs, (c.queue q).toList = f :: fs ∧
      (∀ q', (r.1.queue q').toList = if q' = q then fs else (c.queue q').toList) ∧
      ∀ q', sent q' r.2.2 = if q = q' then [f] else [] := by
  obtain ⟨hs, hhs, hcases⟩ := process_trace dev c d
  have hhint (q : Class) : sent q hs = [] := by
    rcases hhs with rfl | ⟨hint, rfl⟩
    · rfl
    · rfl
  rcases hcases with ⟨hq, he⟩ | ⟨q, f, fs, hfs, -, hq, he⟩
  · exact .inl ⟨fun q => by rw [hq], fun q => by rw [he, hhint]⟩
  · exact .inr ⟨q, f, fs, hfs, hq, fun q' => by rw [he, sent_append, hhint, List.nil_append, sent_sent]⟩

theorem process_not_refused (c : Ctx) (d : δ) (q : Class) : .refused q ∉ (UsbTx.process dev c d).2.2 := by
  intro h
  obtain ⟨hs, rfl | ⟨hint, rfl⟩, ⟨-, he⟩ | ⟨q₁, f₁, fs, -, -, -, he⟩⟩ := process_trace dev c d
  all_goals simp [he] at h

/-- A refused enqueue leaves queues, sequence counter and pending bitmap alone. -/
theorem step_refused (c : Ctx) (op : Op δ) {q : Class} (h : .refused q ∈ (UsbTx.step dev c op).2) :
    (∀ q', (UsbTx.step dev c op).1.queue q' = c.queue q') ∧ (UsbTx.step dev c op).1.seq = c.seq ∧
      (UsbTx.step dev c op).1.pendingBitmap = c.pendingBitmap := by
  cases op with
  | enqueue call =>
    rcases enqueue_cases c call with ⟨⟨bit, hr⟩, -⟩ | ⟨f, hf, -⟩
    · simp only [UsbTx.step, hr]
      exact ⟨queue_dropFrame c bit, rfl, rfl⟩
    · simp [UsbTx.step, hf, enqueued] at h
  | process d => exact absurd h (process_not_refused dev c d q)

theorem History.step {c : Ctx} {tr : List Event} (h : History c tr) (op : Op δ) :
    History (step dev c op).1 (tr ++ (UsbTx.step dev c op).2) := by
  cases op with
  | enqueue call => exact h.enqueue call
  | process d => exact h.process dev d

theorem History.run (ops : List (Op δ)) :
    History (Mealy.run (UsbTx.step dev) UsbTx.init ops) (Mealy.outs (UsbTx.step dev) UsbTx.init ops) := by
  have := Mealy.history_run (J := History) (fun _ _ op h => h.step dev op) History.init ops
  simpa using this

/-- **Scheduling.** Over every run from `USBTX_Init`, whatever the device
layer answers: in each class what is sent is what was accepted, in order, up
to at most four frames that the queue holds; a frame goes out only when the
queues before its own are empty, so after everything accepted there before;
and a refused enqueue changes no queue, sequence number or pending bit. -/
theorem schedule_in_order (ops : List (Op δ)) :
    let c := Mealy.run (UsbTx.step dev) UsbTx.init ops
    let tr := Mealy.outs (UsbTx.step dev) UsbTx.init ops
    (∀ q, (sent q tr).map Frame.bytes <+: (accepted q tr).map Frame.bytes ∧
      accepted q tr = sent q tr ++ (c.queue q).toList ∧ (c.queue q).toList.length ≤ 4 ∧
      (c.queue q).tail.toNat = ((c.queue q).head.toNat + (c.queue q).count.toNat) % 4) ∧
    Prioritized tr ∧
    (∀ d q f, .sent q f ∈ (UsbTx.step dev c (.process d)).2 →
      ∀ q', q'.rank < q.rank → (c.queue q').toList = []) ∧
    ∀ op q, .refused q ∈ (UsbTx.step dev c op).2 →
      (∀ q', (UsbTx.step dev c op).1.queue q' = c.queue q') ∧
      (UsbTx.step dev c op).1.seq = c.seq ∧
      (UsbTx.step dev c op).1.pendingBitmap = c.pendingBitmap := by
  intro c tr
  have h : History c tr := History.run dev ops
  refine ⟨fun q => ⟨?_, h.conserved q, (c.queue q).length_toList_le, (c.queue q).tail_eq⟩, h.prioritized,
    fun d q f => process_sent dev c d, fun op q => step_refused dev c op⟩
  rw [h.conserved q, List.map_append]
  exact List.prefix_append _ _

end UsbMux.UsbTx
