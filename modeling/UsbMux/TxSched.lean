/-
The transmit scheduler of `usb/usb_tx_sched.c`: three queues of four frames,
one sequence counter, the bitmaps the host is told about, and the step that
hands one hint and one frame to the USB device layer.

A queue carries what its index arithmetic keeps (`UsbTx.Queue`), and its
frames are read off as a list (`UsbTx.Queue.toList`). The device layer is a
parameter here (`UsbTx.UsbDevice`); its answers are arbitrary. `USBTX_X` of
the source is `x` here.
-/
import UsbMux.Proto
import UsbMux.Lib.Circular

namespace UsbMux.UsbTx

abbrev queueDepth : Nat := 4

@[simp] theorem queueDepth_eq : queueDepth = 4 := rfl

/-- `usbtx_frame_t`. -/
structure Frame where
  len : UInt16
  data : Block UInt8 appUsbMaxFrameLen
deriving DecidableEq

/-- The bytes `USBDEV_SendFrame(frame->data, frame->len)` sends. -/
def Frame.bytes (f : Frame) : List UInt8 := f.data.toList.take f.len.toNat

/-- A slot after `memset`. -/
def Frame.zero : Frame := ⟨0, Block.fill _ 0⟩

/-- `usbtx_queue_t` with the relation between its indices. -/
structure Queue where
  slots : Block Frame queueDepth
  head : UInt8
  tail : UInt8
  count : UInt8
  head_lt : head.toNat < queueDepth
  count_le : count.toNat ≤ queueDepth
  tail_eq : tail.toNat = (head.toNat + count.toNat) % queueDepth
deriving DecidableEq

namespace Queue

/-- An empty queue, as `memset` leaves it. -/
def empty : Queue := ⟨Block.fill _ .zero, 0, 0, 0, by decide, by decide, by decide⟩

/-- The queued frames, oldest first. -/
def toList (q : Queue) : List Frame := Circular.view q.slots.toList q.head.toNat q.count.toNat

/-- The index that follows `i`: `(uint8_t)((i + 1U) % USBTX_QUEUE_DEPTH)`. -/
def next (i : UInt8) : UInt8 := UInt8.ofNat ((i.toNat + 1) % queueDepth)

theorem next_toNat (i : UInt8) : (next i).toNat = (i.toNat + 1) % queueDepth := by
  have := Nat.mod_lt (i.toNat + 1) (show 0 < 4 by decide)
  simp only [next, queueDepth_eq, UInt8.toNat_ofNat']
  omega

/-- `&queue->slots[queue->tail]`. -/
def slot (q : Queue) : Frame := q.slots.toList.getD q.tail.toNat .zero

/-- The slot at the tail written, the tail and the count moved on. -/
def push (q : Queue) (f : Frame) (h : q.count < UInt8.ofNat queueDepth) : Queue where
  slots := q.slots.put q.tail.toNat f
  head := q.head
  tail := next q.tail
  count := q.count + 1
  head_lt := q.head_lt
  count_le := by
    have := UInt8.lt_iff_toNat_lt.mp h
    simp at this ⊢; omega
  tail_eq := by
    have := UInt8.lt_iff_toNat_lt.mp h
    have ht := q.tail_eq
    have hc : (q.count + 1).toNat = q.count.toNat + 1 := by simp at this ⊢; omega
    rw [next_toNat, hc]
    simp only [queueDepth_eq] at ht ⊢; omega

/-- `USBTX_PeekQueue`. -/
def peek (q : Queue) : Option Frame :=
  if q.count = 0 then none else some (q.slots.toList.getD q.head.toNat .zero)

/-- The head and the count moved on, on a queue that holds a frame. -/
def advance (q : Queue) (h : q.count ≠ 0) : Queue where
  slots := q.slots
  head := next q.head
  tail := q.tail
  count := q.count - 1
  head_lt := by rw [next_toNat]; exact Nat.mod_lt _ (by decide)
  count_le := by
    have := q.count_le
    have hp : 1 ≤ q.count.toNat := Nat.one_le_iff_ne_zero.mpr fun h0 => h (by simpa using UInt8.toNat_inj.mp h0)
    rw [UInt8.toNat_sub_of_le _ _ (UInt8.le_iff_toNat_le.mpr (by simpa using hp))]
    simp at this ⊢; omega
  tail_eq := by
    have ht := q.tail_eq
    have hp : 1 ≤ q.count.toNat := Nat.one_le_iff_ne_zero.mpr fun h0 => h (by simpa using UInt8.toNat_inj.mp h0)
    rw [next_toNat, UInt8.toNat_sub_of_le _ _ (UInt8.le_iff_toNat_le.mpr (by simpa using hp)), ht]
    simp only [queueDepth_eq, UInt8.toNat_one]; omega

/-! ## The queue as a list of frames -/

theorem length_toList (q : Queue) : q.toList.length = q.count.toNat :=
  Circular.length_view (by simpa using q.count_le)

theorem length_toList_le (q : Queue) : q.toList.length ≤ 4 := q.length_toList ▸ q.count_le

@[simp] theorem toList_empty : empty.toList = [] := rfl

theorem count_eq_zero (q : Queue) : q.count = 0 ↔ q.toList = [] := by
  rw [← List.length_eq_zero_iff, q.length_toList, ← UInt8.toNat_inj]
  simp

theorem push_toList (q : Queue) (f : Frame) (h : q.count < UInt8.ofNat queueDepth) :
    (q.push f h).toList = q.toList ++ [f] := by
  have hlt := UInt8.lt_iff_toNat_lt.mp h
  have hc : (q.count + 1).toNat = q.count.toNat + 1 := by simp at hlt ⊢; omega
  have hlen : q.slots.toList.length = 4 := q.slots.toList_length
  simp only [toList, push, hc, Block.toList_put, q.tail_eq]
  rw [← Circular.view_push (by rw [hlen]; simpa using hlt), hlen]

theorem peek_eq (q : Queue) : q.peek = q.toList.head? := by
  simp only [peek]
  split
  · next h => simp [(q.count_eq_zero).mp h]
  · next h =>
    have hp : 1 ≤ q.count.toNat := Nat.one_le_iff_ne_zero.mpr fun h0 => h (by simpa using UInt8.toNat_inj.mp h0)
    have hlen : q.slots.toList.length = 4 := q.slots.toList_length
    have hle := q.count_le
    have hhd := q.head_lt
    obtain ⟨k, hk⟩ := Nat.exists_eq_add_of_le' hp
    rw [toList, hk, Circular.view_pop (by simp at hle; omega) .zero, List.head?_cons]
    simp only [hlen, Nat.mod_eq_of_lt hhd]

theorem advance_toList (q : Queue) (h : q.count ≠ 0) : (q.advance h).toList = q.toList.tail := by
  have hp : 1 ≤ q.count.toNat := Nat.one_le_iff_ne_zero.mpr fun h0 => h (by simpa using UInt8.toNat_inj.mp h0)
  have hlen : q.slots.toList.length = 4 := q.slots.toList_length
  have hle := q.count_le
  obtain ⟨k, hk⟩ := Nat.exists_eq_add_of_le' hp
  have hc : (q.count - 1).toNat = k := by
    rw [UInt8.toNat_sub_of_le _ _ (UInt8.le_iff_toNat_le.mpr (by simpa using hp))]; simp; omega
  rw [toList, toList, hk, Circular.view_pop (by simp at hle; omega) .zero, List.tail_cons]
  simp only [advance, hc, next_toNat, hlen]

end Queue

/-! ## The scheduler's state -/

/-- The three queues, each with the bit that stands for it in both bitmaps. -/
inductive Class
  | rsp | evt | data
deriving DecidableEq, Repr

/-- `USBTX_PENDING_RSP`, `USBTX_PENDING_EVT`, `USBTX_PENDING_DATA`. -/
def Class.bit : Class → UInt16
  | .rsp => 0x0001
  | .evt => 0x0002
  | .data => 0x0004

/-- `usbtx_ctx_t`. -/
structure Ctx where
  rspQ : Queue
  evtQ : Queue
  dataQ : Queue
  seq : UInt16
  pendingBitmap : UInt16
  droppedBitmap : UInt16
  hintDirty : UInt8
deriving DecidableEq

namespace Ctx

/-- The queue of a class. -/
def queue (c : Ctx) : Class → Queue
  | .rsp => c.rspQ
  | .evt => c.evtQ
  | .data => c.dataQ

/-- One queue replaced. -/
def setQueue (c : Ctx) (k : Class) (q : Queue) : Ctx :=
  match k with
  | .rsp => { c with rspQ := q }
  | .evt => { c with evtQ := q }
  | .data => { c with dataQ := q }

@[simp] theorem queue_setQueue_self (c : Ctx) (k : Class) (q : Queue) : (c.setQueue k q).queue k = q := by
  cases k <;> rfl

theorem queue_setQueue_of_ne (c : Ctx) {k k' : Class} (q : Queue) (h : k' ≠ k) :
    (c.setQueue k q).queue k' = c.queue k' := by
  cases k <;> cases k' <;> first | rfl | exact absurd rfl h

end Ctx

def init : Ctx where
  rspQ := .empty
  evtQ := .empty
  dataQ := .empty
  seq := 1
  pendingBitmap := 0
  droppedBitmap := 0
  hintDirty := 1

/-- The bitmap `USBTX_UpdatePendingBitmap` computes. -/
def pending (c : Ctx) : UInt16 :=
  let pending := 0
  let pending := if c.rspQ.count > 0 then pending ||| Class.rsp.bit else pending
  let pending := if c.evtQ.count > 0 then pending ||| Class.evt.bit else pending
  if c.dataQ.count > 0 then pending ||| Class.data.bit else pending

def updatePendingBitmap (c : Ctx) : Ctx :=
  if c.pendingBitmap ≠ pending c then { c with pendingBitmap := pending c, hintDirty := 1 } else c

@[simp] theorem queue_updatePendingBitmap (c : Ctx) (k : Class) :
    (updatePendingBitmap c).queue k = c.queue k := by
  simp only [updatePendingBitmap]; split <;> cases k <;> rfl

@[simp] theorem seq_updatePendingBitmap (c : Ctx) : (updatePendingBitmap c).seq = c.seq := by
  simp only [updatePendingBitmap]; split <;> rfl

/-! ## Enqueueing -/

/-- The header `USBTX_QueueFrame` fills in, before it is encoded. -/
def requestHdr (seq : UInt16) (chType chId : UInt8) (msgType : VpMsgType) (opcode : UInt8)
    (refSeq : UInt16) (status : VpStatus) (payloadLen : UInt16) : VpHdr :=
  { VpHdr.zero with
    seq := seq
    refSeq := refSeq
    chType := chType
    chId := chId
    msgType := msgType.code
    opcode := opcode
    status := status.code
    payloadLen := payloadLen }

def serializeHeader {n : Nat} (dst : Block UInt8 n) (hdr : VpHdr) : Block UInt8 n :=
  ⟨VP.serializeHeader dst.toList hdr hdr.headerCrc16,
    (VP.length_serializeHeader _ _ _).trans dst.toList_length⟩

@[simp] theorem toList_serializeHeader {n : Nat} (dst : Block UInt8 n) (hdr : VpHdr) :
    (serializeHeader dst hdr).toList = VP.serializeHeader dst.toList hdr hdr.headerCrc16 :=
  List.Vector.toList_mk _ _

/-- The slot after `USBTX_QueueFrame` has filled it; a payload that is not
there leaves the bytes after the header as they were. -/
def writeFrame (frame : Frame) (hdr : VpHdr) (payload : Ptr UInt8) (payloadLen : UInt16) : Frame :=
  let data := serializeHeader frame.data hdr
  let data := if payload.isSome ∧ payloadLen > 0 then
      data.write VP.headerLen (payload.cells payloadLen.toNat) else data
  ⟨hdr.totalLen, data⟩

/-- What a refused frame changes. -/
def dropFrame (c : Ctx) (droppedBit : UInt16) : Ctx :=
  { c with droppedBitmap := c.droppedBitmap ||| droppedBit, hintDirty := 1 }

/-- `USBTX_QueueFrame`, with the queue it is given named by its class. The
answer -1 is `none`; the answer 0 comes with the frame the slot now holds.
`VP_EncodeHeader` cannot fail on a header that is there. -/
def queueFrame (c : Ctx) (queue : Class) (droppedBit : UInt16) (chType chId : UInt8) (msgType : VpMsgType)
    (opcode : UInt8) (refSeq : UInt16) (status : VpStatus) (payload : Ptr UInt8) (payloadLen : UInt16) :
    Ctx × Option Frame :=
  if payloadLen > UInt16.ofNat (appUsbMaxFrameLen - VP.headerLen) then (dropFrame c droppedBit, none)
  else if h : (c.queue queue).count ≥ UInt8.ofNat queueDepth then (dropFrame c droppedBit, none)
  else
    let hdr := requestHdr c.seq chType chId msgType opcode refSeq status payloadLen
    let frame := writeFrame (c.queue queue).slot (VP.encodeHeader hdr) payload payloadLen
    let c := { c with seq := c.seq + 1 }.setQueue queue ((c.queue queue).push frame (UInt8.not_le.mp h))
    (updatePendingBitmap c, some frame)

/-- `USBTX_QueueRsp` for a request that is there. -/
def queueRsp (c : Ctx) (reqHdr : VpHdr) (status : VpStatus) (payload : Ptr UInt8) (payloadLen : UInt16) :
    Ctx × Option Frame :=
  queueFrame c .rsp Class.rsp.bit reqHdr.chType reqHdr.chId .rsp reqHdr.opcode reqHdr.seq status payload
    payloadLen

def queueEvt (c : Ctx) (chType chId opcode : UInt8) (payload : Ptr UInt8) (payloadLen : UInt16) :
    Ctx × Option Frame :=
  queueFrame c .evt Class.evt.bit chType chId .evt opcode 0 .ok payload payloadLen

def queueData (c : Ctx) (chType chId : UInt8) (payload : Ptr UInt8) (payloadLen : UInt16) :
    Ctx × Option Frame :=
  queueFrame c .data Class.data.bit chType chId .data 0 0 .ok payload payloadLen

/-- A call of one of the three. -/
inductive Enqueue
  | rsp (reqHdr : VpHdr) (status : VpStatus) (payload : Ptr UInt8) (payloadLen : UInt16)
  | evt (chType chId opcode : UInt8) (payload : Ptr UInt8) (payloadLen : UInt16)
  | data (chType chId : UInt8) (payload : Ptr UInt8) (payloadLen : UInt16)
deriving DecidableEq

/-- The queue a call is for. -/
def Enqueue.queue : Enqueue → Class
  | .rsp .. => .rsp
  | .evt .. => .evt
  | .data .. => .data

/-- The call made. -/
def enqueue (c : Ctx) : Enqueue → Ctx × Option Frame
  | .rsp reqHdr status payload payloadLen => queueRsp c reqHdr status payload payloadLen
  | .evt chType chId opcode payload payloadLen => queueEvt c chType chId opcode payload payloadLen
  | .data chType chId payload payloadLen => queueData c chType chId payload payloadLen

/-! ## Sending -/

/-- The part of `usb_dev_ll.h` the scheduler calls, over a device state `δ`.
The two senders say whether they accepted, that is answered 0. -/
structure UsbDevice (δ : Type) where
  isConfigured : δ → Bool
  canSendHint : δ → Bool
  canSendFrame : δ → Bool
  sendHint : δ → VpIrqHint → δ × Bool
  sendFrame : δ → Ptr UInt8 → UInt16 → δ × Bool

/-- What the scheduler's operations did: a frame queued or refused, and the
calls the device layer accepted. -/
inductive Event
  | queued (queue : Class) (frame : Frame)
  | refused (queue : Class)
  | sent (queue : Class) (frame : Frame)
  | hint (hint : VpIrqHint)
deriving DecidableEq

/-- `USBTX_PopQueue` on the queue of a class. -/
def popQueue (c : Ctx) (queue : Class) : Ctx :=
  if h : (c.queue queue).count = 0 then c
  else updatePendingBitmap (c.setQueue queue ((c.queue queue).advance h))

variable {δ : Type} (dev : UsbDevice δ)

def sendHintIfNeeded (c : Ctx) (d : δ) : Ctx × δ × List Event :=
  if c.hintDirty = 0 ∨ dev.canSendHint d = false then (c, d, [])
  else
    let hint : VpIrqHint :=
      { version := VP.irqHintVersion
        urgentFlags := 0
        pendingBitmap := c.pendingBitmap
        droppedBitmap := c.droppedBitmap
        reserved := 0 }
    match dev.sendHint d hint with
    | (d, true) => ({ c with hintDirty := 0, droppedBitmap := 0 }, d, [.hint hint])
    | (d, false) => (c, d, [])

/-- The three lines `USBTX_SendNextFrame` has for a class whose queue holds `frame`. -/
def sendFrom (c : Ctx) (d : δ) (queue : Class) (frame : Frame) : Ctx × δ × List Event :=
  match dev.sendFrame d (some frame.data.toList) frame.len with
  | (d, true) => (popQueue c queue, d, [.sent queue frame])
  | (d, false) => (c, d, [])

def sendNextFrame (c : Ctx) (d : δ) : Ctx × δ × List Event :=
  if dev.canSendFrame d = false then (c, d, [])
  else match c.rspQ.peek with
    | some frame => sendFrom dev c d .rsp frame
    | none => match c.evtQ.peek with
      | some frame => sendFrom dev c d .evt frame
      | none => match c.dataQ.peek with
        | some frame => sendFrom dev c d .data frame
        | none => (c, d, [])

def process (c : Ctx) (d : δ) : Ctx × δ × List Event :=
  if dev.isConfigured d = false then (c, d, [])
  else
    let r := sendHintIfNeeded dev c d
    let s := sendNextFrame dev r.1 r.2.1
    (s.1, s.2.1, r.2.2 ++ s.2.2)

end UsbMux.UsbTx
