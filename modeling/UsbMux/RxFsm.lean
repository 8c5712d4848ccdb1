/-
The USB receive path of `usb/usb_rx_fsm.c`: the raw ring the USB interrupt
fills and the state machine that takes bytes from it and assembles frames.

The machine's own fields (`UsbRx.Fsm`) are kept apart from the ring in front
of it, since one byte's processing never touches the ring. A call of
`VendorRouter_Dispatch` is a value (`UsbRx.Dispatch`): what the machine's
fields hold at the call. `USBRX_X` of the source is `x` here.
-/
import UsbMux.Proto
import UsbMux.RingBuffer

namespace UsbMux.UsbRx

open Endian

/-- `usb_rx_state_t`. -/
inductive State
  | idle | header | payload | dispatch | drop
deriving DecidableEq, Repr

/-- The fields of `usb_rx_ctx_t` but the ring. -/
structure Fsm where
  state : State
  frameBuf : Block UInt8 appUsbMaxFrameLen
  frameLen : UInt16
  frameTargetLen : UInt16
  dropRemaining : UInt16
  hdr : VpHdr
deriving DecidableEq

/-- `usb_rx_ctx_t`; the ring holds `raw_storage`. -/
structure Ctx where
  fsm : Fsm
  rawRb : RingBuffer
deriving DecidableEq

/-- A call of `VendorRouter_Dispatch`: the header it points to, the frame
buffer its payload points into, and how many bytes were collected. -/
structure Dispatch where
  hdr : VpHdr
  frameBuf : Block UInt8 appUsbMaxFrameLen
  frameLen : UInt16
deriving DecidableEq

namespace Dispatch

/-- The argument `&frame_buf[VP_HEADER_LEN]`. -/
def payload (d : Dispatch) : Ptr UInt8 := some (d.frameBuf.toList.drop VP.headerLen)

/-- The argument `hdr.payload_len`. -/
def payloadLen (d : Dispatch) : UInt16 := d.hdr.payloadLen

/-- The bytes collected for the frame. -/
def raw (d : Dispatch) : List UInt8 := d.frameBuf.toList.take d.frameLen.toNat

/-- The collected bytes that follow the header. -/
def body (d : Dispatch) : List UInt8 := d.raw.drop VP.headerLen

end Dispatch

/-! ## The header check -/

/-- `USBRX_ParseHeader` with both pointers set: the header it leaves in
`*hdr`, whatever it answers, and whether it answers 0. -/
def parseHeader (buf : List UInt8) : VpHdr × Bool :=
  let hdr := VP.deserializeHeader buf
  if hdr.magic ≠ VP.magic then (hdr, false)
  else if hdr.version ≠ VP.version then (hdr, false)
  else if hdr.headerLen ≠ UInt8.ofNat VP.headerLen then (hdr, false)
  else if hdr.totalLen ≠ hdr.headerLen.toUInt16 + hdr.payloadLen then (hdr, false)
  else if hdr.totalLen > UInt16.ofNat appUsbMaxFrameLen then (hdr, false)
  else
    let headerBytes := ((buf.take VP.headerLen).set VP.crc16Offset 0).set (VP.crc16Offset + 1) 0
    if VP.crc16 headerBytes ≠ hdr.headerCrc16 then (hdr, false)
    else (hdr, true)

/-! ## One byte -/

def resetFrame (f : Fsm) : Fsm :=
  { f with frameLen := 0, frameTargetLen := UInt16.ofNat VP.headerLen, dropRemaining := 0, state := .idle }

def shiftHeaderWindow (f : Fsm) : Fsm :=
  if f.frameLen = 0 then f
  else { f with
    frameBuf := f.frameBuf.write 0 (f.frameBuf.slice 1 (f.frameLen - 1).toNat)
    frameLen := f.frameLen - 1 }

/-- The first `if` of the loop body: a byte that arrives in `USB_RX_IDLE`
starts a header. -/
def startFrame (f : Fsm) : Fsm :=
  if f.state = .idle then
    { f with state := .header, frameLen := 0, frameTargetLen := UInt16.ofNat VP.headerLen }
  else f

/-- The `USB_RX_DROP` branch. -/
def dropByte (f : Fsm) : Fsm :=
  let f := if f.dropRemaining > 0 then { f with dropRemaining := f.dropRemaining - 1 } else f
  if f.dropRemaining = 0 then resetFrame f else f

/-- `frame_buf[frame_len++] = byte`. -/
def storeByte (f : Fsm) (byte : UInt8) : Fsm :=
  { f with frameBuf := f.frameBuf.put f.frameLen.toNat byte, frameLen := f.frameLen + 1 }

/-- The end of the loop body: a complete payload becomes a dispatch, and a
dispatch is made. -/
def finishByte (f : Fsm) : Fsm × Option Dispatch :=
  let f := if f.state = .payload ∧ f.frameLen ≥ f.frameTargetLen then { f with state := .dispatch } else f
  if f.state = .dispatch then (resetFrame f, some ⟨f.hdr, f.frameBuf, f.frameLen⟩) else (f, none)

/-- The loop body of `USBRX_Process` for one byte, with the call it makes. -/
def processByte (f : Fsm) (byte : UInt8) : Fsm × Option Dispatch :=
  let f := startFrame f
  if f.state = .drop then (dropByte f, none)
  else
    let f := storeByte f byte
    if f.state = .header then
      if f.frameLen < UInt16.ofNat VP.headerLen then (f, none)
      else
        let r := parseHeader f.frameBuf.toList
        let f := { f with hdr := r.1 }
        if !r.2 then (shiftHeaderWindow f, none)
        else
          let f := { f with frameTargetLen := f.hdr.totalLen }
          if f.frameTargetLen = UInt16.ofNat VP.headerLen then finishByte { f with state := .dispatch }
          else finishByte { f with state := .payload }
    else finishByte f

/-! ## The entry points -/

abbrev rawRingSize : UInt16 := 1024

def init : Ctx where
  fsm := resetFrame
    { state := .idle, frameBuf := Block.fill _ 0, frameLen := 0, frameTargetLen := 0,
      dropRemaining := 0, hdr := VpHdr.zero }
  rawRb := RingBuffer.init (List.replicate 1024 0) rawRingSize (by decide) (by rw [List.length_replicate]; rfl)

/-- `USBRX_PushBytes`; what the ring does not take is gone, since the count
`RingBuffer_Write` answers is ignored. -/
def pushBytes (c : Ctx) (data : Ptr UInt8) (len : UInt16) : Ctx :=
  if data.isNone ∨ len = 0 then c
  else { c with rawRb := (c.rawRb.write data len).1 }

def readByte (c : Ctx) : Option (UInt8 × Ctx) :=
  c.rawRb.popByte.map fun p => (p.1, { c with rawRb := p.2 })

/-- The loop of `USBRX_Process`, `n` turns at most. Every turn is reported to
`obs`: the byte it took and the call it made, if any. -/
def processLoop {σ : Type} (obs : σ → UInt8 → Option Dispatch → σ) : Nat → Ctx → σ → Ctx × σ
  | 0, c, s => (c, s)
  | n + 1, c, s =>
    match readByte c with
    | none => (c, s)
    | some (byte, c) =>
      let r := processByte c.fsm byte
      processLoop obs n { c with fsm := r.1 } (obs s byte r.2)

/-- `USBRX_Process`. The ring holds fewer bytes than its size, so the loop
ends because the ring is empty (`process_eq`), never for lack of turns. -/
def process {σ : Type} (obs : σ → UInt8 → Option Dispatch → σ) (c : Ctx) (s : σ) : Ctx × σ :=
  processLoop obs c.rawRb.size.toNat c s

/-! ## The loop as a fold over the ring's bytes -/

/-- What `obs` makes of the bytes `bs` taken one after the other. -/
def observe {σ : Type} (obs : σ → UInt8 → Option Dispatch → σ) : Fsm → List UInt8 → σ → Fsm × σ
  | f, [], s => (f, s)
  | f, b :: bs, s => observe obs (processByte f b).1 bs (obs s b (processByte f b).2)

theorem processLoop_eq {σ : Type} (obs : σ → UInt8 → Option Dispatch → σ) (n : Nat) (c : Ctx) (s : σ)
    (hn : c.rawRb.toList.length < n) :
    let r := processLoop obs n c s
    (r.1.fsm, r.2) = observe obs c.fsm c.rawRb.toList s ∧ r.1.rawRb.toList = [] ∧
      r.1.rawRb.size = c.rawRb.size := by
  induction n generalizing c s with
  | zero => omega
  | succ n ih =>
    rw [processLoop]
    rcases c.rawRb.popByte_toList with ⟨hp, hl⟩ | ⟨b, rb, hp, hl, hs⟩
    · simp [readByte, hp, hl, observe]
    · have ih := ih { fsm := (processByte c.fsm b).1, rawRb := rb } (obs s b (processByte c.fsm b).2)
        (by simp [hl] at hn; simpa using hn)
      simp only [readByte, hp, Option.map_some, hl, observe]
      exact ⟨ih.1, ih.2.1, ih.2.2.trans hs⟩

/-- **`USBRX_Process` empties the ring**, and its turns are the bytes that
were in it, in order. -/
theorem process_eq {σ : Type} (obs : σ → UInt8 → Option Dispatch → σ) (c : Ctx) (s : σ) :
    ((process obs c s).1.fsm, (process obs c s).2) = observe obs c.fsm c.rawRb.toList s ∧
      (process obs c s).1.rawRb.toList = [] ∧ (process obs c s).1.rawRb.size = c.rawRb.size :=
  processLoop_eq obs _ c s c.rawRb.length_toList_lt

theorem pushBytes_toList (c : Ctx) {l : List UInt8} {len : UInt16} (hl : len.toNat ≤ l.length) :
    (pushBytes c (some l) len).rawRb.toList =
      c.rawRb.toList ++ (l.take len.toNat).take (c.rawRb.size.toNat - 1 - c.rawRb.toList.length) ∧
    (pushBytes c (some l) len).rawRb.size = c.rawRb.size ∧
    (pushBytes c (some l) len).fsm = c.fsm := by
  simp only [pushBytes, Option.isNone_some, Bool.false_eq_true, false_or]
  split
  · next h => subst h; simp
  · obtain ⟨h1, h2, -⟩ := c.rawRb.write_toList hl
    exact ⟨h1, h2, rfl⟩

end UsbMux.UsbRx
