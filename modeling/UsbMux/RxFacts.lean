/-
The receive state machine refines the frame format of `Framing`: whatever
bytes it has been given, its fields stand for the remainder the format still
waits on (`Sim`), and the calls it has made are the frames the format finds
(`deliver_run`). One byte is one step of both (`processByte_sim`, with a case
for each state); everything about streams follows from the format's lemmas.
-/
import UsbMux.Lib.Mealy
import UsbMux.Lib.Framing
import UsbMux.RxFsm

namespace UsbMux.UsbRx

open Framing

/-! ## What the header check accepts -/

theorem deserializeHeader_take (buf : List UInt8) :
    VP.deserializeHeader (buf.take VP.headerLen) = VP.deserializeHeader buf := by
  simp [VP.deserializeHeader, Endian.readLe16, VP.magicOffset, VP.versionOffset,
    VP.headerLenOffset, VP.totalLenOffset, VP.seqOffset, VP.refSeqOffset, VP.chTypeOffset,
    VP.chIdOffset, VP.msgTypeOffset, VP.opcodeOffset, VP.flagsOffset, VP.statusOffset,
    VP.payloadLenOffset, VP.crc16Offset, VP.reservedOffset]

theorem parseHeader_take (buf : List UInt8) : parseHeader (buf.take VP.headerLen) = parseHeader buf := by
  simp [parseHeader, deserializeHeader_take, List.take_take]

/-- Whatever the check answers, it leaves the header as it reads. -/
theorem parseHeader_fst (buf : List UInt8) : (parseHeader buf).1 = VP.deserializeHeader buf := by
  simp only [parseHeader]; split_ifs <;> rfl

/-- What the check accepts, condition by condition; the sum is the 16-bit one. -/
theorem parseHeader_accepts (buf : List UInt8) :
    (parseHeader buf).2 = true ↔
      (parseHeader buf).1.magic = VP.magic ∧ (parseHeader buf).1.version = VP.version ∧
      (parseHeader buf).1.headerLen = 24 ∧
      (parseHeader buf).1.totalLen = 24 + (parseHeader buf).1.payloadLen ∧
      (parseHeader buf).1.totalLen ≤ 512 ∧
      VP.crc16 (((buf.take VP.headerLen).set VP.crc16Offset 0).set (VP.crc16Offset + 1) 0) =
        (parseHeader buf).1.headerCrc16 := by
  rw [parseHeader_fst]
  simp only [parseHeader]
  split_ifs with h1 h2 h3 h4 h5 h6
  · simp [h1]
  · simp [h2]
  · simp only [false_iff]; rintro ⟨-, -, h, -⟩; exact h3 h
  · simp only [false_iff]; rintro ⟨-, -, h, h', -⟩; rw [h] at h4; exact h4 h'
  · simp only [false_iff]; rintro ⟨-, -, -, -, h, -⟩; exact UInt16.not_le.mpr h5 h
  · simp [h6]
  · simp only [not_not, ne_eq] at h1 h2 h3 h4 h5 h6
    exact iff_of_true rfl ⟨h1, h2, h3, by rw [h4, h3]; rfl, UInt16.not_lt.mp h5, h6⟩

/-- The frame format the machine implements: windows of 24 bytes, headers
that `USBRX_ParseHeader` accepts, frames of `total_len` bytes, or of the
header alone when `total_len` is shorter. -/
def format : Format UInt8 VpHdr where
  window := VP.headerLen
  window_pos := by decide
  accept w := if (parseHeader w).2 then some (parseHeader w).1 else none
  size h := max VP.headerLen h.totalLen.toNat
  window_le h := le_max_left _ _

@[simp] theorem format_window : format.window = 24 := rfl
@[simp] theorem format_size (h : VpHdr) : format.size h = max 24 h.totalLen.toNat := rfl

theorem accept_iff {w : List UInt8} {h : VpHdr} :
    format.accept w = some h ↔ (parseHeader w).2 = true ∧ (parseHeader w).1 = h := by
  simp only [format]
  split
  · next hp => simp [hp]
  · next hp => simp [hp]

theorem accept_none {w : List UInt8} : format.accept w = none ↔ (parseHeader w).2 = false := by
  simp [format]

theorem accept_take (buf : List UInt8) : format.accept (buf.take 24) = format.accept buf := by
  simp only [format, parseHeader_take]

/-- **Round trip.** The check accepts an encoded header whose payload fits a
frame, and reads it back. -/
theorem accept_encoded (hdr : VpHdr) (hp : hdr.payloadLen.toNat ≤ 488) (t : List UInt8) :
    format.accept ((VP.encodeHeader hdr).bytes (VP.encodeHeader hdr).headerCrc16 ++ t) =
      some (VP.encodeHeader hdr) := by
  have hread : VP.deserializeHeader ((VP.encodeHeader hdr).bytes (VP.encodeHeader hdr).headerCrc16 ++ t) =
      VP.encodeHeader hdr := VP.deserializeHeader_own ..
  have htake : ((VP.encodeHeader hdr).bytes (VP.encodeHeader hdr).headerCrc16 ++ t).take VP.headerLen =
      (VP.encodeHeader hdr).bytes (VP.encodeHeader hdr).headerCrc16 := List.take_left' (VpHdr.length_bytes _ _)
  have hcleared : (((VP.encodeHeader hdr).bytes (VP.encodeHeader hdr).headerCrc16).set VP.crc16Offset 0).set
      (VP.crc16Offset + 1) 0 = (VP.encodeHeader hdr).bytes 0 := rfl
  rw [accept_iff, parseHeader_accepts, parseHeader_fst, hread, htake, hcleared]
  have hcrc := VP.encodeHeader_crc hdr
  refine ⟨⟨rfl, rfl, rfl, VP.encodeHeader_totalLen hdr, ?_, hcrc.symm⟩, rfl⟩
  rw [UInt16.le_iff_toNat_le, VP.encodeHeader_totalLen, UInt16.toNat_add]
  simp; omega

/-- An accepted header's length is the truncated sum and at most 512. -/
theorem accept_totalLen {w : List UInt8} {h : VpHdr} (hw : format.accept w = some h) :
    h.totalLen = 24 + h.payloadLen ∧ h.totalLen.toNat ≤ 512 := by
  obtain ⟨ha, rfl⟩ := accept_iff.mp hw
  obtain ⟨-, -, -, h4, h5, -⟩ := (parseHeader_accepts w).mp ha
  exact ⟨h4, by simpa using UInt16.le_iff_toNat_le.mp h5⟩

/-! ## What one byte does -/

theorem toNat_pred {n : UInt16} (h : n ≠ 0) : (n - 1).toNat = n.toNat - 1 := by
  have hpos : 1 ≤ n.toNat := Nat.pos_of_ne_zero fun h0 => h (UInt16.toNat_inj.mp h0)
  exact UInt16.toNat_sub_of_le _ _ (UInt16.le_iff_toNat_le.mpr hpos)

theorem startFrame_of_ne {f : Fsm} (h : f.state ≠ .idle) : startFrame f = f := if_neg h

theorem startFrame_startFrame (f : Fsm) : startFrame (startFrame f) = startFrame f := by
  unfold startFrame
  split
  · rfl
  · rfl

theorem processByte_startFrame (f : Fsm) (b : UInt8) : processByte (startFrame f) b = processByte f b := by
  simp only [processByte, startFrame_startFrame]

/-- A byte in the header state: one more byte of a window, a window that is no
header, or a header that is accepted, whatever length it gives. -/
theorem processByte_header {f : Fsm} (hs : f.state = .header) (b : UInt8) :
    let g := storeByte f b
    let r := parseHeader g.frameBuf.toList
    (g.frameLen < UInt16.ofNat VP.headerLen ∧ processByte f b = (g, none)) ∨
      (¬ g.frameLen < UInt16.ofNat VP.headerLen ∧ r.2 = false ∧
        processByte f b = (shiftHeaderWindow { g with hdr := r.1 }, none)) ∨
      (¬ g.frameLen < UInt16.ofNat VP.headerLen ∧ r.2 = true ∧ ∃ s : State,
        (s = .dispatch ∧ r.1.totalLen = UInt16.ofNat VP.headerLen ∨ s = .payload) ∧
        processByte f b = finishByte { g with hdr := r.1, frameTargetLen := r.1.totalLen, state := s }) := by
  intro g r
  have hstart : startFrame f = f := startFrame_of_ne (by rw [hs]; decide)
  have hsb : (storeByte f b).state = .header := hs
  simp only [processByte, hstart, hs, hsb, reduceCtorEq, if_false, if_true]
  by_cases h24 : g.frameLen < UInt16.ofNat VP.headerLen
  · exact .inl ⟨h24, if_pos h24⟩
  rw [if_neg h24]
  cases hok : (parseHeader (storeByte f b).frameBuf.toList).2 with
  | false => exact .inr (.inl ⟨h24, rfl, by rw [show g.state = .header from hsb]; rfl⟩)
  | true =>
    refine .inr (.inr ⟨h24, rfl, ?_⟩)
    by_cases ht : r.1.totalLen = UInt16.ofNat VP.headerLen
    · exact ⟨.dispatch, .inl ⟨rfl, ht⟩, if_pos ht⟩
    · exact ⟨.payload, .inr rfl, if_neg ht⟩

theorem processByte_payload {f : Fsm} (hs : f.state = .payload) (b : UInt8) :
    processByte f b = finishByte (storeByte f b) := by
  have hstart : startFrame f = f := startFrame_of_ne (by rw [hs]; decide)
  have hsb : (storeByte f b).state = .payload := hs
  simp only [processByte, hstart, hs, hsb, reduceCtorEq, if_false]

/-! ## The machine and the format, byte by byte -/

/-- The first `frame_len` cells of the frame buffer hold `r`. -/
def Collects (f : Fsm) (r : List UInt8) : Prop :=
  f.frameLen.toNat = r.length ∧ f.frameBuf.toList.take r.length = r

/-- The machine's fields stand for the remainder `r`. -/
inductive Sim : Fsm → List UInt8 → Prop
  | idle {f} (hs : f.state = .idle) : Sim f []
  | header {f r} (hs : f.state = .header) (hc : Collects f r) (hlt : r.length < 24) : Sim f r
  | payload {f r} (hs : f.state = .payload) (hc : Collects f r) (h24 : 24 ≤ r.length)
      (ha : format.accept r = some f.hdr) (ht : f.frameTargetLen = f.hdr.totalLen)
      (hlt : r.length < f.hdr.totalLen.toNat) : Sim f r

theorem Sim.pending {f : Fsm} {r : List UInt8} (h : Sim f r) : Pending format r := by
  cases h with
  | idle => exact pending_nil
  | header _ _ hlt => exact pending_of_short hlt
  | payload _ _ h24 ha _ hlt =>
    exact .inr ⟨_, by rw [format_window, accept_take]; exact ha, by rw [format_size]; omega⟩

/-- The bytes of an unfinished frame the machine holds. -/
def held (f : Fsm) : List UInt8 := if f.state = .idle then [] else f.frameBuf.toList.take f.frameLen.toNat

theorem Sim.held {f : Fsm} {r : List UInt8} (h : Sim f r) : UsbRx.held f = r := by
  cases h with
  | idle hs => simp [UsbRx.held, hs]
  | header hs hc _ => simp [UsbRx.held, hs, hc.1, hc.2]
  | payload hs hc _ _ _ _ => simp [UsbRx.held, hs, hc.1, hc.2]

theorem Collects.storeByte {f : Fsm} {r : List UInt8} (hc : Collects f r) (hlt : r.length < 512)
    (b : UInt8) : Collects (storeByte f b) (r ++ [b]) := by
  obtain ⟨h1, h2⟩ := hc
  have hl : (f.frameLen + 1).toNat = r.length + 1 := by simp [h1]; omega
  refine ⟨by simpa [UsbRx.storeByte] using hl, ?_⟩
  rw [List.length_append, List.length_singleton]
  simp only [UsbRx.storeByte, h1]
  rw [Block.take_put _ _ hlt, h2]

theorem Collects.shiftHeaderWindow {f : Fsm} {a : UInt8} {t : List UInt8} (hc : Collects f (a :: t))
    (hlt : t.length < 512) : Collects (shiftHeaderWindow f) t := by
  obtain ⟨h1, h2⟩ := hc
  have hne : f.frameLen ≠ 0 := fun h0 => by simp [h0] at h1
  have hl : (f.frameLen - 1).toNat = t.length := by rw [toNat_pred hne, h1]; simp
  have hs : f.frameBuf.slice 1 t.length = t := by
    rw [Block.slice, List.take_drop, add_comm, ← List.length_cons (a := a), h2]
    rfl
  refine ⟨by simpa [UsbRx.shiftHeaderWindow, hne] using hl, ?_⟩
  simp only [UsbRx.shiftHeaderWindow, if_neg hne, hl, hs]
  exact f.frameBuf.take_write rfl hlt.le

/-- The check sees a full window, and nothing else of the buffer. -/
theorem Collects.full {f : Fsm} {r : List UInt8} (hc : Collects f r) (h : ¬ f.frameLen < UInt16.ofNat VP.headerLen)
    (hle : r.length ≤ 24) : r.length = 24 := by
  have h24 := UInt16.le_iff_toNat_le.mp (UInt16.not_lt.mp h)
  rw [hc.1] at h24
  exact Nat.le_antisymm hle h24

theorem Collects.parseHeader {f : Fsm} {r : List UInt8} (hc : Collects f r) (h : r.length = 24) :
    parseHeader f.frameBuf.toList = UsbRx.parseHeader r := by
  rw [← parseHeader_take, VP.headerLen_eq, ← h, hc.2]

/-- What one byte's processing has to give, when the machine stood for `r`:
the machine stands for the new remainder, and the call it made is the frame
the byte completed. -/
def Step (r : List UInt8) (b : UInt8) (p : Fsm × Option Dispatch) : Prop :=
  Sim p.1 (rest format (r ++ [b])) ∧
    ∀ pre, located pre (tokens format (r ++ [b])) =
      p.2.toList.map fun d => (pre ++ (r ++ [b]), d.hdr, d.raw)

theorem Step.quiet {r : List UInt8} {b : UInt8} {f : Fsm} (hp : Pending format (r ++ [b]))
    (h : Sim f (r ++ [b])) : Step r b (f, none) := by
  refine ⟨by rwa [rest_of_pending hp], ?_⟩
  intro pre
  rw [tokens_of_pending hp]
  rfl

/-- The end of the loop body on a frame whose last byte has come. -/
theorem Step.dispatch {r : List UInt8} {b : UInt8} {f : Fsm}
    (hs : f.state = .dispatch ∨ f.state = .payload ∧ f.frameLen ≥ f.frameTargetLen)
    (hc : Collects f (r ++ [b])) (hl : (r ++ [b]).length = format.size f.hdr)
    (ha : format.accept (r ++ [b]) = some f.hdr) : Step r b (finishByte f) := by
  obtain ⟨h1, h2⟩ := single_frame hl (by rwa [format_window, accept_take])
  have hfin : finishByte f = (resetFrame (if f.state = .payload ∧ f.frameLen ≥ f.frameTargetLen then
      { f with state := .dispatch } else f), some ⟨f.hdr, f.frameBuf, f.frameLen⟩) := by
    simp only [finishByte]
    rcases hs with hs | hs
    · simp [hs]
    · simp [hs]
  rw [Step, h1, h2, hfin]
  refine ⟨.idle rfl, ?_⟩
  intro pre
  have hraw : f.frameBuf.toList.take f.frameLen.toNat = r ++ [b] := by rw [hc.1, hc.2]
  simp [located, Dispatch.raw, hraw]

/-- The end of the loop body on a frame that still misses bytes. -/
theorem Step.collect {r : List UInt8} {b : UInt8} {f : Fsm} (hs : f.state = .payload)
    (hc : Collects f (r ++ [b])) (h24 : 24 ≤ (r ++ [b]).length)
    (ha : format.accept (r ++ [b]) = some f.hdr) (ht : f.frameTargetLen = f.hdr.totalLen)
    (hlt : (r ++ [b]).length < f.hdr.totalLen.toNat) : Step r b (finishByte f) := by
  have hfin : finishByte f = (f, none) := by
    have : ¬ f.frameTargetLen ≤ f.frameLen := by
      rw [UInt16.le_iff_toNat_le, ht, hc.1]; omega
    simp [finishByte, hs, this]
  have hsim : Sim f (r ++ [b]) := .payload hs hc h24 ha ht hlt
  rw [hfin]
  exact .quiet hsim.pending hsim

theorem Step.payload {r : List UInt8} {b : UInt8} {f : Fsm} (hs : f.state = .payload)
    (hc : Collects f (r ++ [b])) (h24 : 24 ≤ (r ++ [b]).length)
    (ha : format.accept (r ++ [b]) = some f.hdr) (ht : f.frameTargetLen = f.hdr.totalLen)
    (hle : (r ++ [b]).length ≤ format.size f.hdr) : Step r b (finishByte f) := by
  rw [format_size] at hle
  by_cases hlt : (r ++ [b]).length < f.hdr.totalLen.toNat
  · exact .collect hs hc h24 ha ht hlt
  · refine .dispatch (.inr ⟨hs, ?_⟩) hc (by rw [format_size]; omega) ha
    rw [ge_iff_le, UInt16.le_iff_toNat_le, ht, hc.1]
    omega

/-- A byte taken in the header state: one more byte of a window, a window
that is no header, a whole frame, or a header that starts one. -/
theorem header_step {f : Fsm} {r : List UInt8} (hs : f.state = .header) (hc : Collects f r)
    (hlt : r.length < 24) (b : UInt8) : Step r b (processByte f b) := by
  have hc' := hc.storeByte (by omega) b
  have hsb : (storeByte f b).state = .header := hs
  have hl : (r ++ [b]).length = r.length + 1 := by simp
  obtain ⟨h23, hp⟩ | ⟨h24, hok, hp⟩ | ⟨h24, hok, s, hs', hp⟩ := processByte_header hs b
  · have hshort : (r ++ [b]).length < 24 := hc'.1 ▸ UInt16.lt_iff_toNat_lt.mp h23
    rw [hp]
    exact .quiet (pending_of_short hshort) (.header hsb hc' hshort)
  · -- the window is full: the check sees exactly `r ++ [b]`
    have hfull := hc'.full h24 (by omega)
    rw [hc'.parseHeader hfull] at hok hp
    have hrej : format.accept (r ++ [b]) = none := accept_none.mpr hok
    obtain ⟨a, t, hat⟩ := List.exists_cons_of_ne_nil (l := r ++ [b]) (by simp)
    rw [hat] at hc' hrej hfull
    obtain ⟨h1, h2⟩ := window_reject hfull hrej
    have ht : t.length < 24 := by simp at hfull; omega
    rw [hp]
    generalize (parseHeader (r ++ [b])).1 = hdr
    have hcs := Collects.shiftHeaderWindow (f := { storeByte f b with hdr := hdr }) hc' (by omega)
    have hss : (shiftHeaderWindow { storeByte f b with hdr := hdr }).state = .header := by
      simp only [shiftHeaderWindow]
      split <;> exact hsb
    constructor
    · rw [hat, h2]; exact .header hss hcs ht
    · intro pre
      rw [hat, h1]; simp [located]
  · have hfull := hc'.full h24 (by omega)
    rw [hc'.parseHeader hfull] at hok hp hs'
    have hacc : format.accept (r ++ [b]) = some (parseHeader (r ++ [b])).1 := accept_iff.mpr ⟨hok, rfl⟩
    rw [hp]
    rcases hs' with ⟨rfl, ht⟩ | rfl
    · exact .dispatch (.inl rfl) hc' (by rw [format_size, hfull]; simp [ht]) hacc
    · exact .payload rfl hc' (by omega) hacc rfl (by rw [format_size]; omega)

theorem payload_step {f : Fsm} {r : List UInt8} (hs : f.state = .payload) (hc : Collects f r)
    (h24 : 24 ≤ r.length) (ha : format.accept r = some f.hdr) (ht : f.frameTargetLen = f.hdr.totalLen)
    (hlt : r.length < f.hdr.totalLen.toNat) (b : UInt8) : Step r b (processByte f b) := by
  have hc' := hc.storeByte (by have := (accept_totalLen ha).2; omega) b
  have hsb : (storeByte f b).state = .payload := hs
  have hacc : format.accept (r ++ [b]) = some f.hdr := by
    rw [← accept_take, List.take_append_of_le_length h24, accept_take, ha]
  rw [processByte_payload hs]
  exact .payload hsb hc' (by simp; omega) hacc ht (by simp only [storeByte, format_size]; simp; omega)

/-- **One byte**: the machine and the format take it alike. -/
theorem processByte_sim {f : Fsm} {r : List UInt8} (h : Sim f r) (b : UInt8) :
    Step r b (processByte f b) := by
  cases h with
  | idle hs =>
    rw [← processByte_startFrame]
    exact header_step (by simp [startFrame, hs]) ⟨by simp [startFrame, hs], by simp⟩ (by simp) b
  | header hs hc hlt => exact header_step hs hc hlt b
  | payload hs hc h24 ha ht hlt => exact payload_step hs hc h24 ha ht hlt b

/-! ## Streams of bytes -/

/-- A call with all bytes taken from the ring up to and including the one
that completed its frame. -/
abbrev Delivery := List UInt8 × Dispatch

/-- The bytes taken so far and the calls made so far, after one more turn of
the loop. -/
def deliver (s : List UInt8 × List Delivery) (b : UInt8) (d : Option Dispatch) :
    List UInt8 × List Delivery :=
  (s.1 ++ [b], s.2 ++ d.toList.map fun d => (s.1 ++ [b], d))

/-- What a delivery says about its frame. -/
def Delivery.frame (e : Delivery) : List UInt8 × VpHdr × List UInt8 := (e.1, e.2.hdr, e.2.raw)

theorem Delivery.frame_eq_iff {e : Delivery} {past raw : List UInt8} {h : VpHdr} :
    e.frame = (past, h, raw) ↔ e.1 = past ∧ e.2.hdr = h ∧ e.2.raw = raw := by
  rw [Delivery.frame, Prod.mk.injEq, Prod.mk.injEq]

/-- A machine that stands for the remainder of what was taken before goes on
doing so, whatever is observed. -/
theorem observe_sim {σ : Type} (obs : σ → UInt8 → Option Dispatch → σ) {f : Fsm} {past : List UInt8}
    (hf : Sim f (rest format past)) (bs : List UInt8) (s : σ) :
    Sim (observe obs f bs s).1 (rest format (past ++ bs)) := by
  induction bs generalizing f past s with
  | nil => simpa [observe] using hf
  | cons b bs ih =>
    have := @ih (processByte f b).1 (past ++ [b])
      (by rw [rest_append]; exact (processByte_sim hf b).1) (obs s b (processByte f b).2)
    simpa [observe] using this

/-- **Any bytes**: the calls made are the frames of the format. -/
theorem deliver_run {f : Fsm} {past : List UInt8} {tr : List Delivery} (hf : Sim f (rest format past))
    (htr : tr.map Delivery.frame = located [] (tokens format past)) (bs : List UInt8) :
    (observe deliver f bs (past, tr)).2.2.map Delivery.frame = located [] (tokens format (past ++ bs)) := by
  induction bs generalizing f past tr with
  | nil => simpa [observe] using htr
  | cons b bs ih =>
    obtain ⟨h1, h2⟩ := processByte_sim hf b
    have hraw := raw_tokens_append_rest (F := format) past
    have := @ih (processByte f b).1 (past ++ [b])
      (tr ++ (processByte f b).2.toList.map fun d => (past ++ [b], d)) (by rwa [rest_append]) ?_
    · simpa [observe, deliver] using this
    · rw [tokens_append, located_append, ← htr, h2, List.map_append, List.map_map]
      simp only [List.nil_append, ← List.append_assoc, hraw]
      rfl

end UsbMux.UsbRx
