/-
A frame that is too long for the frame buffer. The machine has a state for
dropping one, which nothing enters: the check refuses the header, and the
machine goes on as after any other byte that starts no header. So the frame is
skipped exactly when nothing in it looks like a header (`overlong_skipped_iff`).
-/
import UsbMux.Resync

namespace UsbMux.UsbRx

open Framing OutPath

/-- A frame whose header passes every test but the one for the length. -/
structure OverLong (f : List UInt8) : Prop where
  magic : (VP.deserializeHeader f).magic = VP.magic
  version : (VP.deserializeHeader f).version = VP.version
  headerLen : (VP.deserializeHeader f).headerLen = 24
  crc : VP.crc16 (((f.take VP.headerLen).set VP.crc16Offset 0).set (VP.crc16Offset + 1) 0) =
    (VP.deserializeHeader f).headerCrc16
  total : (VP.deserializeHeader f).totalLen.toNat = 24 + (VP.deserializeHeader f).payloadLen.toNat
  long : 512 < (VP.deserializeHeader f).totalLen.toNat
  length : f.length = (VP.deserializeHeader f).totalLen.toNat

theorem OverLong.rejected {f : List UInt8} (ho : OverLong f) (t : List UInt8) :
    (parseHeader (f ++ t)).2 = false := by
  have h24 : VP.headerLen ≤ f.length := by
    have := ho.length
    have := ho.long
    rw [VP.headerLen_eq]
    omega
  rw [← Bool.not_eq_true, ← parseHeader_take, List.take_append_of_le_length h24, parseHeader_take]
  intro hok
  obtain ⟨-, -, -, -, h5, -⟩ := (parseHeader_accepts f).mp hok
  rw [parseHeader_fst] at h5
  have := UInt16.le_iff_toNat_le.mp h5
  exact absurd ho.long (Nat.not_lt.mpr this)

/-- The calls of a run that skips `f`: those for the bytes that waited before
it, then one for `g`, made when `f` and `g` have come out of the ring. -/
def SkipsTo (s : Run) (is : List Input) (f g : List UInt8) (h : VpHdr) : Prop :=
  ∃ waiting d, Mealy.outs step s (is ++ [.process]) = waiting ++ [(s.received ++ f ++ g, d)] ∧
    waiting.map Delivery.frame = (Mealy.outs step s [.process]).map Delivery.frame ∧
    d.raw = g ∧ d.given = (h, g.drop 24)

theorem unfinished_run (past : List Input) :
    unfinished (Mealy.run step start past).ctx = rest format (Mealy.run step start past).received := by
  rw [unfinished, (run_located past).1.held, Run.received, ← rest_append]

theorem outs_of_whole {past is : List Input} (hwhole : unfinished (Mealy.run step start past).ctx = [])
    (hfit : Mealy.Along step Fits (Mealy.run step start past) is) :
    let s := Mealy.run step start past
    (Mealy.outs step s (is ++ [.process])).map Delivery.frame =
      (Mealy.outs step s [.process]).map Delivery.frame ++ located s.received (tokens format (stream is)) := by
  intro s
  rw [unfinished_run] at hwhole
  have hnow : (Mealy.run step s [.process]).taken = s.received := by
    have := taken_processed (s := s) (Mealy.along_nil (P := Fits) s)
    rwa [stream, List.flatMap_nil, List.append_nil] at this
  have hlater := taken_processed (s := s) hfit
  rw [Run.received] at hnow hlater
  rw [List.append_assoc] at hlater
  have h1 := outs_after past [.process] (by rw [Mealy.run_append]; exact hnow)
  have h2 := outs_after past (is ++ [.process]) (by rw [Mealy.run_append]; exact hlater)
  -- the tokens of what is received make it up, as nothing of it is left over
  have hraw := raw_tokens_append_rest (F := format) s.received
  rw [hwhole, List.append_nil, Run.received, tokens_append, List.flatMap_append] at hraw
  rw [h1, h2, ← List.append_assoc, tokens_append (_ ++ _), located_append, hraw, ← rest_append]
  rw [show rest format (s.taken ++ s.ctx.rawRb.toList) = [] from hwhole, List.nil_append]
  rfl

theorem skipsTo_iff_clean {past is : List Input} {f g : List UInt8} {h : VpHdr}
    (hwhole : unfinished (Mealy.run step start past).ctx = []) (hg : WellFormed h g) (hstream : stream is = f ++ g)
    (hfit : Mealy.Along step Fits (Mealy.run step start past) is) :
    SkipsTo (Mealy.run step start past) is f g h ↔ Clean format f g := by
  have hcalls := outs_of_whole hwhole hfit
  simp only [hstream] at hcalls
  rw [← located_singleton_iff hg.isFrame (Mealy.run step start past).received]
  constructor
  · rintro ⟨waiting, d, hsplit, hwait, hraw, hgiven⟩
    rw [hsplit, List.map_append, hwait] at hcalls
    have hhdr : d.hdr = h := congrArg Prod.fst hgiven
    rw [← List.append_cancel_left hcalls, ← hraw, ← hhdr]
    rfl
  · intro hloc
    rw [hloc] at hcalls
    obtain ⟨waiting, last, hsplit, hwait, hlast⟩ := List.map_eq_append_iff.mp hcalls
    obtain ⟨e, rfl, hframe⟩ := List.map_eq_singleton_iff.mp hlast
    obtain ⟨taken, d⟩ := e
    obtain ⟨rfl, hhdr, hraw⟩ := Delivery.frame_eq_iff.mp hframe
    exact ⟨waiting, d, hsplit, hwait, hraw, given_of_wellFormed hg hhdr hraw⟩

/-- **An over-long frame is skipped as one unit** exactly when no window that
starts behind its first byte is accepted. -/
theorem overlong_skipped_iff (past is : List Input) (f g : List UInt8) (h : VpHdr)
    (hwhole : unfinished (Mealy.run step start past).ctx = []) (ho : OverLong f) (hg : WellFormed h g)
    (hstream : stream is = f ++ g) (hfit : Mealy.Along step Fits (Mealy.run step start past) is) :
    SkipsTo (Mealy.run step start past) is f g h ↔
      ∀ i, 0 < i → i < f.length → (parseHeader ((f ++ g).drop i)).2 = false := by
  rw [skipsTo_iff_clean hwhole hg hstream hfit]
  constructor
  · intro hc i _ hi
    rw [← accept_none, ← accept_take]
    exact hc i hi
  · intro hc i hi
    rw [format_window, accept_take, accept_none]
    rcases Nat.eq_zero_or_pos i with rfl | hpos
    · exact ho.rejected g
    · exact hc i hpos hi

/-- The empty command with an over-long frame before it: 489 zero bytes behind
their header. -/
theorem overlong_skipped_iff_zeros :
    let hdr (n : UInt16) := VP.encodeHeader { VpHdr.zero with payloadLen := n }
    let f := (hdr 489).bytes (hdr 489).headerCrc16 ++ List.replicate 489 0
    let g := (hdr 0).bytes (hdr 0).headerCrc16
    let is : List Input := [.push (f.take 64), .process, .push (f.drop 64), .push g]
    SkipsTo (Mealy.run step start []) is f g (hdr 0) ↔
      ∀ i, 0 < i → i < f.length → (parseHeader ((f ++ g).drop i)).2 = false := by
  intro hdr f g is
  have ho : OverLong f := ⟨by decide +kernel, by decide +kernel, by decide +kernel, by decide +kernel,
    by decide +kernel, by decide +kernel, by decide +kernel⟩
  exact overlong_skipped_iff [] is f g (hdr 0) (by decide +kernel) ho (by decide +kernel) (by decide +kernel)
    (fits_of_room (by decide +kernel))

/-- The over-long frame whose payload starts with an empty command: the command
is carried out. -/
theorem overlong_payload_dispatched :
    ¬ ∀ (past is : List Input) (f g : List UInt8) (h : VpHdr),
      unfinished (Mealy.run step start past).ctx = [] → OverLong f → WellFormed h g → stream is = f ++ g →
      Mealy.Along step Fits (Mealy.run step start past) is → SkipsTo (Mealy.run step start past) is f g h := by
  intro hall
  let hdr (n : UInt16) := VP.encodeHeader { VpHdr.zero with payloadLen := n }
  let g := (hdr 0).bytes (hdr 0).headerCrc16
  let f := (hdr 489).bytes (hdr 489).headerCrc16 ++ g ++ List.replicate 465 0
  let is : List Input := [.push f, .push g]
  have ho : OverLong f := ⟨by decide +kernel, by decide +kernel, by decide +kernel, by decide +kernel,
    by decide +kernel, by decide +kernel, by decide +kernel⟩
  have hwhole : unfinished (Mealy.run step start []).ctx = [] := by decide +kernel
  have hg : WellFormed (hdr 0) g := by decide +kernel
  have hstream : stream is = f ++ g := by decide +kernel
  have hfit : Mealy.Along step Fits (Mealy.run step start []) is := fits_of_room (by decide +kernel)
  have hclean := (skipsTo_iff_clean hwhole hg hstream hfit).mp (hall [] is f g (hdr 0) hwhole ho hg hstream hfit)
  -- the payload starts with a header
  exact absurd (hclean 24 (by decide +kernel)) (by decide +kernel)

end UsbMux.UsbRx
