/-
How much a cut or bad frame can cost. The bytes the receive machine holds
when new frames begin may look like the start of a frame together with them;
that frame is at most 512 bytes long, and after it the machine is back in
step (`Framing.found_after_rest`).
-/
import UsbMux.OutPath

namespace UsbMux.UsbRx

open Framing OutPath

instance (h : VpHdr) (f : List UInt8) : Decidable (WellFormed h f) :=
  decidable_of_iff (format.accept (f.take 24) = some h ∧ h.payloadLen.toNat ≤ 488 ∧
    f.length = 24 + h.payloadLen.toNat) ⟨fun h => ⟨h.1, h.2.1, h.2.2⟩, fun h => ⟨h.1, h.2, h.3⟩⟩

/-- What a call hands to the router: the header and the payload bytes. -/
def Dispatch.given (d : Dispatch) : VpHdr × List UInt8 := (d.hdr, d.payload.cells d.payloadLen.toNat)

theorem given_of_wellFormed {d : Dispatch} {h : VpHdr} {f : List UInt8} (hf : WellFormed h f)
    (hd : d.hdr = h) (hr : d.raw = f) : d.given = (h, f.drop 24) := by
  have ht : d.hdr.totalLen.toNat = 24 + d.hdr.payloadLen.toNat := by rw [hd]; exact hf.totalLen
  have hb : d.hdr.totalLen.toNat ≤ 512 := by rw [hd]; exact (accept_totalLen hf.accepted).2
  have hl : d.raw.length = max 24 d.hdr.totalLen.toNat := by rw [hr, hf.isFrame.1, hd, format_size]
  rw [Dispatch.given, payload_eq_body hl ht hb, Dispatch.body, hd, hr, VP.headerLen_eq]

theorem taken_of_empty {s : Run} (he : s.ctx.rawRb.toList = []) {is : List Input}
    (hfit : Mealy.Along step Fits s is) :
    (Mealy.run step s (is ++ [.process])).taken = s.taken ++ stream is := by
  rw [taken_processed hfit, Run.received, he, List.append_nil]

theorem size_le_of_accept (w : List UInt8) (h : VpHdr) (hw : format.accept w = some h) : format.size h ≤ 512 := by
  have := (accept_totalLen hw).2
  rw [format_size]
  omega

/-- **A bad or cut frame does not block later frames.** From every reachable
state with an empty ring, frames with no false header among them, pushed in
any split that fits the ring, give at most one call that is none of them, and
every frame that starts 512 bytes or more after their beginning is handed on
unchanged, once and in order. -/
theorem late_frames_dispatched (past is : List Input) (fs : List (VpHdr × List UInt8))
    (hempty : (Mealy.run step start past).ctx.rawRb.toList = []) (hfs : ∀ p ∈ fs, WellFormed p.1 p.2)
    (honly : OnlyStarts format fs) (hstream : stream is = joined fs)
    (hfit : Mealy.Along step Fits (Mealy.run step start past) is) :
    ∃ stray k,
      (Mealy.outs step (Mealy.run step start past) (is ++ [.process])).map (fun e => e.2.given) =
        stray ++ (fs.drop k).map (fun p => (p.1, p.2.drop 24)) ∧
      stray.length ≤ 1 ∧ ∀ m, 512 ≤ startOf fs m → k ≤ m := by
  have htaken := taken_of_empty hempty hfit
  rw [← Mealy.run_append] at htaken
  have hcalls := outs_after past (is ++ [.process]) htaken
  have hpend := pending_rest (F := format) (Mealy.run step start past).taken
  obtain ⟨stray, k, h1, h2, h3⟩ :=
    found_after_rest (fun p hp => (hfs p hp).isFrame) honly size_le_of_accept hpend
  rw [hstream] at hcalls
  rw [found_eq_located, ← hcalls, List.map_map] at h1
  obtain ⟨ds, es, hsplit, hds, hes⟩ := List.map_eq_append_iff.mp h1
  refine ⟨ds.map (fun e => e.2.given), k, ?_, by rw [← hds] at h2; simpa using h2, h3⟩
  rw [hsplit, List.map_append]
  congr 1
  -- header and collected bytes of a call are a frame's, so what it hands on is the frame's
  rw [← hes, List.map_map]
  refine List.map_congr_left ?_
  intro e he
  have hmem : (e.2.hdr, e.2.raw) ∈ fs.drop k := hes ▸ List.mem_map_of_mem he
  exact given_of_wellFormed (hfs _ (List.mem_of_mem_drop hmem)) rfl rfl

/-- Three bytes of a cut header, a frame of 512 bytes and a frame behind it. -/
theorem late_frames_dispatched_cut :
    let past : List Input := [.push [0x5A, 0xA5, 1], .process]
    let fs : List (VpHdr × List UInt8) := [(488 : UInt16), 2].map fun n =>
      let h := VP.encodeHeader { VpHdr.zero with payloadLen := n }
      (h, h.bytes h.headerCrc16 ++ List.replicate n.toNat 7)
    let is : List Input := [.push (joined (fs.take 1)), .process, .push (joined (fs.drop 1))]
    ∃ stray k,
      (Mealy.outs step (Mealy.run step start past) (is ++ [.process])).map (fun e => e.2.given) =
        stray ++ (fs.drop k).map (fun p => (p.1, p.2.drop 24)) ∧
      stray.length ≤ 1 ∧ ∀ m, 512 ≤ startOf fs m → k ≤ m := by
  intro past fs is
  exact late_frames_dispatched past is fs (by decide +kernel) (by decide +kernel) (by decide +kernel)
    (by decide +kernel) (by decide +kernel)

end UsbMux.UsbRx
