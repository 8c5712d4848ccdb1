/-
Runs of the receive path: any pushes into the raw ring with any placement of
`USBRX_Process` between them. While no push is cut, the calls made are those
of the reference parser on the whole stream (`dispatches_reference`), and
every frame is complete exactly as long as no accepted header carries a
payload length that wraps (`frames_complete_iff`).
-/
import UsbMux.RxFacts

namespace UsbMux.UsbRx

open Framing

/-! ## The machine of pushes and processing -/

/-- The receive path with all bytes taken from its ring so far. -/
structure Run where
  ctx : Ctx
  taken : List UInt8

/-- `USBRX_PushBytes(data, data.length)`, or `USBRX_Process`. -/
inductive Input
  | push (data : List UInt8)
  | process
deriving DecidableEq

/-- The bytes an input pushes. -/
def Input.bytes : Input → List UInt8
  | .push data => data
  | .process => []

/-- The state after `USBRX_Init`. -/
def start : Run := ⟨init, []⟩

/-- One input; processing answers with the calls it makes. -/
def step : Mealy.Step Run Input Delivery
  | s, .push data => ({ s with ctx := pushBytes s.ctx (some data) (UInt16.ofNat data.length) }, [])
  | s, .process =>
    let r := process deliver s.ctx (s.taken, [])
    (⟨r.1, r.2.1⟩, r.2.2)

/-- The ring has room for all that is pushed. -/
def Fits (s : Run) : Input → Prop
  | .push data => data.length ≤ s.ctx.rawRb.space.toNat
  | .process => True

instance (s : Run) (i : Input) : Decidable (Fits s i) := by cases i <;> unfold Fits <;> infer_instance

/-- All bytes a list of inputs pushes. -/
def stream (is : List Input) : List UInt8 := is.flatMap Input.bytes

/-- A push adds a prefix of its bytes, and all of them exactly when they fit. -/
theorem push_prefix (c : Ctx) (data : List UInt8) :
    ∃ l, (pushBytes c (some data) (UInt16.ofNat data.length)).rawRb.toList = c.rawRb.toList ++ l ∧
      l <+: data ∧ (l = data ↔ data.length ≤ c.rawRb.space.toNat) := by
  have hs := c.rawRb.space.toNat_lt
  have hl : (UInt16.ofNat data.length).toNat ≤ data.length := by simp; exact Nat.mod_le _ _
  refine ⟨_, (pushBytes_toList c hl).1, (List.take_prefix _ _).trans (List.take_prefix _ _), ?_⟩
  rw [← c.rawRb.space_toNat]
  constructor
  · intro h
    have := congrArg List.length h
    simp at this
    omega
  · intro h
    have hn : (UInt16.ofNat data.length).toNat = data.length := by simp; omega
    rw [hn, List.take_length, List.take_of_length_le h]

theorem observe_deliver_append (f : Fsm) (bs past : List UInt8) (tr : List Delivery) :
    observe deliver f bs (past, tr) =
      ((observe deliver f bs (past, [])).1, past ++ bs, tr ++ (observe deliver f bs (past, [])).2.2) := by
  induction bs generalizing f past tr with
  | nil => simp [observe]
  | cons b bs ih =>
    rw [observe, ih, observe, ih _ _ (deliver (past, []) b _).2]
    simp [deliver, List.append_assoc]

/-- The machine stands for the remainder of what was taken. -/
def Stands (s : Run) : Prop := Sim s.ctx.fsm (rest format s.taken)

theorem toList_init : init.rawRb.toList = [] := RingBuffer.toList_init ..

theorem stands_start : Stands start := by
  rw [Stands, start, rest_of_pending pending_nil]
  exact .idle rfl

theorem process_state {s : Run} :
    (step s .process).1.ctx.fsm = (observe deliver s.ctx.fsm s.ctx.rawRb.toList (s.taken, [])).1 ∧
      (step s .process).1.taken = s.taken ++ s.ctx.rawRb.toList ∧
      (step s .process).1.ctx.rawRb.toList = [] ∧
      (step s .process).2 = (observe deliver s.ctx.fsm s.ctx.rawRb.toList (s.taken, [])).2.2 := by
  obtain ⟨h1, h2, -⟩ := process_eq deliver s.ctx (s.taken, [])
  have h3 := observe_deliver_append s.ctx.fsm s.ctx.rawRb.toList s.taken []
  simp only [step]
  rw [Prod.ext_iff] at h1
  refine ⟨h1.1, ?_, h2, by rw [h1.2]⟩
  rw [h1.2, h3]

@[simp] theorem pushBytes_fsm (c : Ctx) (data : Ptr UInt8) (len : UInt16) : (pushBytes c data len).fsm = c.fsm := by
  simp only [pushBytes]; split <;> rfl

theorem stands_step {s : Run} (i : Input) (hs : Stands s) : Stands (step s i).1 := by
  cases i with
  | push data => simpa [Stands, step] using hs
  | process =>
    obtain ⟨h1, h2, -, -⟩ := process_state (s := s)
    rw [Stands, h1, h2]
    exact observe_sim deliver hs _ _

/-- One input: the calls are the frames of the format in the order it finds them. -/
theorem step_located {s : Run} {tr : List Delivery} (i : Input) (hs : Stands s)
    (htr : tr.map Delivery.frame = located [] (tokens format s.taken)) :
    (tr ++ (step s i).2).map Delivery.frame = located [] (tokens format (step s i).1.taken) := by
  cases i with
  | push data => simpa [step] using htr
  | process =>
    obtain ⟨-, h2, -, h4⟩ := process_state (s := s)
    have := deliver_run hs htr s.ctx.rawRb.toList
    rw [observe_deliver_append] at this
    rw [h2, h4, this]

/-- **Every run**: the calls are the frames of the bytes taken. -/
theorem run_located (is : List Input) :
    Stands (Mealy.run step start is) ∧ (Mealy.outs step start is).map Delivery.frame =
      located [] (tokens format (Mealy.run step start is).taken) := by
  have h0 : ([] : List Delivery).map Delivery.frame = located [] (tokens format start.taken) := by
    rw [start, tokens_of_pending pending_nil]; rfl
  have := Mealy.history_run (J := fun s tr => Stands s ∧
      tr.map Delivery.frame = located [] (tokens format s.taken))
    (fun s tr i h => ⟨stands_step i h.1, step_located i h.1 h.2⟩) ⟨stands_start, h0⟩ is
  simpa using this

/-- The bytes that have come out of the ring and those still in it. -/
def Run.received (s : Run) : List UInt8 := s.taken ++ s.ctx.rawRb.toList

theorem received_start : start.received = [] := by rw [Run.received, start, toList_init]; rfl

theorem received_step (s : Run) (i : Input) :
    ∃ l, (step s i).1.received = s.received ++ l ∧ l <+: i.bytes ∧ (l = i.bytes ↔ Fits s i) := by
  cases i with
  | push data =>
    obtain ⟨l, h1, h2⟩ := push_prefix s.ctx data
    exact ⟨l, by simp only [Run.received, step, h1, List.append_assoc], h2⟩
  | process =>
    obtain ⟨-, h2, h3, -⟩ := process_state (s := s)
    exact ⟨[], by simp [Run.received, h2, h3], List.nil_prefix, by simp [Input.bytes, Fits]⟩

theorem size_step (s : Run) (i : Input) : (step s i).1.ctx.rawRb.size = s.ctx.rawRb.size := by
  cases i with
  | push data => exact (pushBytes_toList s.ctx (by simp; exact Nat.mod_le _ _)).2.1
  | process => exact (process_eq deliver s.ctx (s.taken, [])).2.2

theorem received_grows (s : Run) (is : List Input) : s.received <+: (Mealy.run step s is).received := by
  refine Mealy.inv_run (I := fun s' : Run => s.received <+: s'.received) ?_ (List.prefix_refl _) is
  intro s' i h
  obtain ⟨l, hl, -⟩ := received_step s' i
  exact h.trans (hl ▸ List.prefix_append _ _)

/-- **Conservation.** What came out of the ring and what it holds is the
stream exactly in the runs in which every push fits. -/
theorem run_received_iff (s : Run) (is : List Input) :
    (Mealy.run step s is).received = s.received ++ stream is ↔ Mealy.Along step Fits s is :=
  (Mealy.accum_run_iff received_step s is).2

theorem run_stream {is : List Input} (h : Mealy.Along step Fits start is) :
    (Mealy.run step start is).received = stream is := by
  rw [(run_received_iff start is).mpr h, received_start, List.nil_append]

theorem taken_processed {s : Run} {is : List Input} (h : Mealy.Along step Fits s is) :
    (Mealy.run step s (is ++ [.process])).taken = s.received ++ stream is := by
  rw [Mealy.run_append, ← (run_received_iff s is).mpr h]
  exact process_state.2.1

theorem push_taken {c : Ctx} {data : List UInt8} (hl : data.length < 65536) :
    (pushBytes c (some data) (UInt16.ofNat data.length)).rawRb.toList =
      c.rawRb.toList ++ data.take c.rawRb.space.toNat := by
  have hn : (UInt16.ofNat data.length).toNat = data.length := by simp; omega
  rw [(pushBytes_toList c hn.le).1, hn, List.take_length, ← c.rawRb.space_toNat]

/-- What fits the free space at the start of a run is received, whatever
the packets that bring it and the processing between them. -/
theorem received_of_room {s : Run} {is : List Input} {g : List UInt8}
    (hshort : ∀ i ∈ is, i.bytes.length < 65536) (hg : g.length ≤ s.ctx.rawRb.space.toNat)
    (hpre : g <+: stream is) : s.received ++ g <+: (Mealy.run step s is).received := by
  induction is generalizing s g with
  | nil =>
    rw [List.prefix_nil.mp hpre, List.append_nil]
    exact List.prefix_refl _
  | cons i is ih =>
    have hstream : stream (i :: is) = i.bytes ++ stream is := rfl
    have hspace := s.ctx.rawRb.space_toNat
    rw [Mealy.run_cons]
    cases i with
    | process =>
      obtain ⟨-, h2, h3, -⟩ := process_state (s := s)
      have hsame : (step s .process).1.received = s.received := by simp [Run.received, h2, h3]
      rw [← hsame]
      refine ih (fun i hi => hshort i (List.mem_cons_of_mem _ hi)) ?_ hpre
      rw [RingBuffer.space_toNat, h3, size_step]
      simp only [List.length_nil]
      omega
    | push data =>
      have hring : (step s (.push data)).1.ctx.rawRb.toList =
          s.ctx.rawRb.toList ++ data.take s.ctx.rawRb.space.toNat := push_taken (hshort _ List.mem_cons_self)
      have hrec : (step s (.push data)).1.received = s.received ++ data.take s.ctx.rawRb.space.toNat := by
        rw [Run.received, hring, ← List.append_assoc]
        rfl
      rw [hstream] at hpre
      rcases Nat.le_total g.length data.length with hle | hle
      · have hgd : g <+: data := List.prefix_of_prefix_length_le hpre (List.prefix_append _ _) hle
        refine List.IsPrefix.trans ?_ (received_grows _ is)
        rw [hrec, List.prefix_append_right_inj, List.prefix_iff_eq_take.mp hgd]
        exact List.take_prefix_take_left hg
      · obtain ⟨g, rfl⟩ := List.prefix_of_prefix_length_le (List.prefix_append _ _) hpre hle
        change (data ++ g).length ≤ _ at hg
        rw [List.length_append] at hg
        rw [List.take_of_length_le (by omega)] at hrec hring
        change s.received ++ (data ++ g) <+: _
        rw [← List.append_assoc, ← hrec]
        refine ih (fun i hi => hshort i (List.mem_cons_of_mem _ hi)) ?_ ((List.prefix_append_right_inj _).mp hpre)
        rw [RingBuffer.space_toNat, hring, size_step]
        simp only [List.length_append]
        omega

theorem fits_of_room {s : Run} {is : List Input} (hroom : (stream is).length ≤ s.ctx.rawRb.space.toNat) :
    Mealy.Along step Fits s is := by
  induction is generalizing s with
  | nil => trivial
  | cons i is ih =>
    have hs := s.ctx.rawRb.space.toNat_lt
    have hspace := s.ctx.rawRb.space_toNat
    rw [show stream (i :: is) = i.bytes ++ stream is from rfl, List.length_append] at hroom
    cases i with
    | process =>
      refine ⟨trivial, ih ?_⟩
      rw [RingBuffer.space_toNat, process_state.2.2.1, size_step]
      simp only [List.length_nil]
      omega
    | push data =>
      change data.length + _ ≤ _ at hroom
      have hring : (step s (.push data)).1.ctx.rawRb.toList =
          s.ctx.rawRb.toList ++ data.take s.ctx.rawRb.space.toNat := push_taken (by omega)
      rw [List.take_of_length_le (by omega)] at hring
      refine ⟨show data.length ≤ _ by omega, ih ?_⟩
      rw [RingBuffer.space_toNat, hring, size_step, List.length_append]
      omega

/-- What a run adds to the calls of an earlier one: the frames of the
remainder at its start with the bytes taken since. -/
theorem outs_after (is₀ is₁ : List Input) {new : List UInt8}
    (hnew : (Mealy.run step start (is₀ ++ is₁)).taken = (Mealy.run step start is₀).taken ++ new) :
    (Mealy.outs step (Mealy.run step start is₀) is₁).map Delivery.frame =
      located ((tokens format (Mealy.run step start is₀).taken).flatMap Token.raw)
        (tokens format (rest format (Mealy.run step start is₀).taken ++ new)) := by
  have h := (run_located (is₀ ++ is₁)).2
  rw [Mealy.outs_append, hnew, tokens_append, located_append, List.map_append, (run_located is₀).2,
    List.nil_append] at h
  exact List.append_cancel_left h

/-- After a last `USBRX_Process` the calls are the frames of all that was pushed. -/
theorem outs_processed {is : List Input} (h : Mealy.Along step Fits start is) :
    (Mealy.outs step start (is ++ [.process])).map Delivery.frame = located [] (tokens format (stream is)) := by
  have hr : (Mealy.run step start (is ++ [.process])).taken = stream is := by
    rw [taken_processed h, received_start, List.nil_append]
  rw [(run_located _).2, hr]

/-! ## The reference parser -/

/-- What a parser of the whole stream emits: headers with the bytes that
belong to them, looked for byte by byte where there is none. -/
def reference (s : List UInt8) : List (VpHdr × List UInt8) :=
  if s.length < 24 then []
  else
    let r := parseHeader (s.take 24)
    if r.2 then
      let len := max 24 r.1.totalLen.toNat
      if s.length < len then [] else (r.1, (s.take len).drop 24) :: reference (s.drop len)
    else reference (s.drop 1)
termination_by s.length
decreasing_by all_goals simp; omega

theorem reference_eq_bodies (s : List UInt8) : reference s = bodies format (tokens format s) := by
  induction s using front_induction (F := format) with
  | pending s hp =>
    rw [tokens_of_pending hp, reference, bodies_nil]
    rcases hp with hp | ⟨h, ha, hp⟩
    · rw [if_pos (by simpa using hp)]
    · obtain ⟨h1, h2⟩ := accept_iff.mp ha
      rw [format_window] at h1 h2
      simp only [format_size, ← h2] at hp
      simp only [h1, if_true, if_pos hp, ite_self]
  | skip a t hw ha ih =>
    have h1 := accept_none.mp ha
    rw [tokens_skip hw ha, bodies_skip, ← ih, reference, if_neg (by simpa using hw)]
    rw [format_window] at h1
    simp only [h1, Bool.false_eq_true, if_false, List.drop_one, List.tail_cons]
  | frame h f t hf ha ih =>
    obtain ⟨h1, h2⟩ := accept_iff.mp ha
    have h24 : 24 ≤ f.length := by rw [hf, format_size]; omega
    have hwin : f.take 24 = (f ++ t).take 24 := (List.take_append_of_le_length h24).symm
    rw [format_window, hwin] at h1 h2
    rw [tokens_frame hf ha, bodies_frame, ← ih, reference, if_neg (by simp; omega)]
    rw [format_size] at hf
    simp only [h1, h2, if_true, ← hf]
    rw [if_neg (by simp), List.take_left, List.drop_left, format_window]

theorem run_frame {is : List Input} {e : Delivery} (he : e ∈ Mealy.outs step start is) :
    (∃ u, e.1 = u ++ e.2.raw) ∧ e.1 <+: (Mealy.run step start is).taken ∧
      e.2.raw.length = max 24 e.2.hdr.totalLen.toNat ∧ format.accept (e.2.raw.take 24) = some e.2.hdr := by
  have hm : Delivery.frame e ∈ located [] (tokens format (Mealy.run step start is).taken) := by
    rw [← (run_located is).2]; exact List.mem_map_of_mem he
  simpa [Delivery.frame] using of_mem_located hm

/-- An accepted header's payload length fits a frame exactly when the length
check's sum did not wrap. -/
theorem accept_payloadLen {w : List UInt8} {h : VpHdr} (hw : format.accept w = some h) :
    h.payloadLen.toNat ≤ 488 ↔ h.totalLen.toNat = 24 + h.payloadLen.toNat := by
  obtain ⟨h1, h2⟩ := accept_totalLen hw
  have hp := h.payloadLen.toNat_lt
  have ht : h.totalLen.toNat = (24 + h.payloadLen.toNat) % 65536 := by rw [h1, UInt16.toNat_add]; rfl
  omega

theorem totalLen_lt_of_wrap {w : List UInt8} {h : VpHdr} (hw : format.accept w = some h)
    (hp : ¬ h.payloadLen.toNat ≤ 488) : h.totalLen.toNat < 24 := by
  obtain ⟨h1, h2⟩ := accept_totalLen hw
  have hp' := h.payloadLen.toNat_lt
  have ht : h.totalLen.toNat = (24 + h.payloadLen.toNat) % 65536 := by rw [h1, UInt16.toNat_add]; rfl
  omega

/-- The payload handed over is the body, where the header's payload length does not wrap. -/
theorem payload_eq_body {d : Dispatch} (hr : d.raw.length = max 24 d.hdr.totalLen.toNat)
    (ht : d.hdr.totalLen.toNat = 24 + d.hdr.payloadLen.toNat) (hb : d.hdr.totalLen.toNat ≤ 512) :
    d.payload.cells d.payloadLen.toNat = d.body := by
  have hl : d.frameBuf.toList.length = 512 := d.frameBuf.toList_length
  have hraw : d.frameBuf.toList.take d.raw.length = d.raw := by
    simp only [Dispatch.raw, List.length_take]
    rw [← List.take_take, List.take_of_length_le (i := d.frameBuf.toList.length) le_rfl]
  rw [Dispatch.payload, Dispatch.payloadLen, Ptr.cells_some (by simp; omega), Dispatch.body, ← hraw, hr,
    VP.headerLen_eq, List.take_drop]
  congr 2
  omega

/-- **The receiver is the reference parser.** For every stream, every split of
it into pushes that the ring takes whole and every placement of
`USBRX_Process` between them, the headers and bodies handed on after a last
`USBRX_Process` are those the reference emits on the stream; the payload
argument of a call is the body. -/
theorem dispatches_reference (is : List Input) (h : Mealy.Along step Fits start is) :
    let calls := Mealy.outs step start (is ++ [.process])
    calls.map (fun e => (e.2.hdr, e.2.body)) = reference (stream is) ∧
      ∀ e ∈ calls, e.2.hdr.payloadLen.toNat ≤ 488 → e.2.payload.cells e.2.payloadLen.toNat = e.2.body := by
  intro calls
  constructor
  · rw [reference_eq_bodies, bodies_eq_located [], ← outs_processed h, List.map_map]
    rfl
  · intro e he hp
    obtain ⟨-, -, hl, ha⟩ := run_frame he
    exact payload_eq_body hl ((accept_payloadLen ha).mp hp) (accept_totalLen ha).2

/-- A stray byte and a frame cut in four places. -/
theorem dispatches_reference_cut :
    let is : List Input := [.push [0x00, 0x5A], .process,
      .push [0xA5, 1, 24, 26, 0, 7, 0, 0, 0, 0, 0, 1, 3, 0, 0, 0, 0, 2, 0, 5, 251, 0, 0], .process,
      .push [1], .push [2]]
    let calls := Mealy.outs step start (is ++ [.process])
    calls.map (fun e => (e.2.hdr, e.2.body)) = reference (stream is) ∧
      ∀ e ∈ calls, e.2.hdr.payloadLen.toNat ≤ 488 → e.2.payload.cells e.2.payloadLen.toNat = e.2.body :=
  dispatches_reference _ (by decide +kernel)

/-! ## Complete frames -/

/-- What a call has to be for a stream: a header with a length that is the
sum it stands for and fits the frame buffer, and a payload that is what
follows the header's bytes in the stream. -/
structure Complete (s : List UInt8) (e : Delivery) : Prop where
  total : 24 + e.2.hdr.payloadLen.toNat = e.2.hdr.totalLen.toNat
  bound : e.2.hdr.totalLen.toNat ≤ 512
  placed : ∃ pre header, header.length = 24 ∧ parseHeader header = (e.2.hdr, true) ∧
    e.1 = pre ++ header ++ e.2.payload.cells e.2.payloadLen.toNat
  inside : e.1 <+: s

/-- All calls are complete, and each frame starts after the end of those before it. -/
def AllComplete (s : List UInt8) (calls : List Delivery) : Prop :=
  (∀ e ∈ calls, Complete s e) ∧ calls.Pairwise fun a b => a.1.length + b.2.hdr.totalLen.toNat ≤ b.1.length

/-- One byte of the loop as a machine of its own. -/
def byteStep : Mealy.Step Fsm UInt8 Dispatch := fun f b => ((processByte f b).1, (processByte f b).2.toList)

/-- Where the byte fills a header window that the check accepts, the header's
payload length fits a frame. -/
def Unwrapped (f : Fsm) (b : UInt8) : Prop :=
  let f := startFrame f
  f.state = .header → (storeByte f b).frameLen = UInt16.ofNat VP.headerLen →
    let r := parseHeader (storeByte f b).frameBuf.toList
    r.2 = true → r.1.payloadLen.toNat ≤ 488

/-- `Unwrapped` for every byte an input makes the machine take. -/
def InputUnwrapped (s : Run) : Input → Prop
  | .push _ => True
  | .process => Mealy.Along byteStep Unwrapped s.ctx.fsm s.ctx.rawRb.toList

theorem unwrapped_of_header {f : Fsm} {r : List UInt8} (hs : f.state = .header) (hc : Collects f r)
    (hlt : r.length < 24) (b : UInt8) :
    Unwrapped f b ↔ (r.length = 23 → ∀ h, format.accept (r ++ [b]) = some h → h.payloadLen.toNat ≤ 488) := by
  have hc' := hc.storeByte (by omega) b
  have hst : startFrame f = f := startFrame_of_ne (by rw [hs]; decide)
  have hlen : (storeByte f b).frameLen = UInt16.ofNat VP.headerLen ↔ r.length = 23 := by
    rw [← UInt16.toNat_inj, hc'.1]; simp
  simp only [Unwrapped, hst, hs, forall_true_left, hlen]
  refine forall_congr' ?_
  intro h23
  have hbuf : (storeByte f b).frameBuf.toList.take 24 = r ++ [b] := by
    simpa [h23] using hc'.2
  rw [← parseHeader_take, VP.headerLen_eq, hbuf]
  simp only [accept_iff]
  constructor
  · intro h h' hh
    exact hh.2 ▸ h hh.1
  · intro h h1
    exact h _ ⟨h1, rfl⟩

theorem unwrapped_iff {f : Fsm} {r : List UInt8} (h : Sim f r) (b : UInt8) :
    Unwrapped f b ↔ (r.length = 23 → ∀ h, format.accept (r ++ [b]) = some h → h.payloadLen.toNat ≤ 488) := by
  cases h with
  | idle hs =>
    have : Unwrapped f b ↔ Unwrapped (startFrame f) b := by simp only [Unwrapped, startFrame_startFrame]
    rw [this]
    exact unwrapped_of_header (by simp [startFrame, hs]) ⟨by simp [startFrame, hs], by simp⟩ (by simp) b
  | header hs hc hlt => exact unwrapped_of_header hs hc hlt b
  | payload hs hc h24 ha ht hlt =>
    simp only [Unwrapped, startFrame, hs, reduceCtorEq, if_false, false_implies, true_iff]
    intro h; omega

theorem forall_located_front {P : VpHdr → Prop} {s : List UInt8} {h : VpHdr}
    (ha : format.accept (s.take 24) = some h) (hl : s.length ≤ format.size h) :
    (∀ e ∈ located [] (tokens format s), P e.2.1) ↔ (s.length = format.size h → P h) := by
  by_cases he : s.length = format.size h
  · rw [(single_frame he ha).1]
    simp [located, he]
  · rw [tokens_of_pending (.inr ⟨h, ha, by omega⟩)]
    simp only [located, List.not_mem_nil, false_implies, implies_true, he]

/-- One byte: the call it makes, if any, has a payload length that fits
exactly when the byte is `Unwrapped`. -/
theorem byte_unwrapped {f : Fsm} {r : List UInt8} (h : Sim f r) (b : UInt8) :
    (∀ d ∈ (byteStep f b).2, d.hdr.payloadLen.toNat ≤ 488) ↔ Unwrapped f b := by
  have hcalls : (byteStep f b).2.map Dispatch.hdr =
      (located [] (tokens format (r ++ [b]))).map fun e => e.2.1 := by
    rw [(processByte_sim h b).2 [], List.map_map]; rfl
  rw [unwrapped_iff h, ← List.forall_mem_map (P := fun h : VpHdr => h.payloadLen.toNat ≤ 488), hcalls,
    List.forall_mem_map]
  have front {h' : VpHdr} (ha : format.accept ((r ++ [b]).take 24) = some h')
      (hl : (r ++ [b]).length ≤ format.size h') :=
    forall_located_front (P := fun h : VpHdr => h.payloadLen.toNat ≤ 488) ha hl
  by_cases hlt : r.length < 24
  · by_cases h23 : r.length = 23
    · have h24 : (r ++ [b]).length = 24 := by simp [h23]
      cases hacc : format.accept (r ++ [b]) with
      | none =>
        obtain ⟨a, t, hat⟩ := List.exists_cons_of_ne_nil (l := r ++ [b]) (by simp)
        rw [hat] at h24 hacc ⊢
        simp [(window_reject h24 hacc).1, located]
      | some h' =>
        rw [front (by rw [accept_take, hacc]) (by rw [h24, format_size]; omega), h24, format_size]
        simp only [h23, forall_true_left, Option.some.injEq, forall_eq']
        -- a header that wraps is shorter than the window, so its frame is complete
        exact ⟨fun hp => by_contra fun hn => hn (hp (by have := totalLen_lt_of_wrap hacc hn; omega)),
          fun hp _ => hp⟩
    · rw [tokens_of_pending (pending_of_short (by simp; omega))]
      simp [located, h23]
  · rcases h.pending with hp | ⟨h₀, ha, hsz⟩
    · exact absurd hp hlt
    · rw [format_size] at hsz
      have ha' : format.accept ((r ++ [b]).take 24) = some h₀ := by
        rw [List.take_append_of_le_length (by omega)]; exact ha
      have hp : h₀.payloadLen.toNat ≤ 488 := by
        by_contra hn
        have := totalLen_lt_of_wrap ha hn
        omega
      rw [front ha' (by simp; omega)]
      exact ⟨fun _ h23 => absurd h23 (by omega), fun _ _ => hp⟩

theorem observe_calls (f : Fsm) (bs past : List UInt8) :
    (observe deliver f bs (past, [])).2.2.map Prod.snd = Mealy.outs byteStep f bs := by
  induction bs generalizing f past with
  | nil => rfl
  | cons b bs ih =>
    rw [observe, observe_deliver_append]
    simp only [deliver, List.nil_append, List.map_append, ih, List.map_map, Mealy.outs_cons]
    congr 1
    simp [byteStep, Function.comp_def]

/-- One input: its calls have payload lengths that fit exactly when the
bytes it makes the machine take are `Unwrapped`. -/
theorem input_unwrapped {s : Run} (hs : Stands s) (i : Input) :
    (∀ e ∈ (step s i).2, e.2.hdr.payloadLen.toNat ≤ 488) ↔ InputUnwrapped s i := by
  cases i with
  | push data => simp [step, InputUnwrapped]
  | process =>
    rw [process_state.2.2.2, ← List.forall_mem_map (f := Prod.snd)
      (P := fun d : Dispatch => d.hdr.payloadLen.toNat ≤ 488), observe_calls]
    exact Mealy.forall_outs_iff (I := fun f => ∃ r, Sim f r) (fun f b ⟨r, h⟩ => ⟨_, (processByte_sim h b).1⟩)
      (fun f b ⟨r, h⟩ => byte_unwrapped h b) ⟨_, hs⟩ _

theorem complete_iff {is : List Input} (h : Mealy.Along step Fits start is) {e : Delivery}
    (he : e ∈ Mealy.outs step start is) :
    Complete (stream is) e ↔ e.2.hdr.payloadLen.toNat ≤ 488 := by
  obtain ⟨⟨u, hu⟩, hpre, hl, ha⟩ := run_frame he
  refine ⟨fun hc => (accept_payloadLen ha).mpr hc.total.symm, ?_⟩
  intro hp
  have ht := (accept_payloadLen ha).mp hp
  have hb := (accept_totalLen ha).2
  refine ⟨ht.symm, hb, ⟨u, e.2.raw.take 24, by simp; omega, ?_, ?_⟩, ?_⟩
  · obtain ⟨h1, h2⟩ := accept_iff.mp ha
    exact Prod.ext h2 h1
  · rw [payload_eq_body hl ht hb, Dispatch.body, VP.headerLen_eq, List.append_assoc,
      List.take_append_drop, hu]
  · exact hpre.trans (run_stream h ▸ List.prefix_append _ _)

theorem run_pairwise (is : List Input) :
    (Mealy.outs step start is).Pairwise fun a b => a.1.length + b.2.hdr.totalLen.toNat ≤ b.1.length := by
  have := pairwise_located (F := format) [] (Mealy.run step start is).taken
  rw [← (run_located is).2, List.pairwise_map] at this
  refine this.imp_of_mem fun {a b} _ hb hab => ?_
  have hl := (run_frame hb).2.2.1
  simp only [Delivery.frame] at hab
  omega

/-- **Complete frames.** In every run whose pushes fit the ring, all frames
handed on are complete if and only if no byte fills a window with an accepted
header whose payload length is above 488, that is one for which the 16-bit
sum of the length check wraps. -/
theorem frames_complete_iff (is : List Input) (h : Mealy.Along step Fits start is) :
    AllComplete (stream is) (Mealy.outs step start is) ↔ Mealy.Along step InputUnwrapped start is := by
  have hiff : (∀ e ∈ Mealy.outs step start is, Complete (stream is) e) ↔
      ∀ e ∈ Mealy.outs step start is, e.2.hdr.payloadLen.toNat ≤ 488 :=
    forall₂_congr fun e he => complete_iff h he
  rw [AllComplete, hiff, and_iff_left (run_pairwise is)]
  exact Mealy.forall_outs_iff (I := Stands) (fun s i hs => stands_step i hs) (fun s i hs => input_unwrapped hs i)
    stands_start is

/-- The frame of `dispatches_reference_cut`, whole. -/
theorem frames_complete_iff_whole :
    let is : List Input := [.push [0x5A, 0xA5, 1, 24, 26, 0, 7, 0, 0, 0, 0, 0, 1, 3, 0, 0, 0, 0, 2, 0, 5, 251, 0,
      0, 1, 2], .process]
    AllComplete (stream is) (Mealy.outs step start is) ↔ Mealy.Along step InputUnwrapped start is :=
  frames_complete_iff _ (by decide +kernel)

/-- The header with `payload_len` 65512 and `total_len` 0, whose CRC is right,
is accepted and handed on at once. -/
theorem wrapped_frame_incomplete :
    ¬ ∀ is : List Input, Mealy.Along step Fits start is → AllComplete (stream is) (Mealy.outs step start is) := by
  intro h
  let is : List Input := [.push [0x5A, 0xA5, 1, 24, 0, 0, 0, 0, 0, 0, 0, 0, 1, 1, 0, 0, 0, 0, 0xE8, 0xFF, 0x7A,
    0x41, 0, 0], .process]
  have hne : ¬ ∀ e ∈ Mealy.outs step start is, 24 + e.2.hdr.payloadLen.toNat = e.2.hdr.totalLen.toNat := by
    decide +kernel
  exact hne fun e he => ((h is (by decide +kernel)).1 e he).total

end UsbMux.UsbRx
