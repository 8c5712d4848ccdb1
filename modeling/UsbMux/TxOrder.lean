/-
The sequence numbers of the frames the device layer accepts. A frame has its
number from the moment it is queued, and leaves when its class comes up; the
frames that wait are one line, numbered in the order in which they were
accepted (`Line`), and the numbers on the wire are consecutive as long as the
line is served from its front.
-/
import UsbMux.Lib.Numbered
import UsbMux.TxFacts

namespace UsbMux.UsbTx

open Numbered

/-! ## Sequence numbers -/

/-- The sequence number a frame carries. -/
def Frame.seq (f : Frame) : UInt16 := (VP.deserializeHeader f.bytes).seq

theorem enqueue_seq {c : Ctx} {call : Enqueue} {f : Frame} (h : (enqueue c call).2 = some f) : f.seq = c.seq := by
  rcases enqueue_cases c call with ⟨⟨bit, hr⟩, -⟩ | ⟨g, hg, hp, -, hw, -⟩
  · rw [hr] at h
    cases h
  · obtain rfl : f = g := Option.some.inj (h.symm.trans hg)
    rw [Frame.seq, hw, writeFrame_bytes _ hp (by cases call <;> rfl), VP.deserializeHeader_own]
    cases call <;> rfl

theorem seq_popQueue (c : Ctx) (q : Class) : (popQueue c q).seq = c.seq := by
  unfold popQueue
  split
  · rfl
  · rw [seq_updatePendingBitmap]
    cases q <;> rfl

variable {δ : Type} (dev : UsbDevice δ)

theorem seq_sendHintIfNeeded (c : Ctx) (d : δ) : (sendHintIfNeeded dev c d).1.seq = c.seq := by
  unfold sendHintIfNeeded
  split
  · rfl
  · dsimp only
    split
    · rfl
    · rfl

theorem seq_process (c : Ctx) (d : δ) : (process dev c d).1.seq = c.seq := by
  unfold process
  split
  · rfl
  · rcases sendNextFrame_trace dev (sendHintIfNeeded dev c d).1 (sendHintIfNeeded dev c d).2.1 with
      ⟨h, -⟩ | ⟨q, f, -, -, h, -⟩
    · exact (congrArg Ctx.seq h).trans (seq_sendHintIfNeeded dev c d)
    · exact (congrArg Ctx.seq h).trans ((seq_popQueue _ q).trans (seq_sendHintIfNeeded dev c d))

/-! ## Frames on their way -/

/-- The frames the device layer accepted, in order. -/
def sentFrames (tr : List Event) : List Frame :=
  tr.filterMap fun
    | .sent _ f => some f
    | _ => none

theorem sentFrames_append (tr us : List Event) : sentFrames (tr ++ us) = sentFrames tr ++ sentFrames us :=
  List.filterMap_append

/-- The scheduler, with the classes of the frames that wait in the order in
which they were accepted, and the frames that are gone. -/
structure Line where
  ctx : Ctx
  waiting : List Class
  gone : List Frame

/-- What an event does to the line: a frame joins it, or the oldest of its class leaves. -/
def waitingAfter (waiting : List Class) : Event → List Class
  | .queued q _ => waiting ++ [q]
  | .sent q _ => waiting.erase q
  | _ => waiting

def lineStep : Mealy.Step Line (Op δ) Event
  | l, op =>
    let r := step dev l.ctx op
    (⟨r.1, r.2.foldl waitingAfter l.waiting, l.gone ++ sentFrames r.2⟩, r.2)

/-- No frame that waits is of a class before that of the oldest. -/
def OldestFirst (waiting : List Class) : Prop :=
  ∀ q ∈ waiting.head?, ∀ q' ∈ waiting, q.rank ≤ q'.rank

instance (waiting : List Class) : Decidable (OldestFirst waiting) :=
  inferInstanceAs (Decidable (∀ q ∈ waiting.head?, _))

/-- If the device layer accepts a frame, the oldest goes first. -/
def InTurn (l : Line) (op : Op δ) : Prop :=
  (∃ q f, .sent q f ∈ (step dev l.ctx op).2) → OldestFirst l.waiting

/-- The frames that are gone carry 1, 2 and so on. -/
def Consecutive (gone : List Frame) : Prop := ∀ n f, gone[n]? = some f → f.seq = UInt16.ofNat (1 + n)

/-- Each queue carries its numbers in the line, and the counter the next. -/
structure Numbers (l : Line) : Prop where
  queues : ∀ q, (l.ctx.queue q).toList.map Frame.seq =
    (numbers l.gone.length q l.waiting).map fun i => UInt16.ofNat (1 + i)
  seq : l.ctx.seq = UInt16.ofNat (1 + l.gone.length + l.waiting.length)

theorem numbers_init : Numbers ⟨init, [], []⟩ where
  queues q := by cases q <;> rfl
  seq := rfl

theorem Numbers.length_le {l : Line} (h : Numbers l) : l.waiting.length ≤ 12 := by
  have hcount (q : Class) : l.waiting.count q ≤ 4 := by
    rw [← length_numbers l.gone.length, ← List.length_map (fun i => UInt16.ofNat (1 + i)), ← h.queues,
      List.length_map]
    exact (l.ctx.queue q).length_toList_le
  have hsum (w : List Class) : w.length = w.count .rsp + w.count .evt + w.count .data := by
    induction w with
    | nil => rfl
    | cons a w ih => cases a <;> simp [ih] <;> omega
  rw [hsum]
  have := hcount .rsp
  have := hcount .evt
  have := hcount .data
  omega

/-- A class waits in the line exactly if its queue holds a frame. -/
theorem Numbers.mem_iff {l : Line} (h : Numbers l) (q : Class) : q ∈ l.waiting ↔ (l.ctx.queue q).toList ≠ [] := by
  have hlen := congrArg List.length (h.queues q)
  rw [List.length_map, List.length_map, length_numbers] at hlen
  rw [← List.count_pos_iff, ← hlen, List.length_pos_iff]

theorem Numbers.enqueue {l : Line} (h : Numbers l) (call : Enqueue) :
    Numbers (lineStep dev l (.enqueue call)).1 ∧ (lineStep dev l (.enqueue call)).1.gone = l.gone := by
  have hgone (o : Option Frame) : l.gone ++ sentFrames [enqueued call.queue o] = l.gone := by
    cases o <;> exact List.append_nil _
  refine ⟨?_, hgone _⟩
  simp only [lineStep, step, hgone]
  rcases enqueue_cases l.ctx call with ⟨⟨bit, hr⟩, -⟩ | ⟨f, hf, -, -, -, hseq, hq, hne⟩
  · rw [hr]
    exact ⟨fun q => (congrArg (fun Q : Queue => Q.toList.map Frame.seq) (queue_dropFrame l.ctx bit q)).trans
      (h.queues q), h.seq⟩
  · have hwaiting : [enqueued call.queue (UsbTx.enqueue l.ctx call).2].foldl waitingAfter l.waiting =
        l.waiting ++ [call.queue] := by
      rw [hf]
      rfl
    rw [hwaiting]
    refine ⟨fun q => ?_, ?_⟩
    · show (((UsbTx.enqueue l.ctx call).1.queue q).toList).map Frame.seq = _
      rw [numbers_append]
      by_cases he : call.queue = q
      · subst he
        rw [if_pos rfl, hq, List.map_append, List.map_append, h.queues, List.map_singleton, List.map_singleton,
          enqueue_seq hf, h.seq, Nat.add_assoc]
      · rw [if_neg he, List.append_nil, hne q (Ne.symm he), h.queues]
    · show (UsbTx.enqueue l.ctx call).1.seq = _
      rw [hseq, h.seq, List.length_append, List.length_singleton, ← Nat.add_assoc, UInt16.ofNat_add _ 1]
      rfl

/-- What a call of `USBTX_Process` does to the line: nothing, or the oldest
frame of the first queue that holds one leaves it. -/
theorem process_line (l : Line) (d : δ) :
    let r := lineStep dev l (.process d)
    r.1.ctx.seq = l.ctx.seq ∧
    (((∀ q, r.1.ctx.queue q = l.ctx.queue q) ∧ r.1.waiting = l.waiting ∧ r.1.gone = l.gone ∧
      ∀ q f, .sent q f ∉ r.2) ∨
    ∃ q f fs, (l.ctx.queue q).toList = f :: fs ∧ (∀ q', q'.rank < q.rank → (l.ctx.queue q').toList = []) ∧
      (∀ q', (r.1.ctx.queue q').toList = if q' = q then fs else (l.ctx.queue q').toList) ∧
      r.1.waiting = l.waiting.erase q ∧ r.1.gone = l.gone ++ [f] ∧ .sent q f ∈ r.2) := by
  simp only [lineStep, step]
  refine ⟨seq_process dev l.ctx d, ?_⟩
  obtain ⟨hs, hhs, hcases⟩ := process_trace dev l.ctx d
  have hquiet : hs.foldl waitingAfter l.waiting = l.waiting ∧ sentFrames hs = [] ∧ ∀ q f, .sent q f ∉ hs := by
    rcases hhs with rfl | ⟨hint, rfl⟩
    · exact ⟨rfl, rfl, by simp⟩
    · exact ⟨rfl, rfl, by simp⟩
  obtain ⟨hwaiting, hsent, hno⟩ := hquiet
  rcases hcases with ⟨hq, he⟩ | ⟨q, f, fs, hfs, hfirst, hq, he⟩
  · refine .inl ⟨hq, ?_, ?_, ?_⟩
    · rw [he, hwaiting]
    · rw [he, hsent, List.append_nil]
    · rw [he]
      exact hno
  · refine .inr ⟨q, f, fs, hfs, hfirst, hq, ?_, ?_, ?_⟩
    · rw [he, List.foldl_append, hwaiting]
      rfl
    · rw [he, sentFrames_append, hsent]
      rfl
    · rw [he]
      simp

theorem rank_injective : Function.Injective Class.rank := by
  intro q q' h
  cases q <;> cases q' <;> first | rfl | cases h

theorem Numbers.oldestFirst_iff {l : Line} (h : Numbers l) {q : Class} (hq : (l.ctx.queue q).toList ≠ [])
    (hfirst : ∀ q', q'.rank < q.rank → (l.ctx.queue q').toList = []) :
    OldestFirst l.waiting ↔ l.waiting.head? = some q := by
  have hmem := (h.mem_iff q).mpr hq
  constructor
  · intro ho
    cases hw : l.waiting with
    | nil => simp [hw] at hmem
    | cons a w =>
      have ha : a ∈ l.waiting := by simp [hw]
      have hle : a.rank ≤ q.rank := ho a (by simp [hw]) q hmem
      have hge : q.rank ≤ a.rank := Nat.le_of_not_lt fun hlt => (h.mem_iff a).mp ha (hfirst a hlt)
      rw [rank_injective (Nat.le_antisymm hle hge)]
      rfl
  · intro hw a ha q' hq'
    rw [hw, Option.mem_some_iff] at ha
    subst ha
    exact Nat.le_of_not_lt fun hlt => (h.mem_iff q').mp hq' (hfirst q' hlt)

theorem consecutive_concat {gone : List Frame} (h : Consecutive gone) (f : Frame) :
    Consecutive (gone ++ [f]) ↔ f.seq = UInt16.ofNat (1 + gone.length) := by
  constructor
  · exact fun h' => h' gone.length f (by simp)
  · intro hf n g hg
    by_cases hn : n < gone.length
    · rw [List.getElem?_append_left hn] at hg
      exact h n g hg
    · rw [List.getElem?_append_right (Nat.le_of_not_lt hn), List.getElem?_singleton] at hg
      split at hg
      · next h0 =>
        cases hg
        rw [hf]
        congr 2
        omega
      · cases hg

/-- What the first frame of a queue carries: the next number to go exactly if it is the oldest of all. -/
theorem Numbers.seq_iff {l : Line} (h : Numbers l) {q : Class} {f : Frame} {fs : List Frame}
    (hq : (l.ctx.queue q).toList = f :: fs) :
    f.seq = UInt16.ofNat (1 + l.gone.length) ↔ l.waiting.head? = some q := by
  have hseq := h.queues q
  have hle := h.length_le
  rw [hq, List.map_cons] at hseq
  obtain ⟨i, is, hi, hf, -⟩ := List.map_eq_cons_iff.mp hseq.symm
  rw [← hf]
  constructor
  · intro he
    by_contra hw
    have hbounds := lt_of_mem hw (show i ∈ numbers l.gone.length q l.waiting by simp [hi])
    have := congrArg UInt16.toNat he
    simp at this
    omega
  · intro hw
    obtain ⟨w, hw⟩ := List.head?_eq_some_iff.mp hw
    rw [hw, numbers_cons_self] at hi
    cases hi
    rfl

theorem Numbers.leave {l l' : Line} (h : Numbers l) {q : Class} {f : Frame} {fs : List Frame}
    (hq : (l.ctx.queue q).toList = f :: fs) (hw : l.waiting.head? = some q) (hseq : l'.ctx.seq = l.ctx.seq)
    (hq' : ∀ q', (l'.ctx.queue q').toList = if q' = q then fs else (l.ctx.queue q').toList)
    (hwaiting : l'.waiting = l.waiting.erase q) (hgone : l'.gone = l.gone ++ [f]) : Numbers l' := by
  obtain ⟨w, hw⟩ := List.head?_eq_some_iff.mp hw
  have hlen : l'.gone.length = l.gone.length + 1 := by rw [hgone, List.length_append, List.length_singleton]
  rw [hw, List.erase_cons_head] at hwaiting
  refine ⟨fun q' => ?_, ?_⟩
  · have hold := h.queues q'
    rw [hw] at hold
    rw [hq', hwaiting, hlen]
    split
    · next he =>
      subst he
      rw [hq, numbers_cons_self, List.map_cons, List.map_cons] at hold
      exact (List.cons.inj hold).2
    · next he => rwa [numbers_cons_of_ne (Ne.symm he)] at hold
  · rw [hseq, h.seq, hwaiting, hlen, hw, List.length_cons]
    congr 1
    omega

/-- **One step.** The numbers stay consecutive exactly if the frame that goes is the oldest. -/
theorem lineStep_numbers {l : Line} (h : Numbers l) (hc : Consecutive l.gone) (op : Op δ) :
    (Consecutive (lineStep dev l op).1.gone ↔ InTurn dev l op) ∧
      (Consecutive (lineStep dev l op).1.gone → Numbers (lineStep dev l op).1) := by
  cases op with
  | enqueue call =>
    obtain ⟨hn, hgone⟩ := h.enqueue dev call
    rw [hgone]
    refine ⟨iff_of_true hc ?_, fun _ => hn⟩
    rintro ⟨q, f, hmem⟩
    cases ho : (enqueue l.ctx call).2 <;> simp [step, ho, enqueued] at hmem
  | process d =>
    obtain ⟨hseq, ⟨hq, hwaiting, hgone, hno⟩ | ⟨q, f, fs, hfs, hfirst, hq, hwaiting, hgone, hsent⟩⟩ :=
      process_line dev l d
    · rw [hgone]
      refine ⟨iff_of_true hc ?_, fun _ => ⟨fun q => ?_, ?_⟩⟩
      · rintro ⟨q, f, hmem⟩
        exact absurd hmem (hno q f)
      · rw [hq, hwaiting, hgone]
        exact h.queues q
      · rw [hseq, hwaiting, hgone]
        exact h.seq
    · have hne : (l.ctx.queue q).toList ≠ [] := by simp [hfs]
      have hturn : Consecutive (l.gone ++ [f]) ↔ l.waiting.head? = some q :=
        (consecutive_concat hc f).trans (h.seq_iff hfs)
      rw [hgone, hturn]
      refine ⟨?_, fun hw => h.leave hfs hw hseq hq hwaiting hgone⟩
      rw [← h.oldestFirst_iff hne hfirst]
      exact ⟨fun ho _ => ho, fun ht => ht ⟨q, f, hsent⟩⟩

/-! ## Runs -/

theorem line_run (l : Line) (ops : List (Op δ)) :
    (Mealy.run (lineStep dev) l ops).gone = l.gone ++ sentFrames (Mealy.outs (step dev) l.ctx ops) := by
  induction ops generalizing l with
  | nil => exact (List.append_nil _).symm
  | cons op ops ih =>
    rw [Mealy.run_cons, Mealy.outs_cons, ih, sentFrames_append, ← List.append_assoc]
    rfl

theorem Consecutive.of_prefix {gone gone' : List Frame} (h : Consecutive gone') (hp : gone <+: gone') :
    Consecutive gone := by
  obtain ⟨t, rfl⟩ := hp
  intro n f hf
  refine h n f ?_
  rw [List.getElem?_append_left (List.getElem?_eq_some_iff.mp hf).1, hf]

theorem gone_grows (l : Line) {ops ops' : List (Op δ)} (h : ops <+: ops') :
    (Mealy.run (lineStep dev) l ops).gone <+: (Mealy.run (lineStep dev) l ops').gone := by
  obtain ⟨t, rfl⟩ := h
  rw [Mealy.run_append, line_run dev (Mealy.run (lineStep dev) l ops)]
  exact List.prefix_append _ _

/-- **Sequence numbers on the wire.** Over every run from `USBTX_Init`,
whatever the device layer answers, the frames it accepts carry 1, 2 and so on,
modulo 2^16, exactly if each time it accepts one, no frame that waits is of a
class before that of the oldest. -/
theorem sent_consecutive_iff (ops : List (Op δ)) :
    (∀ n f, (sentFrames (Mealy.outs (step dev) init ops))[n]? = some f → f.seq = UInt16.ofNat (1 + n)) ↔
      Mealy.Along (lineStep dev) (InTurn dev) ⟨init, [], []⟩ ops := by
  have hkeep (l : Line) (op : Op δ) (h : Consecutive l.gone → Numbers l)
      (hc : Consecutive (lineStep dev l op).1.gone) : Numbers (lineStep dev l op).1 := by
    have hold : Consecutive l.gone := hc.of_prefix (List.prefix_append _ _)
    exact (lineStep_numbers dev (h hold) hold op).2 hc
  have hiff := Mealy.forall_prefix_iff (I := fun l : Line => Consecutive l.gone → Numbers l)
    (S := fun l : Line => Consecutive l.gone) hkeep
    (fun _ op h hc => (lineStep_numbers dev (h hc) hc op).1) (fun _ => numbers_init)
    (show Consecutive [] from fun n f hf => by cases hf) ops
  rw [← hiff, ← List.nil_append (sentFrames _), ← line_run dev ⟨init, [], []⟩ ops]
  exact ⟨fun h js hj => Consecutive.of_prefix h (gone_grows dev _ hj), fun h => h ops (List.prefix_refl ops)⟩

/-- A device layer that accepts everything. -/
def ready : UsbDevice Unit where
  isConfigured _ := true
  canSendHint _ := true
  canSendFrame _ := true
  sendHint d _ := (d, true)
  sendFrame d _ _ := (d, true)

/-- A response overtakes data: the host sees 2 before 1. -/
theorem response_overtakes :
    let ops : List (Op Unit) := [.enqueue (.data 0 0 (some [7]) 1), .enqueue (.rsp .zero .ok none 0), .process (),
      .process ()]
    (sentFrames (Mealy.outs (step ready) init ops)).map Frame.seq = [2, 1] ∧
      ¬ ∀ n f, (sentFrames (Mealy.outs (step ready) init ops))[n]? = some f → f.seq = UInt16.ofNat (1 + n) := by
  intro ops
  have hseq : (sentFrames (Mealy.outs (step ready) init ops)).map Frame.seq = [2, 1] := by decide +kernel
  refine ⟨hseq, fun h => ?_⟩
  obtain ⟨f, fs, he, hf, -⟩ := List.map_eq_cons_iff.mp hseq
  have := h 0 f (by rw [he]; rfl)
  rw [hf] at this
  exact absurd this (by decide)

end UsbMux.UsbTx
