/-
The log buffer of `app_log.c`: lines go in from anywhere, interrupts
included, and `AppLog_Process` writes them out in chunks.

`AppLog_Process` takes a chunk under the lock, writes it with interrupts on,
and moves the tail under the lock again, so it is three steps here with any
lines pushed between them. The bytes not yet written (`contents`) are those
in the buffer without the ones of a chunk that is written and not released.
`AppLog_X` of the source is `x` here.
-/
import Mathlib.Data.UInt
import UsbMux.Lib.Mealy
import UsbMux.Lib.Block
import UsbMux.Lib.Circular

namespace UsbMux.AppLog

abbrev appLogBufferSize : Nat := 2048
abbrev appLogLineSize : Nat := 160
abbrev appLogFlushChunkSize : UInt16 := 96

/-- `g_log_buf`, `g_log_head`, `g_log_tail` and `g_log_dropped`. -/
structure Log where
  buf : Block UInt8 appLogBufferSize
  head : UInt16
  tail : UInt16
  dropped : UInt32
deriving DecidableEq

/-- A byte that `AppLog_PushByte` stored at an index, or the call of `_write`
for the chunk at `&g_log_buf[tail]`, with its bytes. -/
inductive Event
  | accepted (index : UInt16) (data : UInt8)
  | wrote (tail len : UInt16) (chunk : List UInt8)
deriving DecidableEq

/-! ## The operations -/

def nextIndex (index : UInt16) : UInt16 :=
  let index := index + 1
  if index ≥ UInt16.ofNat appLogBufferSize then 0 else index

/-- `AppLog_PushByte`; `true` is the answer 0. -/
def pushByte (g : Log) (data : UInt8) : Log × Bool :=
  let nextHead := nextIndex g.head
  if nextHead = g.tail then ({ g with dropped := g.dropped + 1 }, false)
  else ({ g with buf := g.buf.put g.head.toNat data, head := nextHead }, true)

def hasData (g : Log) : Bool := g.head != g.tail

def getContiguousLen (g : Log) : UInt16 :=
  if g.head = g.tail then 0
  else
    let len := if g.head > g.tail then g.head - g.tail else UInt16.ofNat appLogBufferSize - g.tail
    if len > appLogFlushChunkSize then appLogFlushChunkSize else len

def advanceTail (g : Log) (len : UInt16) : Log :=
  let tail := g.tail + len
  let tail := if tail ≥ UInt16.ofNat appLogBufferSize then tail - UInt16.ofNat appLogBufferSize else tail
  { g with tail := tail }

/-- `AppLog_Write` of the cells from `tail` on. -/
def write (g : Log) (tail len : UInt16) : List Event :=
  if len > 0 then [.wrote tail len (g.buf.slice tail.toNat len.toNat)] else []

def init (g : Log) : Log := { g with head := 0, tail := 0, dropped := 0 }

/-- The loop of `AppLog_Printf`, over the bytes of the line that are left. -/
def pushLine : Log → List UInt8 → Log × List Event
  | g, [] => (g, [])
  | g, data :: line =>
    let r := pushByte g data
    if r.2 then ((pushLine r.1 line).1, .accepted g.head data :: (pushLine r.1 line).2) else (r.1, [])

/-- `AppLog_Printf`, with the text `vsnprintf` makes of the format: `none`
where it answers an error, or where the format is null. The line holds what
fits before the terminating zero. -/
def printf (g : Log) (text : Option (List UInt8)) : Log × List Event :=
  match text with
  | none => (g, [])
  | some text =>
    if text.length = 0 then (g, [])
    else
      let g := if text.length ≥ appLogLineSize then { g with dropped := g.dropped + 1 } else g
      pushLine g (text.take (appLogLineSize - 1))

/-- `AppLog_Process`, when nothing comes between. -/
def process (g : Log) : Log × List Event :=
  let tail := g.tail
  let len := getContiguousLen g
  if len > 0 then (advanceTail g len, write g tail len) else (g, [])

/-! ## `AppLog_Process` in steps -/

/-- Where `AppLog_Process` is: not called, or past the snapshot of `tail` and
`len`, or past the write of that chunk. -/
inductive Pc
  | idle
  | taken (tail len : UInt16)
  | written (tail len : UInt16)
deriving DecidableEq

structure Sys where
  log : Log
  pc : Pc
deriving DecidableEq

/-- A line is printed, or `AppLog_Process` makes its next step, the first one
of a new call if it is not in one. -/
inductive Input
  | printf (text : Option (List UInt8))
  | process
deriving DecidableEq

/-- The part of `AppLog_Process` up to the first end of the lock. -/
def snapshot (s : Sys) : Sys :=
  let tail := s.log.tail
  let len := getContiguousLen s.log
  if len > 0 then { s with pc := .taken tail len } else s

def step : Mealy.Step Sys Input Event
  | s, .printf text => ({ s with log := (printf s.log text).1 }, (printf s.log text).2)
  | s, .process =>
    match s.pc with
    | .idle => (snapshot s, [])
    | .taken tail len => ({ s with pc := .written tail len }, write s.log tail len)
    | .written _ len => (⟨advanceTail s.log len, .idle⟩, [])

/-- The state after `AppLog_Init`, with any memory before it. -/
def start (g : Log) : Sys := ⟨init g, .idle⟩

/-- The steps of a call with nothing between them are `AppLog_Process`. -/
theorem process_steps (g : Log) :
    let is := if getContiguousLen g > 0 then [.process, .process, .process] else [.process]
    Mealy.run step ⟨g, .idle⟩ is = ⟨(process g).1, .idle⟩ ∧ Mealy.outs step ⟨g, .idle⟩ is = (process g).2 := by
  by_cases h : getContiguousLen g > 0
  · simp [step, snapshot, process, h]
  · simp [step, snapshot, process, h]

/-! ## The bytes in the buffer -/

/-- Both indices are inside the buffer. -/
structure Inside (g : Log) : Prop where
  head : g.head.toNat < 2048
  tail : g.tail.toNat < 2048

theorem Inside.drop {g : Log} (h : Inside g) : Inside { g with dropped := g.dropped + 1 } := ⟨h.head, h.tail⟩

/-- The number of bytes from tail to head. -/
def count (g : Log) : Nat := (g.head.toNat + 2048 - g.tail.toNat) % 2048

/-- The bytes in the buffer, oldest first. -/
def pending (g : Log) : List UInt8 := Circular.view g.buf.toList g.tail.toNat (count g)

theorem nextIndex_toNat {index : UInt16} (h : index.toNat < 2048) :
    (nextIndex index).toNat = (index.toNat + 1) % 2048 := by
  have h1 : (index + 1).toNat = index.toNat + 1 := by simp; omega
  have hsize : (UInt16.ofNat appLogBufferSize).toNat = 2048 := rfl
  unfold nextIndex
  simp only [ge_iff_le, UInt16.le_iff_toNat_le, h1, hsize]
  split
  · rw [UInt16.toNat_zero]
    omega
  · omega

theorem Inside.tail_add_count {g : Log} (h : Inside g) : (g.tail.toNat + count g) % 2048 = g.head.toNat := by
  obtain ⟨hh, ht⟩ := h
  unfold count
  omega

/-- The count is the only number below 2048 that leads from tail to head. -/
theorem Inside.count_unique {g : Log} (h : Inside g) {k : Nat} (hk : k < 2048)
    (hhead : (g.tail.toNat + k) % 2048 = g.head.toNat) : count g = k := by
  obtain ⟨hh, ht⟩ := h
  unfold count
  omega

theorem Inside.count_eq_zero {g : Log} (h : Inside g) : count g = 0 ↔ g.head = g.tail := by
  obtain ⟨hh, ht⟩ := h
  rw [← UInt16.toNat_inj]
  unfold count
  omega

theorem length_pending (g : Log) : (pending g).length = count g := by
  have : count g < 2048 := Nat.mod_lt _ (by decide)
  exact Circular.length_view (by rw [g.buf.toList_length]; exact this.le)

/-- What a byte stored by `AppLog_PushByte` does to the buffer. -/
structure Pushed (g g' : Log) (data : UInt8) : Prop where
  inside : Inside g'
  pending : pending g' = pending g ++ [data]
  count : count g' = count g + 1
  tail : g'.tail = g.tail

/-- A byte is refused by a full buffer, and otherwise stored behind the last one. -/
theorem pushByte_cases {g : Log} (h : Inside g) (data : UInt8) :
    pushByte g data = ({ g with dropped := g.dropped + 1 }, false) ∨
      ((pushByte g data).2 = true ∧ Pushed g (pushByte g data).1 data) := by
  have hh := h.head
  have ht := h.tail
  have hnext := nextIndex_toNat hh
  have hcount := h.tail_add_count
  have hlt : count g < 2048 := Nat.mod_lt _ (by decide)
  unfold pushByte
  by_cases hfull : nextIndex g.head = g.tail
  · exact .inl (if_pos hfull)
  · have hne : (nextIndex g.head).toNat ≠ g.tail.toNat := fun he => hfull (UInt16.toNat_inj.mp he)
    have hroom : count g + 1 < 2048 := by omega
    rw [if_neg hfull]
    refine .inr ⟨rfl, ?_⟩
    have hin : Inside { g with buf := g.buf.put g.head.toNat data, head := nextIndex g.head } :=
      ⟨by rw [hnext]; omega, ht⟩
    have hnext' : (g.tail.toNat + (count g + 1)) % 2048 = (nextIndex g.head).toNat := by omega
    have hcount' := hin.count_unique hroom hnext'
    refine ⟨hin, ?_, hcount', rfl⟩
    rw [AppLog.pending, hcount', Block.toList_put, ← hcount]
    have hlen : g.buf.toList.length = 2048 := g.buf.toList_length
    have hroom' : count g < g.buf.toList.length := by omega
    rw [← hlen]
    exact Circular.view_push hroom' data

/-- The byte an event stores, and the bytes it writes out. -/
def Event.stored : Event → List UInt8
  | .accepted _ data => [data]
  | .wrote .. => []

def Event.output : Event → List UInt8
  | .accepted .. => []
  | .wrote _ _ chunk => chunk

/-- Lines go behind the bytes in the buffer and leave these alone. -/
structure Appends (g g' : Log) (events : List Event) : Prop where
  inside : Inside g'
  pending : pending g' = pending g ++ events.flatMap Event.stored
  count : count g ≤ count g'
  tail : g'.tail = g.tail
  stored : ∀ e ∈ events, ∃ index data, e = .accepted index data ∧
    ∀ j < AppLog.count g, index.toNat ≠ (g.tail.toNat + j) % 2048

theorem Appends.refl {g : Log} (h : Inside g) : Appends g g [] where
  inside := h
  pending := by simp
  count := le_rfl
  tail := rfl
  stored _ hm := by cases hm

theorem Appends.of_drop {g g' : Log} {events : List Event}
    (h : Appends { g with dropped := g.dropped + 1 } g' events) : Appends g g' events :=
  ⟨h.inside, h.pending, h.count, h.tail, h.stored⟩

theorem Appends.quiet {g g' : Log} {events : List Event} (h : Appends g g' events) :
    events.flatMap Event.output = [] := by
  rw [List.flatMap_eq_nil_iff]
  intro e he
  obtain ⟨index, data, rfl, -⟩ := h.stored e he
  rfl

theorem Inside.head_ne {g : Log} (h : Inside g) {j : Nat} (hj : j < count g) :
    g.head.toNat ≠ (g.tail.toNat + j) % 2048 := by
  obtain ⟨hh, ht⟩ := h
  unfold count at hj
  omega

theorem pushLine_appends {g : Log} (h : Inside g) (line : List UInt8) :
    Appends g (pushLine g line).1 (pushLine g line).2 := by
  induction line generalizing g with
  | nil => exact .refl h
  | cons data line ih =>
    rw [pushLine]
    rcases pushByte_cases h data with hp | ⟨hp, hpushed⟩
    · rw [hp]
      exact .of_drop (.refl h.drop)
    · have hrest := ih hpushed.inside
      rw [if_pos hp]
      refine ⟨hrest.inside, ?_, ?_, hrest.tail.trans hpushed.tail, ?_⟩
      · rw [hrest.pending, hpushed.pending, List.append_assoc]
        rfl
      · have hle : count g ≤ count (pushByte g data).1 := by rw [hpushed.count]; exact Nat.le_succ _
        exact hle.trans hrest.count
      · intro e hm
        rcases List.mem_cons.mp hm with rfl | hm
        · exact ⟨g.head, data, rfl, fun j hj => h.head_ne hj⟩
        · obtain ⟨index, byte, he, hapart⟩ := hrest.stored e hm
          refine ⟨index, byte, he, fun j hj => ?_⟩
          have := hapart j (by rw [hpushed.count]; omega)
          rwa [hpushed.tail] at this

theorem printf_appends {g : Log} (h : Inside g) (text : Option (List UInt8)) :
    Appends g (printf g text).1 (printf g text).2 := by
  cases text with
  | none => exact .refl h
  | some text =>
    rw [printf]
    split
    · exact .refl h
    · split
      · exact .of_drop (pushLine_appends h.drop _)
      · exact pushLine_appends h _

/-! ## The chunk -/

/-- A chunk at the tail of the buffer. -/
structure Chunk (g : Log) (tail len : UInt16) : Prop where
  start : tail = g.tail
  pos : 0 < len.toNat
  le_chunk : len.toNat ≤ 96
  le_count : len.toNat ≤ count g
  le_size : tail.toNat + len.toNat ≤ 2048

/-- The length is that of the bytes up to the head or the end of the array, 96 at most. -/
theorem getContiguousLen_toNat {g : Log} (h : Inside g) :
    (getContiguousLen g).toNat = min 96 (min (count g) (2048 - g.tail.toNat)) := by
  obtain ⟨hh, ht⟩ := h
  have hsize : (UInt16.ofNat appLogBufferSize).toNat = 2048 := rfl
  have hchunk : appLogFlushChunkSize.toNat = 96 := rfl
  have clip (len : UInt16) : (if len > appLogFlushChunkSize then appLogFlushChunkSize else len).toNat =
      min 96 len.toNat := by
    simp only [gt_iff_lt, UInt16.lt_iff_toNat_lt, hchunk]
    split
    · omega
    · omega
  unfold getContiguousLen
  by_cases he : g.head = g.tail
  · have hcount := Inside.count_eq_zero ⟨hh, ht⟩ |>.mpr he
    rw [if_pos he, hcount]
    simp
  have hne : g.head.toNat ≠ g.tail.toNat := fun hn => he (UInt16.toNat_inj.mp hn)
  rw [if_neg he]
  simp only [clip]
  by_cases hgt : g.head > g.tail
  · have hlt := UInt16.lt_iff_toNat_lt.mp hgt
    rw [if_pos hgt, UInt16.toNat_sub_of_le _ _ (UInt16.le_iff_toNat_le.mpr hlt.le)]
    unfold count
    omega
  · have hle := UInt16.le_iff_toNat_le.mp (UInt16.not_lt.mp hgt)
    rw [if_neg hgt, UInt16.toNat_sub_of_le _ _ (UInt16.le_iff_toNat_le.mpr (by omega)), hsize]
    unfold count
    omega

theorem chunk_getContiguousLen {g : Log} (h : Inside g) (hpos : getContiguousLen g > 0) :
    Chunk g g.tail (getContiguousLen g) := by
  have hlen := getContiguousLen_toNat h
  exact ⟨rfl, UInt16.lt_iff_toNat_lt.mp hpos, by omega, by omega, by have := h.tail; omega⟩

theorem Chunk.slice {g : Log} {tail len : UInt16} (h : Chunk g tail len) :
    g.buf.slice tail.toNat len.toNat = (pending g).take len.toNat := by
  have hsize : g.buf.toList.length = 2048 := g.buf.toList_length
  have hfit := h.le_size
  rw [pending, Circular.view_take _ _ _ _ h.le_count, ← h.start, Circular.view_of_le (by omega), Block.slice]

theorem Chunk.advanceTail {g : Log} {tail len : UInt16} (h : Chunk g tail len) (hin : Inside g) :
    Inside (advanceTail g len) ∧ pending (advanceTail g len) = (pending g).drop len.toNat := by
  obtain ⟨rfl, hpos, h96, hcount, hfit⟩ := h
  have ht := hin.tail
  have hhead := hin.tail_add_count
  have hlt : count g < 2048 := Nat.mod_lt _ (by decide)
  have hsize : (UInt16.ofNat appLogBufferSize).toNat = 2048 := rfl
  have hsum : (g.tail + len).toNat = g.tail.toNat + len.toNat := by rw [UInt16.toNat_add]; omega
  have htail : (AppLog.advanceTail g len).tail.toNat = (g.tail.toNat + len.toNat) % 2048 := by
    simp only [AppLog.advanceTail, ge_iff_le, UInt16.le_iff_toNat_le, hsum, hsize]
    split
    · rw [UInt16.toNat_sub_of_le _ _ (UInt16.le_iff_toNat_le.mpr (by omega)), hsum, hsize]
      omega
    · omega
  have hin' : Inside (AppLog.advanceTail g len) := ⟨hin.head, by omega⟩
  have hleft : ((AppLog.advanceTail g len).tail.toNat + (count g - len.toNat)) % 2048 = g.head.toNat := by
    rw [htail]
    omega
  have hcount' := hin'.count_unique (by omega) hleft
  refine ⟨hin', ?_⟩
  have hbuf : g.buf.toList.length = 2048 := g.buf.toList_length
  rw [pending, pending, hcount', htail, show (AppLog.advanceTail g len).buf = g.buf from rfl,
    Circular.view_drop (by omega) hcount, ← hbuf, Circular.view_mod]

/-! ## Runs -/

/-- The chunk `AppLog_Process` has taken and not released. -/
def Pc.chunk : Pc → Option (UInt16 × UInt16)
  | .idle => none
  | .taken tail len | .written tail len => some (tail, len)

/-- The bytes not yet written: a chunk that is written is still in the buffer. -/
def contents (s : Sys) : List UInt8 :=
  match s.pc with
  | .idle | .taken .. => pending s.log
  | .written _ len => (pending s.log).drop len.toNat

structure Inv (s : Sys) : Prop where
  inside : Inside s.log
  chunk : ∀ tail len, s.pc.chunk = some (tail, len) → Chunk s.log tail len

theorem inv_start (g : Log) : Inv (start g) where
  inside := ⟨by simp [start, init], by simp [start, init]⟩
  chunk _ _ h := by cases h

theorem Chunk.appends {g g' : Log} {events : List Event} {tail len : UInt16} (h : Chunk g tail len)
    (ha : Appends g g' events) : Chunk g' tail len :=
  ⟨h.start.trans ha.tail.symm, h.pos, h.le_chunk, h.le_count.trans ha.count, h.le_size⟩

theorem write_eq {g : Log} {tail len : UInt16} (h : Chunk g tail len) :
    write g tail len = [.wrote tail len ((pending g).take len.toNat)] := by
  have hpos : len > 0 := UInt16.lt_iff_toNat_lt.mpr h.pos
  rw [write, if_pos hpos, h.slice]

/-- One step: it keeps the invariant, and what was to be written with what is
accepted is what it writes and what is then to be written. -/
theorem step_conserves {s : Sys} (h : Inv s) (i : Input) :
    Inv (step s i).1 ∧ contents s ++ (step s i).2.flatMap Event.stored =
      (step s i).2.flatMap Event.output ++ contents (step s i).1 := by
  obtain ⟨g, pc⟩ := s
  have hin := h.inside
  cases i with
  | printf text =>
    have ha := printf_appends hin text
    refine ⟨⟨ha.inside, fun tail len hc => (h.chunk tail len hc).appends ha⟩, ?_⟩
    simp only [step, ha.quiet, List.nil_append, contents]
    cases pc with
    | idle => exact ha.pending.symm
    | taken tail len => exact ha.pending.symm
    | written tail len =>
      have hle : len.toNat ≤ (pending g).length := by
        rw [length_pending]
        exact (h.chunk tail len rfl).le_count
      show (pending g).drop len.toNat ++ _ = (pending (printf g text).1).drop len.toNat
      rw [ha.pending, List.drop_append_of_le_length hle]
  | process =>
    cases pc with
    | idle =>
      simp only [step, snapshot]
      split
      · next hpos =>
        refine ⟨⟨hin, fun tail len hc => ?_⟩, List.append_nil _⟩
        cases hc
        exact chunk_getContiguousLen hin hpos
      · exact ⟨h, List.append_nil _⟩
    | taken tail len =>
      have hc := h.chunk tail len rfl
      refine ⟨⟨hin, fun tail' len' hc' => h.chunk tail' len' hc'⟩, ?_⟩
      simp only [step, contents, write_eq hc]
      simp [Event.stored, Event.output]
    | written tail len =>
      have hc := h.chunk tail len rfl
      obtain ⟨hin', hpend⟩ := hc.advanceTail hin
      refine ⟨⟨hin', fun _ _ hc' => by cases hc'⟩, ?_⟩
      simp only [step, contents]
      simp [hpend]

theorem inv_run (g : Log) (is : List Input) : Inv (Mealy.run step (start g) is) :=
  Mealy.inv_run (I := Inv) (fun _ i h => (step_conserves h i).1) (inv_start g) is

theorem contents_of_empty {s : Sys} (h : Inv s) (he : hasData s.log = false) : contents s = [] := by
  have hcount : count s.log = 0 := h.inside.count_eq_zero.mpr (by simpa [hasData] using he)
  have hpend : pending s.log = [] := by rw [pending, hcount, Circular.view_zero]
  unfold contents
  split
  · exact hpend
  · exact hpend
  · rw [hpend, List.drop_nil]

/-- The bytes accepted by `AppLog_PushByte`, and those given to `_write`. -/
def accepted (events : List Event) : List UInt8 := events.flatMap Event.stored

def written (events : List Event) : List UInt8 := events.flatMap Event.output

theorem accepted_eq (g : Log) (is : List Input) :
    accepted (Mealy.outs step (start g) is) =
      written (Mealy.outs step (start g) is) ++ contents (Mealy.run step (start g) is) := by
  have h := Mealy.conserve_run (I := Inv) (fun _ i h => (step_conserves h i).1) (fun _ i h => (step_conserves h i).2)
    (inv_start g) is
  rwa [contents_of_empty (inv_start g) rfl, List.nil_append] at h

/-- A chunk that is written is inside the array and not longer than the limit. -/
def Event.Fits : Event → Prop
  | .accepted .. => True
  | .wrote tail len chunk => len.toNat ≤ 96 ∧ tail.toNat + len.toNat ≤ 2048 ∧ chunk.length = len.toNat

theorem step_fits {s : Sys} (h : Inv s) (i : Input) : ∀ e ∈ (step s i).2, e.Fits := by
  obtain ⟨g, pc⟩ := s
  intro e hm
  cases i with
  | printf text =>
    obtain ⟨index, data, rfl, -⟩ := (printf_appends h.inside text).stored _ hm
    trivial
  | process =>
    cases pc with
    | idle => cases hm
    | written tail len => cases hm
    | taken tail len =>
      have hc := h.chunk tail len rfl
      simp only [step, write_eq hc, List.mem_singleton] at hm
      subst hm
      refine ⟨hc.le_chunk, hc.le_size, ?_⟩
      rw [List.length_take, length_pending]
      exact Nat.min_eq_left hc.le_count

/-- **A chunk that is taken and not released** is not written to: no byte is
stored at one of its indices, and it holds what it held. -/
theorem step_chunk {s : Sys} (h : Inv s) (i : Input) {tail len : UInt16} (hc : s.pc.chunk = some (tail, len)) :
    (∀ index data, .accepted index data ∈ (step s i).2 →
        ¬ (tail.toNat ≤ index.toNat ∧ index.toNat < tail.toNat + len.toNat)) ∧
      (step s i).1.log.buf.slice tail.toNat len.toNat = s.log.buf.slice tail.toNat len.toNat := by
  obtain ⟨g, pc⟩ := s
  have hchunk := h.chunk tail len hc
  cases i with
  | printf text =>
    have ha := printf_appends h.inside text
    refine ⟨fun index data hm hin => ?_, ?_⟩
    · obtain ⟨index', data', he, hapart⟩ := ha.stored _ hm
      cases he
      have hle := hchunk.le_count
      have hfit := hchunk.le_size
      have hne := hapart (index.toNat - tail.toNat) (by omega)
      have hstart := hchunk.start
      subst hstart
      exact hne (by omega)
    · have hle : len.toNat ≤ (pending g).length := by
        rw [length_pending]
        exact hchunk.le_count
      rw [hchunk.slice]
      simp only [step]
      rw [(hchunk.appends ha).slice, ha.pending, List.take_append_of_le_length hle]
  | process =>
    cases pc with
    | idle => cases hc
    | taken tail' len' =>
      refine ⟨fun index data hm => ?_, rfl⟩
      simp only [step, write_eq (h.chunk tail' len' rfl), List.mem_singleton, reduceCtorEq] at hm
    | written tail' len' => exact ⟨fun _ _ hm => absurd hm List.not_mem_nil, rfl⟩

/-- **The log buffer delivers every accepted byte once and in order.** In every
run of lines printed between the steps of `AppLog_Process`, what is written
is a prefix of what was accepted, and all of it when the buffer is empty;
chunks are inside the array, within the limit and not written to before they
are released; and both indices stay inside. -/
theorem log_delivers (g : Log) (is : List Input) :
    let s := Mealy.run step (start g) is
    let events := Mealy.outs step (start g) is
    written events <+: accepted events ∧ (hasData s.log = false → written events = accepted events) ∧
      (∀ tail len chunk, .wrote tail len chunk ∈ events →
        len.toNat ≤ 96 ∧ tail.toNat + len.toNat ≤ 2048 ∧ chunk.length = len.toNat) ∧
      (∀ tail len, s.pc.chunk = some (tail, len) → ∀ i,
        (∀ index data, .accepted index data ∈ (step s i).2 →
          ¬ (tail.toNat ≤ index.toNat ∧ index.toNat < tail.toNat + len.toNat)) ∧
        (step s i).1.log.buf.slice tail.toNat len.toNat = s.log.buf.slice tail.toNat len.toNat) ∧
      s.log.head.toNat < 2048 ∧ s.log.tail.toNat < 2048 := by
  intro s events
  have hinv : Inv s := inv_run g is
  have heq : accepted events = written events ++ contents s := accepted_eq g is
  have hfits : ∀ e ∈ events, e.Fits :=
    Mealy.forall_outs (I := Inv) (fun _ i h => (step_conserves h i).1) (fun _ i h => step_fits h i) (inv_start g) is
  refine ⟨⟨contents s, heq.symm⟩, fun he => ?_, fun tail len chunk hm => hfits _ hm,
    fun tail len hc i => step_chunk hinv i hc, hinv.inside.head, hinv.inside.tail⟩
  rw [heq, contents_of_empty hinv he, List.append_nil]

end UsbMux.AppLog
