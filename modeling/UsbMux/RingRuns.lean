/-
Runs of the ring buffer. Called by one party it answers every sequence of
calls as a bounded queue does (`ring_is_fifo`). Shared by a foreground task
and an interrupt, one of which only pushes and the other only pops, it loses,
repeats and invents nothing, wherever between two accesses of the foreground
the interrupt comes (`shared_ring_safe`).

The foreground's call is followed access by access (`PopPc`, `PushPc`), since
`head` and `tail` are volatile; the interrupt's call is a whole one.
-/
import UsbMux.Lib.Fifo
import UsbMux.RingBuffer

namespace UsbMux.RingBuffer

/-! ## Sequences of calls -/

/-- A call; the bytes to write are there to be read. -/
inductive Call
  | pushByte (data : UInt8)
  | popByte
  | write (data : List UInt8) (len : UInt16) (readable : len.toNat ≤ data.length)
  | read (len : UInt16)
  | reset
  | count
  | space
  | isEmpty
  | isFull

/-- The call as one of a queue. -/
def Call.op : Call → Fifo.Op UInt8
  | .pushByte data => .push data
  | .popByte => .pop
  | .write data len _ => .write (data.take len.toNat)
  | .read len => .read len.toNat
  | .reset => .reset
  | .count => .count
  | .space => .space
  | .isEmpty => .isEmpty
  | .isFull => .isFull

/-- The call made, with what it answers. -/
def step : Mealy.Step RingBuffer Call (Fifo.Answer UInt8)
  | rb, .pushByte data => match rb.pushByte data with
    | none => (rb, [.failed])
    | some rb => (rb, [.done])
  | rb, .popByte => match rb.popByte with
    | none => (rb, [.failed])
    | some (data, rb) => (rb, [.elem data])
  | rb, .write data len _ => let r := rb.write (some data) len; (r.1, [.number r.2.toNat])
  | rb, .read len => let r := rb.read len; (r.1, [.elems r.2])
  | rb, .reset => (rb.reset, [.none])
  | rb, .count => (rb, [.number rb.count.toNat])
  | rb, .space => (rb, [.number rb.space.toNat])
  | rb, .isEmpty => (rb, [.truth rb.isEmpty])
  | rb, .isFull => (rb, [.truth rb.isFull])

/-- The ring stands for a queue of `size - 1` bytes. -/
def Stands (size : UInt16) (rb : RingBuffer) (l : List UInt8) : Prop := rb.toList = l ∧ rb.size = size

theorem isEmpty_iff (rb : RingBuffer) : rb.isEmpty = decide (rb.toList.length = 0) := by
  rw [Bool.eq_iff_iff, decide_eq_true_iff, isEmpty, beq_iff_eq, ← UInt16.toNat_inj, length_toList]
  rfl

theorem isFull_iff (rb : RingBuffer) : rb.isFull = decide (rb.toList.length = rb.size.toNat - 1) := by
  have hlt := rb.length_toList_lt
  rw [Bool.eq_iff_iff, decide_eq_true_iff, isFull, beq_iff_eq, ← UInt16.toNat_inj, space_toNat]
  simp only [UInt16.toNat_zero]
  omega

theorem step_stands {size : UInt16} {rb : RingBuffer} {l : List UInt8} (c : Call) (h : Stands size rb l) :
    Stands size (step rb c).1 (Fifo.step (size.toNat - 1) l c.op).1 ∧
      (step rb c).2 = (Fifo.step (size.toNat - 1) l c.op).2 := by
  obtain ⟨rfl, rfl⟩ := h
  cases c with
  | pushByte data =>
    simp only [step, Call.op, Fifo.step]
    cases hp : rb.pushByte data with
    | none =>
      rw [if_pos ((rb.pushByte_eq_none data).mp hp)]
      exact ⟨⟨rfl, rfl⟩, rfl⟩
    | some rb' =>
      have hne : rb.toList.length ≠ rb.size.toNat - 1 := by
        rw [Ne, ← rb.pushByte_eq_none data, hp]
        simp
      rw [if_neg hne]
      exact ⟨pushByte_toList hp, rfl⟩
  | popByte =>
    simp only [step, Call.op]
    rcases rb.popByte_toList with ⟨hp, hl⟩ | ⟨b, rb', hp, hl, hs⟩
    · rw [hp, hl]
      exact ⟨⟨hl, rfl⟩, rfl⟩
    · rw [hp, hl]
      exact ⟨⟨rfl, hs⟩, rfl⟩
  | write data len readable =>
    obtain ⟨h1, h2, h3⟩ := rb.write_toList readable
    have hlen : (data.take len.toNat).length = len.toNat := List.length_take_of_le readable
    simp only [step, Call.op, Fifo.step]
    rw [h3, hlen]
    exact ⟨⟨h1, h2⟩, rfl⟩
  | read len =>
    obtain ⟨h1, h2, h3⟩ := rb.readLoop_toList len.toNat
    simp only [step, Call.op, Fifo.step, read]
    rw [h1]
    exact ⟨⟨h2, h3⟩, rfl⟩
  | reset => exact ⟨⟨toList_reset rb, rfl⟩, rfl⟩
  | count =>
    simp only [step, Call.op, Fifo.step, length_toList]
    exact ⟨⟨rfl, rfl⟩, trivial⟩
  | space =>
    simp only [step, Call.op, Fifo.step, space_toNat]
    exact ⟨⟨rfl, rfl⟩, trivial⟩
  | isEmpty =>
    simp only [step, Call.op, Fifo.step, isEmpty_iff]
    exact ⟨⟨rfl, rfl⟩, trivial⟩
  | isFull =>
    simp only [step, Call.op, Fifo.step, isFull_iff]
    exact ⟨⟨rfl, rfl⟩, trivial⟩

/-- **The ring is a bounded queue.** On a buffer of any size from 2 on, every
sequence of calls is answered as a queue of at most `size - 1` bytes answers
it, and leaves the ring with the bytes of the queue. -/
theorem ring_is_fifo (buf : List UInt8) (size : UInt16) (h : 2 ≤ size) (hb : buf.length = size.toNat)
    (cs : List Call) :
    let cap := size.toNat - 1
    Mealy.outs step (init buf size h hb) cs = Mealy.outs (Fifo.step cap) [] (cs.map Call.op) ∧
      (Mealy.run step (init buf size h hb) cs).toList = Mealy.run (Fifo.step cap) [] (cs.map Call.op) ∧
      (Mealy.run step (init buf size h hb) cs).toList.length ≤ cap := by
  intro cap
  obtain ⟨hrun, houts⟩ := Mealy.sim_run (R := Stands size) (fun _ _ c hs => step_stands c hs)
    ⟨toList_init buf size h hb, rfl⟩ cs
  refine ⟨houts, hrun.1, ?_⟩
  rw [hrun.1]
  exact Fifo.length_run_le cap _

/-- A ring of three cells: it takes two of three bytes, and gives them back in order. -/
theorem ring_is_fifo_three :
    let cs : List Call := [.write [1, 2, 3] 3 (by decide), .popByte, .pushByte 4, .read 9]
    Mealy.outs step (init [0, 0, 0] 3 (by decide) rfl) cs = Mealy.outs (Fifo.step 2) [] (cs.map Call.op) ∧
      (Mealy.run step (init [0, 0, 0] 3 (by decide) rfl) cs).toList =
        Mealy.run (Fifo.step 2) [] (cs.map Call.op) ∧
      (Mealy.run step (init [0, 0, 0] 3 (by decide) rfl) cs).toList.length ≤ 2 :=
  ring_is_fifo [0, 0, 0] 3 (by decide) rfl _

/-! ## Foreground and interrupt -/

/-- What happened to the ring: a push or a pop that was answered 0, or one that was answered -1. -/
inductive Event
  | pushed (data : UInt8)
  | popped (data : UInt8)
  | failed
deriving DecidableEq

/-- The bytes of the successful pushes. -/
def pushedBytes (tr : List Event) : List UInt8 :=
  tr.filterMap fun
    | .pushed data => some data
    | _ => none

/-- The bytes of the successful pops. -/
def poppedBytes (tr : List Event) : List UInt8 :=
  tr.filterMap fun
    | .popped data => some data
    | _ => none

@[simp] theorem pushedBytes_append (tr us : List Event) : pushedBytes (tr ++ us) = pushedBytes tr ++ pushedBytes us :=
  List.filterMap_append

@[simp] theorem poppedBytes_append (tr us : List Event) : poppedBytes (tr ++ us) = poppedBytes tr ++ poppedBytes us :=
  List.filterMap_append

/-- A whole push, as an interrupt makes it. -/
def irqPush (rb : RingBuffer) (data : UInt8) : RingBuffer × List Event :=
  match rb.pushByte data with
  | none => (rb, [.failed])
  | some rb => (rb, [.pushed data])

/-- A whole pop. -/
def irqPop (rb : RingBuffer) : RingBuffer × List Event :=
  match rb.popByte with
  | none => (rb, [.failed])
  | some (data, rb) => (rb, [.popped data])

/-- How far a call of `RingBuffer_PopByte` has come, with what it has read. -/
inductive PopPc
  /-- no call -/
  | idle
  /-- `rb->head` is read, to be compared with `rb->tail` -/
  | compare (head : UInt16)
  /-- the two differed -/
  | differed
  /-- `rb->tail` is read, to index the array -/
  | index (tail : UInt16)
  /-- `*data` is written -/
  | loaded (data : UInt8)
  /-- `rb->tail` is read, to be moved on -/
  | moving (data : UInt8) (tail : UInt16)
deriving DecidableEq

/-- The next access of `RingBuffer_PopByte`, a call begun if there is none. -/
def popAccess (rb : RingBuffer) : PopPc → (RingBuffer × PopPc) × List Event
  | .idle => ((rb, .compare rb.head), [])
  | .compare head => if head = rb.tail then ((rb, .idle), [.failed]) else ((rb, .differed), [])
  | .differed => ((rb, .index rb.tail), [])
  | .index tail => ((rb, .loaded (rb.buf.getD tail.toNat 0)), [])
  | .loaded data => ((rb, .moving data rb.tail), [])
  | .moving data tail =>
    (({ rb with tail := rb.nextIndex tail, tail_lt := rb.nextIndex_lt tail }, .idle), [.popped data])

/-- How far a call of `RingBuffer_PushByte` has come. `next_head` is kept as
the index it was computed from, `source`. -/
inductive PushPc
  /-- no call -/
  | idle
  /-- `rb->head` is read, and `next_head` computed -/
  | next (data : UInt8) (source : UInt16)
  /-- `rb->tail` was not `next_head` -/
  | room (data : UInt8) (source : UInt16)
  /-- `rb->head` is read, to index the array -/
  | index (data : UInt8) (source head : UInt16)
  /-- the cell is written -/
  | stored (data : UInt8) (source : UInt16)
deriving DecidableEq

/-- The next access of `RingBuffer_PushByte`, a call for `data` begun if there is none. -/
def pushAccess (rb : RingBuffer) (data : UInt8) : PushPc → (RingBuffer × PushPc) × List Event
  | .idle => ((rb, .next data rb.head), [])
  | .next data source =>
    if rb.nextIndex source = rb.tail then ((rb, .idle), [.failed]) else ((rb, .room data source), [])
  | .room data source => ((rb, .index data source rb.head), [])
  | .index data source head =>
    (({ rb with buf := rb.buf.set head.toNat data, buf_length := by rw [List.length_set]; exact rb.buf_length },
      .stored data source), [])
  | .stored data source =>
    (({ rb with head := rb.nextIndex source, head_lt := rb.nextIndex_lt source }, .idle), [.pushed data])

/-- The foreground pops and the interrupt pushes. -/
inductive PopSide
  | foreground
  | irq (data : UInt8)

/-- The foreground pushes and the interrupt pops; `data` counts where the
foreground begins a call. -/
inductive PushSide
  | foreground (data : UInt8)
  | irq

/-- A ring filled by an interrupt: an access of the foreground, or a whole push. -/
def popStep : Mealy.Step (RingBuffer × PopPc) PopSide Event
  | (rb, pc), .foreground => popAccess rb pc
  | (rb, pc), .irq data => let r := irqPush rb data; ((r.1, pc), r.2)

/-- A ring drained by an interrupt. -/
def pushStep : Mealy.Step (RingBuffer × PushPc) PushSide Event
  | (rb, pc), .foreground data => pushAccess rb data pc
  | (rb, pc), .irq => let r := irqPop rb; ((r.1, pc), r.2)

/-! ### The accesses make up the call -/

/-- Two or six accesses without an interrupt are a call of `RingBuffer_PopByte`. -/
theorem popAccess_alone (rb : RingBuffer) :
    let is (n : Nat) := List.replicate n PopSide.foreground
    (rb.popByte = none → Mealy.run popStep (rb, .idle) (is 2) = (rb, .idle) ∧
      Mealy.outs popStep (rb, .idle) (is 2) = [.failed]) ∧
    ∀ data rb', rb.popByte = some (data, rb') → Mealy.run popStep (rb, .idle) (is 6) = (rb', .idle) ∧
      Mealy.outs popStep (rb, .idle) (is 6) = [.popped data] := by
  intro is
  constructor
  · intro hp
    have he : rb.head = rb.tail := by
      by_contra hne
      rw [popByte, if_neg hne] at hp
      cases hp
    simp [is, List.replicate, popStep, popAccess, he]
  · intro data rb' hp
    have hne : rb.head ≠ rb.tail := by
      intro he
      rw [popByte, if_pos he] at hp
      cases hp
    rw [popByte, if_neg hne] at hp
    cases hp
    simp [is, List.replicate, popStep, popAccess, hne, discard]

/-- Two or five accesses without an interrupt are a call of `RingBuffer_PushByte`. -/
theorem pushAccess_alone (rb : RingBuffer) (data : UInt8) :
    let is (n : Nat) := List.replicate n (PushSide.foreground data)
    (rb.pushByte data = none → Mealy.run pushStep (rb, .idle) (is 2) = (rb, .idle) ∧
      Mealy.outs pushStep (rb, .idle) (is 2) = [.failed]) ∧
    ∀ rb', rb.pushByte data = some rb' → Mealy.run pushStep (rb, .idle) (is 5) = (rb', .idle) ∧
      Mealy.outs pushStep (rb, .idle) (is 5) = [.pushed data] := by
  intro is
  rw [pushByte, if_neg rb.not_size_lt_two]
  by_cases he : rb.nextIndex rb.head = rb.tail
  · rw [if_pos he]
    constructor
    · intro _
      simp [is, List.replicate, pushStep, pushAccess, he]
    · intro rb' h
      cases h
  · rw [if_neg he]
    constructor
    · intro h
      cases h
    · intro rb' h
      cases h
      simp only [is, List.replicate, Mealy.run_cons, Mealy.outs_cons, pushStep, pushAccess, if_neg he]
      exact ⟨rfl, rfl⟩

/-! ### Between two accesses -/

theorem toList_ne_nil_iff (rb : RingBuffer) : rb.toList ≠ [] ↔ rb.head ≠ rb.tail := by
  constructor
  · intro h he
    rcases rb.popByte_toList with ⟨-, hl⟩ | ⟨b, rb', hp, -, -⟩
    · exact h hl
    · rw [popByte, if_pos he] at hp
      cases hp
  · intro h
    rw [discard_toList h]
    exact List.cons_ne_nil _ _

/-- What a call of `RingBuffer_PopByte` may rely on once it has come so far:
pushes only add behind the byte it is about to take. -/
def PopPc.Ok (rb : RingBuffer) : PopPc → Prop
  | .idle => True
  | .compare head => head ≠ rb.tail → rb.toList ≠ []
  | .differed => rb.toList ≠ []
  | .index tail => tail = rb.tail ∧ rb.toList ≠ []
  | .loaded data => rb.toList.head? = some data
  | .moving data tail => tail = rb.tail ∧ rb.toList.head? = some data

/-- What a call of `RingBuffer_PushByte` may rely on: pops only make room. -/
def PushPc.Ok (rb : RingBuffer) : PushPc → Prop
  | .idle => True
  | .next _ source => source = rb.head
  | .room _ source => source = rb.head ∧ rb.toList.length ≠ rb.size.toNat - 1
  | .index _ source head => source = rb.head ∧ head = rb.head ∧ rb.toList.length ≠ rb.size.toNat - 1
  | .stored data source => source = rb.head ∧ rb.buf[rb.head.toNat]? = some data ∧
      rb.toList.length ≠ rb.size.toNat - 1

/-- What has been pushed and not popped is in the ring. -/
def Conserved (rb : RingBuffer) (tr : List Event) : Prop := pushedBytes tr = poppedBytes tr ++ rb.toList

/-- A step that adds `new` to what is pushed, and takes `old` from the front. -/
theorem Conserved.step {rb rb' : RingBuffer} {tr evs : List Event} (h : Conserved rb tr)
    (hl : rb.toList ++ pushedBytes evs = poppedBytes evs ++ rb'.toList) : Conserved rb' (tr ++ evs) := by
  rw [Conserved, pushedBytes_append, poppedBytes_append, h, List.append_assoc, hl, List.append_assoc]

theorem irqPush_cases (rb : RingBuffer) (data : UInt8) :
    irqPush rb data = (rb, [.failed]) ∨ irqPush rb data = (rb.store data, [.pushed data]) ∧
      (rb.store data).toList = rb.toList ++ [data] := by
  unfold irqPush
  cases hp : rb.pushByte data with
  | none => exact .inl rfl
  | some rb' =>
    have hl := (pushByte_toList hp).1
    have hs : rb' = rb.store data := by
      simp only [pushByte, if_neg rb.not_size_lt_two] at hp
      split at hp
      · cases hp
      · exact (Option.some.inj hp).symm
    subst hs
    exact .inr ⟨rfl, hl⟩

theorem irqPop_cases (rb : RingBuffer) :
    irqPop rb = (rb, [.failed]) ∨
      ∃ data, irqPop rb = (rb.discard, [.popped data]) ∧ rb.toList = data :: rb.discard.toList := by
  unfold irqPop popByte
  by_cases he : rb.head = rb.tail
  · rw [if_pos he]
    exact .inl rfl
  · rw [if_neg he]
    exact .inr ⟨_, rfl, discard_toList he⟩

theorem toList_set_head (rb : RingBuffer) (data : UInt8) (hb : (rb.buf.set rb.head.toNat data).length = rb.size.toNat) :
    { rb with buf := rb.buf.set rb.head.toNat data, buf_length := hb }.toList = rb.toList := by
  obtain ⟨hc, hch⟩ := rb.count_toNat
  have hview := Circular.view_set_of_le (i := rb.tail.toNat) (le_refl rb.count.toNat)
    (by rw [rb.buf_length]; exact hc) data
  rw [rb.buf_length, hch] at hview
  exact hview

/-- The byte an interrupt pushes leaves the foreground's call what it relies on. -/
theorem PopPc.Ok.mono {rb rb' : RingBuffer} {pc : PopPc} (h : pc.Ok rb) {l : List UInt8}
    (hl : rb'.toList = rb.toList ++ l) (ht : rb'.tail = rb.tail) : pc.Ok rb' := by
  have hne (h : rb.toList ≠ []) : rb'.toList ≠ [] := by
    rw [hl]
    exact List.append_ne_nil_of_left_ne_nil h l
  have hhead {b : UInt8} (h : rb.toList.head? = some b) : rb'.toList.head? = some b := by
    rw [hl, List.head?_append, h]
    rfl
  cases pc with
  | idle => trivial
  | compare head => exact fun he => hne (h (ht ▸ he))
  | differed => exact hne h
  | index tail => exact ⟨h.1.trans ht.symm, hne h.2⟩
  | loaded data => exact hhead h
  | moving data tail => exact ⟨h.1.trans ht.symm, hhead h.2⟩

theorem PushPc.Ok.mono {rb rb' : RingBuffer} {pc : PushPc} (h : pc.Ok rb)
    (hl : rb'.toList.length ≤ rb.toList.length) (hh : rb'.head = rb.head) (hs : rb'.size = rb.size)
    (hb : rb'.buf = rb.buf) : pc.Ok rb' := by
  have hlt := rb.length_toList_lt
  have hroom (h : rb.toList.length ≠ rb.size.toNat - 1) : rb'.toList.length ≠ rb'.size.toNat - 1 := by
    rw [hs]
    omega
  cases pc with
  | idle => trivial
  | next data source => exact h.trans hh.symm
  | room data source => exact ⟨h.1.trans hh.symm, hroom h.2⟩
  | index data source head => exact ⟨h.1.trans hh.symm, h.2.1.trans hh.symm, hroom h.2.2⟩
  | stored data source => exact ⟨h.1.trans hh.symm, by rw [hb, hh]; exact h.2.1, hroom h.2.2⟩

theorem popAccess_ok {rb : RingBuffer} {pc : PopPc} {tr : List Event} (hpc : pc.Ok rb) (hc : Conserved rb tr) :
    let r := popAccess rb pc
    r.1.2.Ok r.1.1 ∧ Conserved r.1.1 (tr ++ r.2) := by
  have hquiet : Conserved rb (tr ++ []) := by rwa [List.append_nil]
  cases pc with
  | idle => exact ⟨rb.toList_ne_nil_iff.mpr, hquiet⟩
  | compare head =>
    simp only [popAccess]
    split
    · exact ⟨trivial, hc.step (by simp [pushedBytes, poppedBytes])⟩
    · next hne => exact ⟨hpc hne, hquiet⟩
  | differed => exact ⟨⟨rfl, hpc⟩, hquiet⟩
  | index tail =>
    obtain ⟨rfl, hne⟩ := hpc
    refine ⟨?_, hquiet⟩
    have hl := discard_toList (rb.toList_ne_nil_iff.mp hne)
    show rb.toList.head? = _
    rw [hl, List.head?_cons]
  | loaded data => exact ⟨⟨rfl, hpc⟩, hquiet⟩
  | moving data tail =>
    obtain ⟨rfl, hd⟩ := hpc
    have hne : rb.toList ≠ [] := fun h => by simp [h] at hd
    have hl := discard_toList (rb.toList_ne_nil_iff.mp hne)
    rw [hl, List.head?_cons, Option.some.injEq] at hd
    refine ⟨trivial, hc.step ?_⟩
    rw [hl, hd]
    simp [pushedBytes, poppedBytes, popAccess, discard]

theorem pushAccess_ok {rb : RingBuffer} {pc : PushPc} {tr : List Event} (data : UInt8) (hpc : pc.Ok rb)
    (hc : Conserved rb tr) :
    let r := pushAccess rb data pc
    r.1.2.Ok r.1.1 ∧ Conserved r.1.1 (tr ++ r.2) := by
  have hquiet : Conserved rb (tr ++ []) := by rwa [List.append_nil]
  cases pc with
  | idle => exact ⟨rfl, hquiet⟩
  | next data source =>
    cases hpc
    simp only [pushAccess]
    split
    · exact ⟨trivial, hc.step (by simp [pushedBytes, poppedBytes])⟩
    · next hne =>
      refine ⟨⟨rfl, ?_⟩, hquiet⟩
      intro hfull
      have hp := (rb.pushByte_eq_none data).mpr hfull
      rw [pushByte, if_neg rb.not_size_lt_two, if_neg hne] at hp
      cases hp
  | room data source => exact ⟨⟨hpc.1, rfl, hpc.2⟩, hquiet⟩
  | index data source head =>
    obtain ⟨rfl, rfl, hroom⟩ := hpc
    have hl := toList_set_head _ data (by rw [List.length_set]; exact rb.buf_length)
    have hlt : rb.head.toNat < rb.buf.length := by
      rw [rb.buf_length]
      exact rb.size_bounds.2.1
    refine ⟨⟨rfl, List.getElem?_set_self hlt, ?_⟩, hc.step ?_⟩
    · rw [← hl] at hroom
      exact hroom
    · show rb.toList ++ [] = [] ++ _
      rw [List.append_nil, List.nil_append]
      exact hl.symm
  | stored data source =>
    obtain ⟨rfl, hcell, hroom⟩ := hpc
    -- the cell holds the byte, so moving the head on is the whole store
    have hset : rb.buf.set rb.head.toNat data = rb.buf := by
      obtain ⟨hlt, hget⟩ := List.getElem?_eq_some_iff.mp hcell
      rw [← hget, List.set_getElem_self]
    have hstore := store_toList hroom data
    simp only [store, hset] at hstore
    refine ⟨trivial, hc.step ?_⟩
    exact hstore.symm

theorem popStep_ok {s : RingBuffer × PopPc} {tr : List Event} (i : PopSide) (hpc : s.2.Ok s.1) (hc : Conserved s.1 tr) :
    let r := popStep s i
    r.1.2.Ok r.1.1 ∧ Conserved r.1.1 (tr ++ r.2) := by
  obtain ⟨rb, pc⟩ := s
  cases i with
  | foreground => exact popAccess_ok hpc hc
  | irq data =>
    simp only [popStep]
    rcases irqPush_cases rb data with he | ⟨he, hl⟩
    · rw [he]
      exact ⟨hpc, hc.step (by simp [pushedBytes, poppedBytes])⟩
    · rw [he]
      exact ⟨hpc.mono hl rfl, hc.step (by simp [pushedBytes, poppedBytes, hl])⟩

theorem pushStep_ok {s : RingBuffer × PushPc} {tr : List Event} (i : PushSide) (hpc : s.2.Ok s.1)
    (hc : Conserved s.1 tr) :
    let r := pushStep s i
    r.1.2.Ok r.1.1 ∧ Conserved r.1.1 (tr ++ r.2) := by
  obtain ⟨rb, pc⟩ := s
  cases i with
  | foreground data => exact pushAccess_ok data hpc hc
  | irq =>
    simp only [pushStep]
    rcases irqPop_cases rb with he | ⟨data, he, hl⟩
    · rw [he]
      exact ⟨hpc, hc.step (by simp [pushedBytes, poppedBytes])⟩
    · rw [he]
      have hle : rb.discard.toList.length ≤ rb.toList.length := by
        rw [hl, List.length_cons]
        omega
      exact ⟨hpc.mono hle rfl rfl rfl, hc.step (by simp [pushedBytes, poppedBytes, hl])⟩

/-- The bytes popped are the first of those pushed, the ring holds the others,
and it holds `size - 1` at most. -/
def Safe (size : UInt16) (rb : RingBuffer) (tr : List Event) : Prop :=
  poppedBytes tr <+: pushedBytes tr ∧ pushedBytes tr = poppedBytes tr ++ rb.toList ∧
    rb.toList.length ≤ size.toNat - 1

theorem Conserved.safe {rb : RingBuffer} {tr : List Event} (h : Conserved rb tr) : Safe rb.size rb tr := by
  have hlt := rb.length_toList_lt
  refine ⟨?_, h, by omega⟩
  rw [h]
  exact List.prefix_append _ _

theorem size_irqPush (rb : RingBuffer) (data : UInt8) : (irqPush rb data).1.size = rb.size := by
  rcases irqPush_cases rb data with he | ⟨he, -⟩
  · rw [he]
  · rw [he]
    rfl

theorem size_irqPop (rb : RingBuffer) : (irqPop rb).1.size = rb.size := by
  rcases irqPop_cases rb with he | ⟨data, he, -⟩
  · rw [he]
  · rw [he]
    rfl

theorem size_popStep (s : RingBuffer × PopPc) (i : PopSide) : (popStep s i).1.1.size = s.1.size := by
  obtain ⟨rb, pc⟩ := s
  cases i with
  | irq data => exact size_irqPush rb data
  | foreground => cases pc with
    | compare head =>
      simp only [popStep, popAccess]
      split <;> rfl
    | _ => rfl

theorem size_pushStep (s : RingBuffer × PushPc) (i : PushSide) : (pushStep s i).1.1.size = s.1.size := by
  obtain ⟨rb, pc⟩ := s
  cases i with
  | irq => exact size_irqPop rb
  | foreground data => cases pc with
    | next data source =>
      simp only [pushStep, pushAccess]
      split <;> rfl
    | _ => rfl

/-- **One side in the foreground, one in an interrupt.** However the
foreground's accesses and the interrupt's whole calls interleave, in either
direction, no byte is lost, repeated or invented. -/
theorem shared_ring_safe (buf : List UInt8) (size : UInt16) (h : 2 ≤ size) (hb : buf.length = size.toNat) :
    let start := init buf size h hb
    (∀ is, Safe size (Mealy.run popStep (start, .idle) is).1 (Mealy.outs popStep (start, .idle) is)) ∧
      ∀ is, Safe size (Mealy.run pushStep (start, .idle) is).1 (Mealy.outs pushStep (start, .idle) is) := by
  intro start
  have hstart : Conserved start [] := (toList_init buf size h hb).symm
  constructor
  · intro is
    have hkeep : ∀ (s : RingBuffer × PopPc) (tr : List Event) i, s.2.Ok s.1 ∧ Conserved s.1 tr ∧ s.1.size = size →
        (popStep s i).1.2.Ok (popStep s i).1.1 ∧ Conserved (popStep s i).1.1 (tr ++ (popStep s i).2) ∧
          (popStep s i).1.1.size = size := by
      intro s tr i hj
      obtain ⟨hok, hc⟩ := popStep_ok i hj.1 hj.2.1
      exact ⟨hok, hc, (size_popStep s i).trans hj.2.2⟩
    obtain ⟨-, hc, hs⟩ := Mealy.history_run (J := fun (s : RingBuffer × PopPc) tr => s.2.Ok s.1 ∧ Conserved s.1 tr ∧
      s.1.size = size) hkeep (s := (start, .idle)) ⟨trivial, hstart, rfl⟩ is
    rw [← hs]
    exact hc.safe
  · intro is
    have hkeep : ∀ (s : RingBuffer × PushPc) (tr : List Event) i, s.2.Ok s.1 ∧ Conserved s.1 tr ∧ s.1.size = size →
        (pushStep s i).1.2.Ok (pushStep s i).1.1 ∧ Conserved (pushStep s i).1.1 (tr ++ (pushStep s i).2) ∧
          (pushStep s i).1.1.size = size := by
      intro s tr i hj
      obtain ⟨hok, hc⟩ := pushStep_ok i hj.1 hj.2.1
      exact ⟨hok, hc, (size_pushStep s i).trans hj.2.2⟩
    obtain ⟨-, hc, hs⟩ := Mealy.history_run (J := fun (s : RingBuffer × PushPc) tr => s.2.Ok s.1 ∧ Conserved s.1 tr ∧
      s.1.size = size) hkeep (s := (start, .idle)) ⟨trivial, hstart, rfl⟩ is
    rw [← hs]
    exact hc.safe

/-- The safe run of a ring of two cells. -/
theorem shared_ring_safe_two :
    let start := init [0, 0] 2 (by decide) rfl
    (∀ is, Safe 2 (Mealy.run popStep (start, .idle) is).1 (Mealy.outs popStep (start, .idle) is)) ∧
      ∀ is, Safe 2 (Mealy.run pushStep (start, .idle) is).1 (Mealy.outs pushStep (start, .idle) is) :=
  shared_ring_safe [0, 0] 2 (by decide) rfl

/-- A byte pushed while the pop has read the tail and not yet moved it. -/
example : Mealy.outs popStep (init [0, 0, 0] 3 (by decide) rfl, .idle)
    [.irq 7, .foreground, .foreground, .foreground, .irq 8, .irq 9, .foreground, .foreground, .foreground, .irq 9] =
      [.pushed 7, .pushed 8, .failed, .popped 7, .pushed 9] := by decide

end UsbMux.RingBuffer
