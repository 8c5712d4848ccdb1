/-
FLUSH_TX while the line is fed by interrupts. `RingBuffer_Reset` clears the
head and then the tail, and the transmit interrupt stays enabled; an interrupt
between the two finds the bytes from the tail to the end of the array, whether
they wait or are long gone.

Every accepted byte has a number, and beside the array stands which number
each cell holds (`Prov`). The bytes an interrupt returns are right if their
numbers rise (`Prov.InOrder`).
-/
import UsbMux.Lib.Mealy
import UsbMux.UartFacts

namespace UsbMux

namespace RingBuffer

/-- The first write of `RingBuffer_Reset`. -/
def clearHead (rb : RingBuffer) : RingBuffer := { rb with head := 0, head_lt := rb.zero_lt }

/-- Its second write. -/
def clearTail (rb : RingBuffer) : RingBuffer := { rb with tail := 0, tail_lt := rb.zero_lt }

theorem clearTail_clearHead (rb : RingBuffer) : rb.clearHead.clearTail = rb.reset := rfl

end RingBuffer

namespace FlushRace

open UartMgr

/-! ## Where bytes come from -/

/-- Beside a ring: for each cell of its array the number of the accepted byte
it holds, the bytes accepted, and those returned with their numbers. -/
structure Prov where
  cell : Nat → Option Nat
  accepted : List UInt8
  returned : List (UInt8 × Option Nat)

namespace Prov

/-- Nothing accepted yet. -/
def start : Prov := ⟨fun _ => none, [], []⟩

/-- A byte put into the cell at the head. -/
def accept (g : Prov) (rb : RingBuffer) (b : UInt8) : Prov :=
  { g with cell := Function.update g.cell rb.head.toNat (some g.accepted.length), accepted := g.accepted ++ [b] }

/-- The bytes the loop of `RingBuffer_Write` accepts. -/
def write (g : Prov) (rb : RingBuffer) : List UInt8 → Prov
  | [] => g
  | b :: bs =>
    match rb.pushByte b with
    | none => g
    | some rb' => write (g.accept rb b) rb' bs

/-- A byte returned from the cell at the tail. -/
def ret (g : Prov) (rb : RingBuffer) (b : UInt8) : Prov :=
  { g with returned := g.returned ++ [(b, g.cell rb.tail.toNat)] }

/-- The number after that of the last byte returned. -/
def due (g : Prov) : Nat :=
  match g.returned.getLast? with
  | some (_, some n) => n + 1
  | _ => 0

@[simp] theorem due_accept (g : Prov) (rb : RingBuffer) (b : UInt8) : (g.accept rb b).due = g.due := rfl

theorem due_ret {g : Prov} {rb : RingBuffer} {n : Nat} (h : g.cell rb.tail.toNat = some n) (b : UInt8) :
    (g.ret rb b).due = n + 1 := by
  simp only [due, ret, List.getLast?_concat, h]

/-- Every byte returned was accepted before, none twice, and in the order of acceptance. -/
structure InOrder (g : Prov) : Prop where
  accepted : ∀ r ∈ g.returned, ∃ n, r.2 = some n ∧ g.accepted[n]? = some r.1
  ordered : g.returned.Pairwise fun r r' => ∀ n n', r.2 = some n → r'.2 = some n' → n < n'

theorem inOrder_start : start.InOrder where
  accepted _ h := by cases h
  ordered := .nil

theorem inOrder_accept (g : Prov) (rb : RingBuffer) (b : UInt8) (hk : ∀ r ∈ g.returned, ∀ n, r.2 = some n →
    g.accepted[n]? = some r.1) : (g.accept rb b).InOrder ↔ g.InOrder := by
  constructor
  · intro h
    refine ⟨fun r hr => ?_, h.ordered⟩
    obtain ⟨n, hn, -⟩ := h.accepted r hr
    exact ⟨n, hn, hk r hr n hn⟩
  · intro h
    refine ⟨fun r hr => ?_, h.ordered⟩
    obtain ⟨n, hn, hb⟩ := h.accepted r hr
    obtain ⟨hlt, -⟩ := List.getElem?_eq_some_iff.mp hb
    refine ⟨n, hn, ?_⟩
    show (g.accepted ++ [b])[n]? = some r.1
    rw [List.getElem?_append_left hlt, hb]

theorem InOrder.of_ret {g : Prov} {rb : RingBuffer} {b : UInt8} (h : (g.ret rb b).InOrder) : g.InOrder where
  accepted r hr := h.accepted r (List.mem_append_left _ hr)
  ordered := (List.pairwise_append.mp h.ordered).1

theorem InOrder.lt_due {g : Prov} (h : g.InOrder) {r : UInt8 × Option Nat} (hr : r ∈ g.returned) {n : Nat}
    (hn : r.2 = some n) : n < g.due := by
  rcases List.eq_nil_or_concat g.returned with he | ⟨rs, last, he⟩
  · rw [he] at hr
    cases hr
  · rw [List.concat_eq_append] at he
    have hlast : last ∈ g.returned := by simp [he]
    obtain ⟨m, hm, -⟩ := h.accepted last hlast
    have hdue : g.due = m + 1 := by
      obtain ⟨b, o⟩ := last
      cases hm
      simp [due, he]
    rw [hdue]
    have ho := h.ordered
    rw [he] at hr ho
    rcases List.mem_append.mp hr with hr | hr
    · exact Nat.lt_succ_of_lt ((List.pairwise_append.mp ho).2.2 r hr last (by simp) n m hn hm)
    · rw [List.mem_singleton.mp hr, hm] at hn
      cases hn
      exact Nat.lt_succ_self n

/-- The next byte is in order exactly if it has been accepted and comes after the last one. -/
theorem inOrder_ret_iff {g : Prov} (h : g.InOrder) {rb : RingBuffer} {b : UInt8}
    (hb : ∀ n, g.cell rb.tail.toNat = some n → g.accepted[n]? = some b) :
    (g.ret rb b).InOrder ↔ ∃ n, g.cell rb.tail.toNat = some n ∧ g.due ≤ n := by
  constructor
  · intro h'
    obtain ⟨n, hn, -⟩ := h'.accepted (b, g.cell rb.tail.toNat) (by simp [ret])
    refine ⟨n, hn, ?_⟩
    unfold due
    split
    · next c m hlast =>
      have hmem : (c, some m) ∈ g.returned := List.mem_of_getLast? hlast
      exact (List.pairwise_append.mp h'.ordered).2.2 _ hmem _ (List.mem_singleton.mpr rfl) m n rfl hn
    · exact Nat.zero_le n
  · rintro ⟨n, hn, hdue⟩
    refine ⟨?_, ?_⟩
    · intro r hr
      rcases List.mem_append.mp hr with hr | hr
      · exact h.accepted r hr
      · rw [List.mem_singleton.mp hr]
        exact ⟨n, hn, hb n hn⟩
    · refine List.pairwise_append.mpr ⟨h.ordered, List.pairwise_singleton _ _, ?_⟩
      intro r hr r' hr' m m' hm hm'
      rw [List.mem_singleton.mp hr', hn] at hm'
      cases hm'
      exact lt_of_lt_of_le (h.lt_due hr hm) hdue

end Prov

/-! ## The ring between calls -/

/-- Cells and returned bytes are what was accepted under their numbers. -/
structure Known (rb : RingBuffer) (g : Prov) : Prop where
  cells : ∀ k n, g.cell k = some n → g.accepted[n]? = some (rb.buf.getD k 0)
  returned : ∀ r ∈ g.returned, ∀ n, r.2 = some n → g.accepted[n]? = some r.1

theorem Known.lt {rb : RingBuffer} {g : Prov} (h : Known rb g) {k n : Nat} (hn : g.cell k = some n) :
    n < g.accepted.length := (List.getElem?_eq_some_iff.mp (h.cells k n hn)).1

theorem Known.due_le {rb : RingBuffer} {g : Prov} (h : Known rb g) : g.due ≤ g.accepted.length := by
  unfold Prov.due
  split
  · next b n hlast =>
    exact (List.getElem?_eq_some_iff.mp (h.returned _ (List.mem_of_getLast? hlast) n rfl)).1
  · exact Nat.zero_le _

theorem Known.ret {rb rb' : RingBuffer} {g : Prov} (h : Known rb g) (hb : rb'.buf = rb.buf) :
    Known rb' (g.ret rb (rb.buf.getD rb.tail.toNat 0)) where
  cells k n hn := by
    rw [hb]
    exact h.cells k n hn
  returned r hr n hn := by
    rcases List.mem_append.mp hr with hr | hr
    · exact h.returned r hr n hn
    · rw [List.mem_singleton.mp hr] at hn ⊢
      exact h.cells _ n hn

/-- What holds between calls: the waiting cells hold the last numbers given,
in order, and a tail that has moved stands behind the last byte returned. -/
structure Tracks (rb : RingBuffer) (g : Prov) : Prop extends Known rb g where
  waiting : ∀ j < rb.count.toNat,
    g.cell ((rb.tail.toNat + j) % rb.size.toNat) = some (g.accepted.length - rb.count.toNat + j)
  room : g.due + rb.count.toNat ≤ g.accepted.length
  moved : rb.tail ≠ 0 → g.due + rb.count.toNat = g.accepted.length

theorem count_of_empty {rb : RingBuffer} (h : rb.head = rb.tail) : rb.count.toNat = 0 := by
  have ht := rb.size_bounds.2.2
  exact rb.count_unique (by omega) (by simp [h, Nat.mod_eq_of_lt ht])

theorem tracks_start {rb : RingBuffer} (h : rb.head = rb.tail) : Tracks rb .start where
  cells _ _ hn := by cases hn
  returned _ hr := by cases hr
  waiting j hj := by
    rw [count_of_empty h] at hj
    exact absurd hj (Nat.not_lt_zero j)
  room := by
    rw [count_of_empty h]
    exact Nat.zero_le _
  moved _ := by
    rw [count_of_empty h]
    rfl

theorem Known.cleared {rb rb' : RingBuffer} {g : Prov} (h : Known rb g) (hb : rb'.buf = rb.buf) (hh : rb'.head = 0)
    (ht : rb'.tail = 0) : Tracks rb' g where
  cells k n hn := by
    rw [hb]
    exact h.cells k n hn
  returned := h.returned
  waiting j hj := by
    rw [count_of_empty (hh.trans ht.symm)] at hj
    exact absurd hj (Nat.not_lt_zero j)
  room := by
    rw [count_of_empty (hh.trans ht.symm)]
    exact h.due_le
  moved hne := absurd ht hne

theorem waiting_ne_head {rb : RingBuffer} {j : Nat} (hj : j < rb.count.toNat) :
    (rb.tail.toNat + j) % rb.size.toNat ≠ rb.head.toNat := by
  intro he
  have hc := rb.count_toNat.1
  have := rb.count_unique (by omega) he
  omega

theorem count_store {rb rb' : RingBuffer} {b : UInt8} (h : rb.pushByte b = some rb') :
    rb'.count.toNat = rb.count.toNat + 1 := by
  rw [← rb'.length_toList, ← rb.length_toList, (RingBuffer.pushByte_toList h).1, List.length_append,
    List.length_singleton]

theorem pushByte_eq_store {rb rb' : RingBuffer} {b : UInt8} (h : rb.pushByte b = some rb') : rb' = rb.store b := by
  simp only [RingBuffer.pushByte, if_neg rb.not_size_lt_two] at h
  split at h
  · cases h
  · exact (Option.some.inj h).symm

theorem Tracks.accept {rb rb' : RingBuffer} {g : Prov} (h : Tracks rb g) {b : UInt8} (hp : rb.pushByte b = some rb') :
    Tracks rb' (g.accept rb b) := by
  have hcount := count_store hp
  have hlt : rb.head.toNat < rb.buf.length := by
    rw [rb.buf_length]
    exact rb.size_bounds.2.1
  have hroom := h.room
  have hlen : (g.accept rb b).accepted.length = g.accepted.length + 1 := by simp [Prov.accept]
  have hold {n : Nat} {a : UInt8} (hn : g.accepted[n]? = some a) : (g.accepted ++ [b])[n]? = some a := by
    rw [List.getElem?_append_left (List.getElem?_eq_some_iff.mp hn).1, hn]
  obtain rfl := pushByte_eq_store hp
  refine ⟨⟨?_, ?_⟩, ?_, ?_, ?_⟩
  · intro k n hn
    by_cases hk : k = rb.head.toNat
    · subst hk
      simp only [Prov.accept, Function.update_self, Option.some.injEq] at hn
      subst hn
      simp [Prov.accept, RingBuffer.store, hlt]
    · simp only [Prov.accept, Function.update_of_ne hk] at hn
      have hcell : (rb.buf.set rb.head.toNat b).getD k 0 = rb.buf.getD k 0 := by
        simp [List.getD, List.getElem?_set_ne (Ne.symm hk)]
      show (g.accepted ++ [b])[n]? = some ((rb.buf.set rb.head.toNat b).getD k 0)
      rw [hcell]
      exact hold (h.cells k n hn)
  · exact fun r hr n hn => hold (h.returned r hr n hn)
  · intro j hj
    rw [hcount] at hj
    rw [hcount, hlen]
    show Function.update g.cell rb.head.toNat (some g.accepted.length) ((rb.tail.toNat + j) % rb.size.toNat) = _
    by_cases hlast : j = rb.count.toNat
    · subst hlast
      rw [rb.count_toNat.2, Function.update_self]
      congr 1
      omega
    · have hj : j < rb.count.toNat := by omega
      rw [Function.update_of_ne (waiting_ne_head hj), h.waiting j hj]
      congr 1
      omega
  · rw [hcount, hlen, Prov.due_accept]
    omega
  · intro hne
    have := h.moved hne
    rw [hcount, hlen, Prov.due_accept]
    omega

/-- The oldest byte waiting has the number of the first that waits. -/
theorem Tracks.oldest {rb : RingBuffer} {g : Prov} (h : Tracks rb g) (hne : rb.head ≠ rb.tail) :
    0 < rb.count.toNat ∧ g.cell rb.tail.toNat = some (g.accepted.length - rb.count.toNat) := by
  have hpos : 0 < rb.count.toNat := by
    rw [← rb.length_toList, RingBuffer.discard_toList hne]
    exact Nat.succ_pos _
  refine ⟨hpos, ?_⟩
  have := h.waiting 0 hpos
  rwa [Nat.add_zero, Nat.mod_eq_of_lt rb.size_bounds.2.2] at this

theorem Tracks.ret {rb : RingBuffer} {g : Prov} (h : Tracks rb g) (hne : rb.head ≠ rb.tail) :
    Tracks rb.discard (g.ret rb (rb.buf.getD rb.tail.toNat 0)) := by
  obtain ⟨hpos, hcell⟩ := h.oldest hne
  have hcount : rb.count.toNat = rb.discard.count.toNat + 1 := by
    rw [← rb.length_toList, RingBuffer.discard_toList hne, List.length_cons, RingBuffer.length_toList]
  have hroom := h.room
  have hdue := Prov.due_ret hcell (rb.buf.getD rb.tail.toNat 0)
  refine ⟨h.toKnown.ret rfl, ?_, ?_, ?_⟩
  · intro j hj
    have hw := h.waiting (j + 1) (by omega)
    have htail : rb.discard.tail.toNat = (rb.tail.toNat + 1) % rb.size.toNat := rb.nextIndex_toNat rb.size_bounds.2.2
    have hindex : (rb.discard.tail.toNat + j) % rb.discard.size.toNat = (rb.tail.toNat + (j + 1)) % rb.size.toNat := by
      rw [htail, show rb.discard.size = rb.size from rfl, Nat.mod_add_mod]
      congr 1
      omega
    show g.cell _ = _
    rw [hindex, hw]
    show some _ = some (g.accepted.length - _ + j)
    congr 1
    omega
  · rw [hdue]
    show _ ≤ g.accepted.length
    omega
  · intro _
    rw [hdue]
    show _ = g.accepted.length
    omega

theorem Tracks.inOrder_ret {rb : RingBuffer} {g : Prov} (h : Tracks rb g) (hne : rb.head ≠ rb.tail)
    (ho : g.InOrder) : (g.ret rb (rb.buf.getD rb.tail.toNat 0)).InOrder := by
  obtain ⟨-, hcell⟩ := h.oldest hne
  have hroom := h.room
  exact (Prov.inOrder_ret_iff ho (h.cells _)).mpr ⟨_, hcell, by omega⟩

theorem Tracks.write {rb : RingBuffer} {g : Prov} (h : Tracks rb g) (bs : List UInt8) (w : UInt16) :
    Tracks (rb.writeLoop bs w).1 (g.write rb bs) ∧ ((g.write rb bs).InOrder ↔ g.InOrder) := by
  induction bs generalizing rb g w with
  | nil => exact ⟨h, Iff.rfl⟩
  | cons b bs ih =>
    rw [RingBuffer.writeLoop, Prov.write]
    cases hp : rb.pushByte b with
    | none => exact ⟨h, Iff.rfl⟩
    | some rb' =>
      obtain ⟨ht, ho⟩ := ih (h.accept hp) (w + 1)
      exact ⟨ht, ho.trans (Prov.inOrder_accept g rb b h.returned)⟩

/-! ## The ring between the two writes -/

/-- What holds while the head is cleared and the tail is not: from the tail on
there are `m` cells with the numbers that are due, and they reach to the end of
the array, or to the last number given. -/
structure Mid (rb : RingBuffer) (g : Prov) (m : Nat) : Prop extends Known rb g where
  head : rb.head = 0
  fits : rb.tail.toNat + m ≤ rb.size.toNat
  waiting : rb.tail ≠ 0 → ∀ j < m, g.cell (rb.tail.toNat + j) = some (g.due + j)
  rest : rb.tail ≠ 0 → rb.tail.toNat + m = rb.size.toNat ∨ g.due + m = g.accepted.length

/-- The bytes that wait from the tail on, up to the end of the array. -/
def straight (rb : RingBuffer) : Nat :=
  if rb.head < rb.tail then rb.size.toNat - rb.tail.toNat else rb.head.toNat - rb.tail.toNat

theorem straight_spec (rb : RingBuffer) : straight rb ≤ rb.count.toNat ∧
    rb.tail.toNat + straight rb ≤ rb.size.toNat ∧
    (rb.tail.toNat + straight rb = rb.size.toNat ∨ straight rb = rb.count.toNat) := by
  obtain ⟨-, hh, ht⟩ := rb.size_bounds
  unfold straight
  split
  · next hlt =>
    -- the bytes that wait go on at the front of the array
    have hlt := UInt16.lt_iff_toNat_lt.mp hlt
    have hge : rb.size.toNat - rb.tail.toNat ≤ rb.count.toNat := by
      by_contra hc
      have hch := rb.count_toNat.2
      rw [Nat.mod_eq_of_lt (by omega)] at hch
      omega
    exact ⟨hge, by omega, .inl (by omega)⟩
  · next hle =>
    have hle := UInt16.le_iff_toNat_le.mp (UInt16.not_lt.mp hle)
    have hc := rb.count_unique (k := rb.head.toNat - rb.tail.toNat) (by omega)
      (by rw [Nat.add_sub_cancel' hle, Nat.mod_eq_of_lt hh])
    exact ⟨by omega, by omega, .inr hc.symm⟩

theorem Tracks.mid {rb : RingBuffer} {g : Prov} (h : Tracks rb g) : Mid rb.clearHead g (straight rb) := by
  obtain ⟨hcount, hfits, hrest⟩ := straight_spec rb
  have ht := rb.size_bounds.2.2
  refine ⟨⟨h.cells, h.returned⟩, rfl, hfits, ?_, ?_⟩
  · intro hne j hj
    have hmoved := h.moved hne
    have hw := h.waiting j (by omega)
    rw [Nat.mod_eq_of_lt (by omega)] at hw
    show g.cell (rb.tail.toNat + j) = _
    rw [hw]
    congr 1
    omega
  · intro hne
    have hmoved := h.moved hne
    exact hrest.imp_right fun he => by omega

/-- A call of `RingBuffer_PopByte`, followed in the numbers. -/
def pop (s : RingBuffer × Prov) : RingBuffer × Prov :=
  match s.1.popByte with
  | none => s
  | some (b, rb) => (rb, s.2.ret s.1 b)

theorem pop_of_eq {s : RingBuffer × Prov} (h : s.1.head = s.1.tail) : pop s = s := by
  rw [pop, RingBuffer.popByte, if_pos h]

theorem pop_of_ne {s : RingBuffer × Prov} (h : s.1.head ≠ s.1.tail) :
    pop s = (s.1.discard, s.2.ret s.1 (s.1.buf.getD s.1.tail.toNat 0)) := by
  rw [pop, RingBuffer.popByte, if_neg h]

theorem inOrder_of_pops {s : RingBuffer × Prov} (n : Nat) (h : (pop^[n] s).2.InOrder) : s.2.InOrder := by
  induction n generalizing s with
  | zero => exact h
  | succ n ih =>
    rw [Function.iterate_succ_apply] at h
    have h' := ih h
    by_cases he : s.1.head = s.1.tail
    · rwa [pop_of_eq he] at h'
    · rw [pop_of_ne he] at h'
      exact h'.of_ret

theorem known_pops {s : RingBuffer × Prov} (n : Nat) (h : Known s.1 s.2) : Known (pop^[n] s).1 (pop^[n] s).2 := by
  induction n generalizing s with
  | zero => exact h
  | succ n ih =>
    rw [Function.iterate_succ_apply]
    by_cases he : s.1.head = s.1.tail
    · rw [pop_of_eq he]
      exact ih h
    · rw [pop_of_ne he]
      exact ih (h.ret rfl)

theorem discard_tail (rb : RingBuffer) :
    (rb.tail.toNat + 1 = rb.size.toNat ∧ rb.discard.tail = 0) ∨
      (rb.tail.toNat + 1 < rb.size.toNat ∧ rb.discard.tail.toNat = rb.tail.toNat + 1) := by
  have ht := rb.size_bounds.2.2
  have hn : rb.discard.tail.toNat = (rb.tail.toNat + 1) % rb.size.toNat := rb.nextIndex_toNat ht
  by_cases he : rb.tail.toNat + 1 = rb.size.toNat
  · rw [he, Nat.mod_self] at hn
    exact .inl ⟨he, UInt16.toNat_inj.mp hn⟩
  · rw [Nat.mod_eq_of_lt (by omega)] at hn
    exact .inr ⟨by omega, hn⟩

theorem Mid.due {rb : RingBuffer} {g : Prov} {m : Nat} (h : Mid rb g (m + 1)) (hne : rb.tail ≠ 0) :
    g.cell rb.tail.toNat = some g.due := by
  have := h.waiting hne 0 (Nat.succ_pos m)
  simpa using this

theorem Mid.ret {rb : RingBuffer} {g : Prov} {m : Nat} (h : Mid rb g (m + 1)) (hne : rb.tail ≠ 0) :
    Mid rb.discard (g.ret rb (rb.buf.getD rb.tail.toNat 0)) m := by
  have hfits := h.fits
  have hdue := Prov.due_ret (h.due hne) (rb.buf.getD rb.tail.toNat 0)
  rcases discard_tail rb with ⟨-, ht⟩ | ⟨hlt, ht⟩
  · refine ⟨h.toKnown.ret rfl, h.head, ?_, fun hne' => absurd ht hne', fun hne' => absurd ht hne'⟩
    rw [ht]
    show 0 + m ≤ rb.size.toNat
    omega
  · refine ⟨h.toKnown.ret rfl, h.head, ?_, fun _ j hj => ?_, fun _ => ?_⟩
    · rw [ht]
      show _ ≤ rb.size.toNat
      omega
    · have hw := h.waiting hne (j + 1) (by omega)
      rw [ht, hdue, Nat.add_assoc, Nat.add_comm 1 j, Nat.add_assoc, Nat.add_comm 1 j]
      exact hw
    · rw [ht, hdue]
      refine (h.rest hne).imp (fun he => ?_) fun he => ?_
      · show _ = rb.size.toNat
        omega
      · show _ = g.accepted.length
        omega

/-- **Interrupts between the two writes** return bytes in order if they come to
the end of the array before the bytes that wait are used up. -/
theorem Mid.inOrder_iff {rb : RingBuffer} {g : Prov} {m : Nat} (h : Mid rb g m) (ho : g.InOrder) (n : Nat) :
    (pop^[n] (rb, g)).2.InOrder ↔ rb.tail = 0 ∨ rb.tail.toNat + m = rb.size.toNat ∨ n ≤ m := by
  induction n generalizing rb g m with
  | zero => exact iff_of_true ho (.inr (.inr (Nat.zero_le m)))
  | succ n ih =>
    rw [Function.iterate_succ_apply]
    by_cases ht : rb.tail = 0
    · rw [pop_of_eq (h.head.trans ht.symm), ih h ho]
      simp [ht]
    have hne : rb.head ≠ rb.tail := fun he => ht (he.symm.trans h.head)
    rw [pop_of_ne hne]
    cases m with
    | zero =>
      -- all that was accepted has been returned
      have hlt := rb.size_bounds.2.2
      have hall : g.due = g.accepted.length := (h.rest ht).resolve_left (by omega)
      refine iff_of_false (fun hin => ?_) ?_
      · obtain ⟨k, hk, hdue⟩ := (Prov.inOrder_ret_iff ho (h.cells _)).mp (inOrder_of_pops n hin)
        have := h.lt hk
        omega
      · rintro (h0 | h0 | h0)
        · exact ht h0
        · omega
        · omega
    | succ m =>
      have ho' := (Prov.inOrder_ret_iff ho (h.cells _)).mpr ⟨_, h.due ht, le_refl _⟩
      rw [ih (h.ret ht) ho']
      have hfits := h.fits
      have hs : rb.discard.size = rb.size := rfl
      rcases discard_tail rb with ⟨hend, ht'⟩ | ⟨hlt, ht'⟩
      · exact iff_of_true (.inl ht') (.inr (.inl (by omega)))
      · have hne' : rb.discard.tail ≠ 0 := by
          rw [Ne, ← UInt16.toNat_inj, ht']
          exact Nat.succ_ne_zero _
        rw [ht', hs]
        simp only [ht, hne', false_or]
        omega

/-- A FLUSH_TX that finds `rb` returns nothing out of order, with `n` interrupts between its two writes. -/
def Harmless (rb : RingBuffer) (n : Nat) : Prop :=
  rb.tail = 0 ∨ rb.head < rb.tail ∨ n ≤ rb.head.toNat - rb.tail.toNat

instance (rb : RingBuffer) (n : Nat) : Decidable (Harmless rb n) := inferInstanceAs (Decidable (_ ∨ _))

theorem Tracks.flush {rb : RingBuffer} {g : Prov} (h : Tracks rb g) (ho : g.InOrder) (n : Nat) :
    let r := pop^[n] (rb.clearHead, g)
    (Known r.1 r.2) ∧ (r.2.InOrder ↔ Harmless rb n) := by
  refine ⟨known_pops n h.mid.toKnown, ?_⟩
  have hs := straight_spec rb
  rw [h.mid.inOrder_iff ho n]
  show rb.tail = 0 ∨ rb.tail.toNat + straight rb = rb.size.toNat ∨ n ≤ straight rb ↔ _
  unfold Harmless straight
  refine or_congr_right ?_
  have ht := rb.size_bounds.2.2
  split
  · next hlt =>
    exact iff_of_true (.inl (by omega)) (.inl hlt)
  · next hle =>
    have := rb.size_bounds.2.1
    have hle' := UInt16.le_iff_toNat_le.mp (UInt16.not_lt.mp hle)
    simp only [hle, false_or]
    exact or_iff_right (by omega)

theorem head_pops (s : RingBuffer × Prov) (n : Nat) : (pop^[n] s).1.head = s.1.head := by
  induction n generalizing s with
  | zero => rfl
  | succ n ih =>
    rw [Function.iterate_succ_apply, ih]
    by_cases he : s.1.head = s.1.tail
    · rw [pop_of_eq he]
    · rw [pop_of_ne he]
      rfl

theorem Tracks.pops {s : RingBuffer × Prov} (h : Tracks s.1 s.2) (n : Nat) :
    Tracks (pop^[n] s).1 (pop^[n] s).2 ∧ (s.2.InOrder → (pop^[n] s).2.InOrder) := by
  induction n generalizing s with
  | zero => exact ⟨h, id⟩
  | succ n ih =>
    rw [Function.iterate_succ_apply]
    by_cases he : s.1.head = s.1.tail
    · rw [pop_of_eq he]
      exact ih h
    · rw [pop_of_ne he]
      obtain ⟨ht, ho⟩ := ih (s := (s.1.discard, s.2.ret s.1 (s.1.buf.getD s.1.tail.toNat 0))) (h.ret he)
      exact ⟨ht, fun hin => ho (h.inOrder_ret he hin)⟩

/-! ## Runs -/

variable {η : Type}

/-- The manager, with the numbers of the bytes of one port. -/
structure Sys (η : Type) where
  uart : State η
  prov : Prov

/-- A write from the host, a FLUSH_TX with the interrupts that come between
its two writes, each for the port it names, and an interrupt. -/
inductive Input
  | write (logicPort : UInt8) (data : List UInt8)
  | flushTx (logicPort : UInt8) (between : List UInt8)
  | irqTx (logicPort : UInt8)

/-- `UartMgr_IrqTxNextByte` for a port; what it returns for port `p` is followed. -/
def irqTx (p : Fin uartPortCount) (s : Sys η) (logicPort : UInt8) : Sys η :=
  let r := irqTxNextByte s.uart logicPort
  { uart := r.1
    prov := match r.2 with
      | some b => if getPort logicPort = some p then s.prov.ret (s.uart.ports p).txRb b else s.prov
      | none => s.prov }

/-- The two writes of the FLUSH_TX command to the ring of port `q`. -/
def flushTx (p : Fin uartPortCount) (s : Sys η) (q : Fin uartPortCount) (between : List UInt8) : Sys η :=
  let s := { s with uart := s.uart.modify q fun port => { port with txRb := port.txRb.clearHead } }
  let s := between.foldl (irqTx p) s
  { s with uart := s.uart.modify q fun port => { port with txRb := port.txRb.clearTail } }

/-- One call, the bytes of port `p` followed. -/
def step (drv : UartPort η) (p : Fin uartPortCount) : Mealy.Step (Sys η) Input Empty
  | s, .write logicPort data =>
    let payloadLen := UInt16.ofNat data.length
    let r := writeFromHost drv s.uart logicPort (some data) payloadLen
    ({ uart := r.1
       prov :=
        if getPort logicPort = some p ∧ (s.uart.ports p).state = .opened then
          s.prov.write (s.uart.ports p).txRb (Ptr.cells (some data) payloadLen.toNat)
        else s.prov }, [])
  | s, .flushTx logicPort between =>
    match getPort logicPort with
    | none => (s, [])
    | some q => (if (s.uart.ports q).state = .disabled then s else flushTx p s q between, [])
  | s, .irqTx logicPort => (irqTx p s logicPort, [])

/-- Without an interrupt between the two writes it is the command as the manager handles it. -/
theorem flushTx_alone (drv : UartPort η) (map : Map) (p : Fin uartPortCount) (s : Sys η) (hdr : VpHdr)
    (payload : Ptr UInt8) (payloadLen : UInt16) (hop : VpUartOpcode.ofCode hdr.opcode = some .flushTx) :
    (step drv p s (.flushTx hdr.chId [])).1.uart = (handleCtrl drv map s.uart hdr payload payloadLen).1 := by
  unfold handleCtrl validateCtrlPort
  simp only [step]
  cases getPort hdr.chId with
  | none => rfl
  | some q =>
    by_cases hd : (s.uart.ports q).state = .disabled
    · simp only [if_pos hd]
    · simp only [if_neg hd, hop, flushTx, List.foldl_nil, modify_modify, Function.comp_def,
        RingBuffer.clearTail_clearHead]

/-- An input that returns nothing out of order from port `p`. -/
def HarmlessInput (p : Fin uartPortCount) (s : Sys η) : Input → Prop
  | .flushTx logicPort between => getPort logicPort = some p →
      Harmless (s.uart.ports p).txRb (between.countP fun l => getPort l = some p)
  | _ => True

/-- The ring of port `p` and its numbers. -/
def Sys.view (p : Fin uartPortCount) (s : Sys η) : RingBuffer × Prov := ((s.uart.ports p).txRb, s.prov)

variable {p : Fin uartPortCount}

theorem irqTx_view {s : Sys η} (ho : (s.uart.ports p).state = .opened) (logicPort : UInt8) :
    ((irqTx p s logicPort).uart.ports p).state = .opened ∧
      (irqTx p s logicPort).view p = if getPort logicPort = some p then pop (s.view p) else s.view p := by
  unfold irqTx irqTxNextByte Sys.view pop
  cases hl : getPort logicPort with
  | none => exact ⟨ho, rfl⟩
  | some q =>
    by_cases hq : q = p
    · subst hq
      simp only [ho, ne_eq, not_true_eq_false, if_false, if_true]
      cases hp : (s.uart.ports q).txRb.popByte with
      | none => exact ⟨ho, rfl⟩
      | some r => simp [ho]
    · have hne : some q ≠ some p := fun h => hq (Option.some.inj h)
      simp only [if_neg hne]
      by_cases hs : (s.uart.ports q).state = .opened
      · simp only [hs, ne_eq, not_true_eq_false, if_false]
        cases hp : (s.uart.ports q).txRb.popByte with
        | none => exact ⟨ho, rfl⟩
        | some r => simp [modify_of_ne _ _ (Ne.symm hq), ho]
      · simp only [ne_eq, hs, not_false_eq_true, if_true]
        exact ⟨ho, trivial⟩

theorem irqsTx_view {s : Sys η} (ho : (s.uart.ports p).state = .opened) (between : List UInt8) :
    ((between.foldl (irqTx p) s).uart.ports p).state = .opened ∧
      (between.foldl (irqTx p) s).view p = pop^[between.countP fun l => getPort l = some p] (s.view p) := by
  induction between generalizing s with
  | nil => exact ⟨ho, rfl⟩
  | cons l between ih =>
    obtain ⟨ho', hv⟩ := irqTx_view ho l
    obtain ⟨hs, hview⟩ := ih ho'
    refine ⟨hs, ?_⟩
    rw [List.foldl_cons, hview, hv]
    by_cases hl : getPort l = some p
    · rw [if_pos hl, List.countP_cons_of_pos (by simpa using hl), Function.iterate_succ_apply]
    · rw [if_neg hl, List.countP_cons_of_neg (by simpa using hl)]

/-- The port is open and its numbers are right. -/
def Sound (p : Fin uartPortCount) (s : Sys η) : Prop :=
  (s.uart.ports p).state = .opened ∧ Tracks (s.view p).1 (s.view p).2

/-- A step with what it does to the order of the bytes returned. -/
def Orderly (p : Fin uartPortCount) (s s' : Sys η) (harmless : Prop) : Prop :=
  Sound p s' ∧ (s.prov.InOrder → (s'.prov.InOrder ↔ harmless))

theorem Sound.same {s s' : Sys η} (h : Sound p s) (hp : s'.uart.ports p = s.uart.ports p) (hg : s'.prov = s.prov) :
    Orderly p s s' True := by
  refine ⟨?_, fun ho => iff_of_true (hg ▸ ho) trivial⟩
  unfold Sound Sys.view
  rw [hp, hg]
  exact h

theorem write_orderly (drv : UartPort η) {s : Sys η} (h : Sound p s) (logicPort : UInt8) (data : List UInt8) :
    Orderly p s (step drv p s (.write logicPort data)).1 True := by
  rcases writeFromHost_cases drv s.uart logicPort (some data) (UInt16.ofNat data.length) with
    ⟨hw, hno⟩ | ⟨q, hq, hs, hw⟩
  · refine h.same ?_ (if_neg fun hp => hno p hp.1 hp.2)
    show (writeFromHost drv s.uart logicPort (some data) (UInt16.ofNat data.length)).1.ports p = _
    rw [hw]
  · by_cases he : q = p
    · subst he
      obtain ⟨ht, ho⟩ := h.2.write (Ptr.cells (some data) (UInt16.ofNat data.length).toNat) 0
      simp only [step, hw, if_pos (show getPort logicPort = some q ∧ _ from ⟨hq, hs⟩)]
      refine ⟨⟨?_, ?_⟩, fun hin => iff_of_true (ho.mpr hin) trivial⟩
      · simpa [PortCtx.written] using h.1
      · simpa [Sys.view, PortCtx.written, RingBuffer.write] using ht
    · refine h.same ?_ (if_neg fun hp => he (Option.some.inj (hq.symm.trans hp.1)))
      show (writeFromHost drv s.uart logicPort (some data) (UInt16.ofNat data.length)).1.ports p = _
      rw [hw]
      have hother := modify_of_ne s.uart (·.written (some data) (UInt16.ofNat data.length)) (Ne.symm he)
      exact hother

theorem irqTx_orderly {s : Sys η} (h : Sound p s) (logicPort : UInt8) : Orderly p s (irqTx p s logicPort) True := by
  obtain ⟨hs, hv⟩ := irqTx_view h.1 logicPort
  obtain ⟨ht, ho⟩ := h.2.pops 1
  have hview : (irqTx p s logicPort).prov = ((irqTx p s logicPort).view p).2 := rfl
  unfold Orderly Sound
  rw [hview, hv]
  split
  · exact ⟨⟨hs, ht⟩, fun hin => iff_of_true (ho hin) trivial⟩
  · exact ⟨⟨hs, h.2⟩, fun hin => iff_of_true hin trivial⟩

/-- What a flush comes to: the interrupts see the head cleared, if it is for the port. -/
theorem flushTx_view {s : Sys η} (ho : (s.uart.ports p).state = .opened) (q : Fin uartPortCount)
    (between : List UInt8) :
    let n := between.countP fun l => getPort l = some p
    let r := pop^[n] ((s.uart.ports p).txRb.clearHead, s.prov)
    ((flushTx p s q between).uart.ports p).state = .opened ∧
      (flushTx p s q between).view p = if q = p then (r.1.clearTail, r.2) else pop^[n] (s.view p) := by
  intro n r
  let s1 : Sys η := { s with uart := s.uart.modify q fun port => { port with txRb := port.txRb.clearHead } }
  by_cases hq : q = p
  · subst hq
    obtain ⟨hs, hv⟩ := irqsTx_view (p := q) (s := s1) (by simpa [s1] using ho) between
    have hv1 : s1.view q = ((s.uart.ports q).txRb.clearHead, s.prov) := by simp [s1, Sys.view]
    rw [hv1] at hv
    have hring : ((between.foldl (irqTx q) s1).uart.ports q).txRb = r.1 := congrArg Prod.fst hv
    have hprov : (between.foldl (irqTx q) s1).prov = r.2 := congrArg Prod.snd hv
    unfold flushTx Sys.view
    rw [if_pos rfl, modify_self]
    exact ⟨hs, Prod.ext (congrArg RingBuffer.clearTail hring) hprov⟩
  · have hs1 : s1.uart.ports p = s.uart.ports p := by
      simp only [s1]
      exact modify_of_ne _ _ (Ne.symm hq)
    obtain ⟨hs, hv⟩ := irqsTx_view (p := p) (s := s1) (by rw [hs1]; exact ho) between
    have hv1 : s1.view p = s.view p := by
      unfold Sys.view
      rw [hs1]
    rw [hv1] at hv
    unfold flushTx
    rw [if_neg hq, ← hv]
    unfold Sys.view
    rw [modify_of_ne _ _ (Ne.symm hq)]
    exact ⟨hs, rfl⟩

theorem flushTx_orderly {s : Sys η} (h : Sound p s) (q : Fin uartPortCount) (between : List UInt8) :
    Orderly p s (flushTx p s q between)
      (q = p → Harmless (s.uart.ports p).txRb (between.countP fun l => getPort l = some p)) := by
  obtain ⟨hs, hv⟩ := flushTx_view h.1 q between
  have hview : (flushTx p s q between).prov = ((flushTx p s q between).view p).2 := rfl
  unfold Orderly Sound
  rw [hview, hv]
  split
  · next hq =>
    have hk := known_pops (s := ((s.uart.ports p).txRb.clearHead, s.prov))
      (between.countP fun l => getPort l = some p) h.2.mid.toKnown
    refine ⟨⟨hs, hk.cleared rfl (head_pops _ _) rfl⟩, fun hin => ?_⟩
    simp only [hq, forall_const]
    exact (h.2.flush hin _).2
  · next hq =>
    obtain ⟨ht, ho⟩ := h.2.pops (between.countP fun l => getPort l = some p)
    exact ⟨⟨hs, ht⟩, fun hin => iff_of_true (ho hin) fun he => absurd he hq⟩

theorem step_orderly (drv : UartPort η) {s : Sys η} (h : Sound p s) (i : Input) :
    Orderly p s (step drv p s i).1 (HarmlessInput p s i) := by
  cases i with
  | write logicPort data => exact write_orderly drv h logicPort data
  | irqTx logicPort => exact irqTx_orderly h logicPort
  | flushTx logicPort between =>
    simp only [step, HarmlessInput]
    cases hl : getPort logicPort with
    | none => simpa using h.same rfl rfl
    | some q =>
      simp only [Option.some.injEq]
      by_cases hd : (s.uart.ports q).state = .disabled
      · have hq : q ≠ p := by
          rintro rfl
          rw [h.1] at hd
          cases hd
        simpa [hd, hq] using h.same rfl rfl
      · rw [if_neg hd]
        exact flushTx_orderly h q between

/-- **Interrupts within FLUSH_TX.** From an open port with nothing waiting, in
every state reached the bytes returned are bytes accepted before, none twice,
in the order of acceptance, exactly if every FLUSH_TX of the port finds the
tail at 0 or behind the head, or has no more interrupts between its two writes
than bytes wait. -/
theorem flushed_in_order_iff (drv : UartPort η) (p : Fin uartPortCount) (uart : State η)
    (ho : (uart.ports p).state = .opened) (he : (uart.ports p).txRb.head = (uart.ports p).txRb.tail)
    (is : List Input) :
    (∀ js, js <+: is → (Mealy.run (step drv p) ⟨uart, .start⟩ js).prov.InOrder) ↔
      Mealy.Along (step drv p) (HarmlessInput p) ⟨uart, .start⟩ is :=
  Mealy.forall_prefix_iff (I := Sound p) (S := fun s : Sys η => s.prov.InOrder)
    (fun _ i h => (step_orderly drv h i).1) (fun _ i h hin => (step_orderly drv h i).2 hin)
    (show Sound p ⟨uart, .start⟩ from ⟨ho, tracks_start he⟩) Prov.inOrder_start is

/-- A driver without hardware. -/
def quietDriver : UartPort Unit := ⟨fun h _ _ _ _ _ => (h, .ok), fun h _ => h, fun h _ => h⟩

/-- Port `p` open, as it is after its first OPEN. -/
def opened (p : Fin uartPortCount) : State Unit := (init uartMapCfg ()).modify p ({ · with state := .opened })

/-- Two bytes wait and two interrupts come. -/
theorem flushed_in_order_iff_two :
    (∀ js, js <+: [Input.write 0 [1, 2, 3], .irqTx 0, .flushTx 0 [0, 0]] →
        (Mealy.run (step quietDriver 0) ⟨opened 0, .start⟩ js).prov.InOrder) ↔
      Mealy.Along (step quietDriver 0) (HarmlessInput 0) ⟨opened 0, .start⟩
        [.write 0 [1, 2, 3], .irqTx 0, .flushTx 0 [0, 0]] :=
  flushed_in_order_iff quietDriver 0 (opened 0) rfl rfl _

/-- A byte is sent again: the ring is empty, with the tail behind 0. -/
theorem flush_replays :
    let s := Mealy.run (step quietDriver 0) ⟨opened 0, .start⟩
      [.write 0 [1, 2], .irqTx 0, .irqTx 0, .flushTx 0 [], .write 0 [3], .irqTx 0, .flushTx 0 [0]]
    s.prov.accepted = [1, 2, 3] ∧ s.prov.returned = [(1, some 0), (2, some 1), (3, some 2), (2, some 1)] ∧
      ¬ s.prov.InOrder := by
  intro s
  have hret : s.prov.returned = [(1, some 0), (2, some 1), (3, some 2), (2, some 1)] := by rfl
  refine ⟨rfl, hret, fun h => ?_⟩
  have ho := h.ordered
  rw [hret] at ho
  have hlast := (List.pairwise_cons.mp (List.pairwise_cons.mp (List.pairwise_cons.mp ho).2).2).1
  exact absurd (hlast (2, some 1) (by simp) 2 1 rfl rfl) (by decide)

end FlushRace

end UsbMux
