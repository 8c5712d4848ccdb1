/-
Computations that read an array through a pointer, one cell at a time, as
trees of their reads. Nothing of the array reaches a result but through the
reads (`value_eq_of_agree`), so their indices say what a computation looks at:
`Within n` says that they are all below `n`, whatever the array holds.
-/
import UsbMux.Lib.Block

namespace UsbMux

/-- A value computed from the cells behind a pointer. -/
inductive Access (ε α : Type)
  | ret (a : α)
  | testNull (k : Bool → Access ε α)
  | load (i : Nat) (k : ε → Access ε α)

namespace Access

variable {ε α β : Type}

protected def bind : Access ε α → (α → Access ε β) → Access ε β
  | .ret a, k => k a
  | .testNull m, k => .testNull fun null => (m null).bind k
  | .load i m, k => .load i fun c => (m c).bind k

instance : Monad (Access ε) where
  pure := ret
  bind := Access.bind

/-- Whether the pointer is null; no cell is read. -/
def isNull : Access ε Bool := .testNull ret

/-- The cell at index `i`. -/
def read (i : Nat) : Access ε ε := .load i ret

/-- A copy of `n` cells from index `off` on. -/
def copy (off : Nat) : Nat → Access ε (List ε)
  | 0 => pure []
  | n + 1 => do
    let c ← read off
    let cs ← copy (off + 1) n
    pure (c :: cs)

variable [Inhabited ε]

/-- What the computation comes to. -/
def value : Access ε α → Ptr ε → α
  | .ret a, _ => a
  | .testNull m, p => (m p.isNone).value p
  | .load i m, p => (m (p.cell i)).value p

/-- The indices of the cells it reads. -/
def touched : Access ε α → Ptr ε → List Nat
  | .ret _, _ => []
  | .testNull m, p => (m p.isNone).touched p
  | .load i m, p => i :: (m (p.cell i)).touched p

/-- Only cells below `n` are read. -/
def Within (n : Nat) (m : Access ε α) : Prop := ∀ p, ∀ i ∈ m.touched p, i < n

/-- What a computation comes to, and how far it reads. -/
structure Computes (n : Nat) (m : Access ε α) (f : Ptr ε → α) : Prop where
  value : ∀ p, m.value p = f p
  within : Within n m

theorem value_eq_of_agree {m : Access ε α} {p q : Ptr ε} (hnull : p.isNone = q.isNone)
    (h : ∀ i ∈ m.touched p, p.cell i = q.cell i) : m.value q = m.value p := by
  induction m with
  | ret a => rfl
  | testNull m ih =>
    simp only [value, ← hnull]
    exact ih _ h
  | load i m ih =>
    have hi := h i (List.mem_cons_self ..)
    simp only [value, ← hi]
    exact ih _ fun j hj => h j (List.mem_cons_of_mem _ hj)

/-! ## Parts -/

@[simp] theorem value_pure (a : α) (p : Ptr ε) : (pure a : Access ε α).value p = a := rfl
@[simp] theorem value_isNull (p : Ptr ε) : isNull.value p = p.isNone := rfl
@[simp] theorem value_read (i : Nat) (p : Ptr ε) : (read i).value p = p.cell i := rfl

@[simp] theorem value_bind (m : Access ε α) (k : α → Access ε β) (p : Ptr ε) :
    (m >>= k).value p = (k (m.value p)).value p := by
  induction m with
  | ret a => rfl
  | testNull m ih => exact ih _
  | load i m ih => exact ih _

theorem touched_bind (m : Access ε α) (k : α → Access ε β) (p : Ptr ε) :
    (m >>= k).touched p = m.touched p ++ (k (m.value p)).touched p := by
  induction m with
  | ret a => rfl
  | testNull m ih => exact ih _
  | load i m ih => exact congrArg (i :: ·) (ih _)

@[simp] theorem value_ite {c : Prop} [Decidable c] (m m' : Access ε α) (p : Ptr ε) :
    (if c then m else m').value p = if c then m.value p else m'.value p := by split <;> rfl

@[simp] theorem value_copy (off n : Nat) (p : Ptr ε) : (copy off n).value p = (p.shift off).cells n := by
  induction n generalizing off with
  | zero => rfl
  | succ n ih =>
    simp only [copy, value_bind, value_read, value_pure, ih, Ptr.cells, List.range_succ_eq_map, List.map_cons,
      List.map_map, Ptr.cell_shift, Nat.add_zero]
    refine congrArg _ (List.map_congr_left fun i _ => ?_)
    simp only [Function.comp_apply, Ptr.cell_shift, Nat.succ_eq_add_one, Nat.add_assoc, Nat.add_comm 1]

theorem within_pure (n : Nat) (a : α) : Within n (pure a : Access ε α) := fun _ _ h => by cases h

theorem within_isNull (n : Nat) : Within n (isNull : Access ε Bool) := fun _ _ h => by cases h

theorem within_read {i n : Nat} (h : i < n) : Within n (read i : Access ε ε) := by
  intro p j hj
  rw [List.mem_singleton.mp hj]
  exact h

theorem within_bind {n : Nat} {m : Access ε α} {k : α → Access ε β} (hm : Within n m) (hk : ∀ a, Within n (k a)) :
    Within n (m >>= k) := by
  intro p i hi
  rw [touched_bind] at hi
  rcases List.mem_append.mp hi with hi | hi
  · exact hm p i hi
  · exact hk _ p i hi

theorem within_ite {n : Nat} {c : Prop} [Decidable c] {m m' : Access ε α} (ht : c → Within n m)
    (he : ¬ c → Within n m') : Within n (if c then m else m') := by
  split
  · next h => exact ht h
  · next h => exact he h

theorem within_copy {off len n : Nat} (h : off + len ≤ n) : Within n (copy off len : Access ε (List ε)) := by
  induction len generalizing off with
  | zero => exact within_pure _ _
  | succ len ih =>
    refine within_bind (within_read (by omega)) fun _ => ?_
    exact within_bind (ih (by omega)) fun _ => within_pure _ _

/-! ## What a computation comes to -/

namespace Computes

variable {n : Nat} {m m' : Access ε α} {f f' : Ptr ε → α}

theorem pure (a : α) : Computes n (Pure.pure a : Access ε α) fun _ => a where
  value _ := rfl
  within := within_pure n a

theorem isNull : Computes n (Access.isNull : Access ε Bool) Option.isNone where
  value _ := rfl
  within := within_isNull n

theorem read {i : Nat} (h : i < n) : Computes n (Access.read i : Access ε ε) fun p => p.cell i where
  value _ := rfl
  within := within_read h

theorem copy {off len : Nat} (h : off + len ≤ n) :
    Computes n (Access.copy off len : Access ε (List ε)) fun p => (p.shift off).cells len where
  value := value_copy off len
  within := within_copy h

theorem bind {k : α → Access ε β} {g : α → Ptr ε → β} (hm : Computes n m f) (hk : ∀ a, Computes n (k a) (g a)) :
    Computes n (m >>= k) fun p => g (f p) p where
  value p := by rw [value_bind, hm.value, (hk _).value]
  within := within_bind hm.within fun a => (hk a).within

theorem ite {c : Prop} [Decidable c] (ht : c → Computes n m f) (he : ¬ c → Computes n m' f') :
    Computes n (if c then m else m') fun p => if c then f p else f' p where
  value p := by
    rw [value_ite]
    split
    · next h => exact (ht h).value p
    · next h => exact (he h).value p
  within := within_ite (fun h => (ht h).within) fun h => (he h).within

theorem congr (hm : Computes n m f) (h : ∀ p, f p = f' p) : Computes n m f' where
  value p := (hm.value p).trans (h p)
  within := hm.within

theorem eq_of_agree (hm : Computes n m f) {p q : Ptr ε} (hnull : p.isNone = q.isNone)
    (h : ∀ i < n, p.cell i = q.cell i) : f q = f p := by
  rw [← hm.value, ← hm.value]
  exact value_eq_of_agree hnull fun i hi => h i (hm.within p i hi)

end Computes

end Access

end UsbMux
