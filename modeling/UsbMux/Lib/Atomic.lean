/-
Calls made of pieces with interrupts between them. A piece and an interrupt
that can be done in either order move past each other; where every interrupt
that comes inside a call moves past the pieces that are left, or does nothing there, a
run is one of the machine that does each call in one step.
-/
import UsbMux.Lib.Lossy

namespace UsbMux.Atomic

open Mealy

variable {σ ι κ μ : Type}

/-- What an interrupt does, the pieces a call consists of when it is made, and
what each piece does. -/
structure System (σ ι κ μ : Type) where
  interrupt : σ → ι → σ
  pieces : σ → κ → List μ
  piece : σ → μ → σ

/-- An interrupt, a call, or the next piece of the call under way. -/
inductive Input (ι κ : Type)
  | interrupt (i : ι)
  | call (k : κ)
  | tick

/-- An interrupt, or a call in one step. -/
inductive Act (ι κ : Type)
  | interrupt (i : ι)
  | call (k : κ)

variable (S : System σ ι κ μ)

/-- The machine: a state with what is left of the call under way. There is one
call at a time. -/
def step : Step (σ × List μ) (Input ι κ) Empty
  | (s, ms), .interrupt i => ((S.interrupt s i, ms), [])
  | (s, []), .call k => ((s, S.pieces s k), [])
  | (s, m :: ms), .call _ => ((s, m :: ms), [])
  | (s, []), .tick => ((s, []), [])
  | (s, m :: ms), .tick => ((S.piece s m, ms), [])

/-- The machine whose calls are not interrupted. -/
def whole : Step σ (Act ι κ) Empty
  | s, .interrupt i => (S.interrupt s i, [])
  | s, .call k => ((S.pieces s k).foldl S.piece s, [])

/-- The call under way brought to its end. -/
def finish (s : σ × List μ) : σ := s.2.foldl S.piece s.1

/-- The order of the piece and the interrupt does not matter. -/
def Moves (i : ι) (m : μ) : Prop := ∀ s, S.interrupt (S.piece s m) i = S.piece (S.interrupt s i) m

variable {S}

theorem foldl_interrupt {i : ι} {ms : List μ} (h : ∀ m ∈ ms, Moves S i m) (s : σ) :
    ms.foldl S.piece (S.interrupt s i) = S.interrupt (ms.foldl S.piece s) i := by
  induction ms generalizing s with
  | nil => rfl
  | cons m ms ih =>
    obtain ⟨hm, hms⟩ := List.forall_mem_cons.mp h
    rw [List.foldl_cons, List.foldl_cons, ← hm s, ih hms]

/-- What the machine with whole calls gets of an input: an interrupt that
moves past what is left of the call, and a call where none is under way. -/
def taken (moves : ι → μ → Bool) (s : σ × List μ) : Input ι κ → Option (Act ι κ)
  | .interrupt i => if s.2.all (moves i) then some (.interrupt i) else none
  | .call k => if s.2.isEmpty then some (.call k) else none
  | .tick => none

theorem finish_step {moves : ι → μ → Bool} (hmoves : ∀ i m, moves i m = true → Moves S i m) {s : σ × List μ}
    {i : Input ι κ} (hquiet : ∀ j, i = .interrupt j → s.2.all (moves j) = false → S.interrupt s.1 j = s.1) :
    finish S (step S s i).1 = run (whole S) (finish S s) (taken moves s i).toList := by
  obtain ⟨s, ms⟩ := s
  cases i with
  | interrupt j =>
    simp only [taken]
    cases ha : ms.all (moves j) with
    | true => exact foldl_interrupt (fun m hm => hmoves j m (List.all_eq_true.mp ha m hm)) s
    | false => exact congrArg (fun s => finish S (s, ms)) (hquiet j rfl ha)
  | call k =>
    cases ms with
    | nil => rfl
    | cons m ms => rfl
  | tick =>
    cases ms with
    | nil => rfl
    | cons m ms => rfl

/-- **Reduction rule.** Along a condition under which every interrupt moves past what is
left of the call under way or does nothing, calls can be taken for one step. -/
theorem finish_run {moves : ι → μ → Bool} (hmoves : ∀ i m, moves i m = true → Moves S i m)
    {I : σ × List μ → Prop} {P : σ × List μ → Input ι κ → Prop} (hI : ∀ s i, P s i → I s → I (step S s i).1)
    (hquiet : ∀ s j, P s (.interrupt j) → I s → s.2.all (moves j) = false → S.interrupt s.1 j = s.1)
    {s : σ × List μ} (hs : I s) {is : List (Input ι κ)} (his : Along (step S) P s is) :
    finish S (run (step S) s is) =
      run (whole S) (finish S s) (readings (step S) (fun s i => (taken moves s i).toList) s is) := by
  induction is generalizing s with
  | nil => rfl
  | cons i is ih =>
    obtain ⟨hi, his⟩ := his
    have hstep := finish_step hmoves (i := i) fun j hj ha => hquiet s j (hj ▸ hi) hs ha
    rw [run_cons, readings, run_append, ih (hI s i hi hs) his, hstep]

end UsbMux.Atomic
