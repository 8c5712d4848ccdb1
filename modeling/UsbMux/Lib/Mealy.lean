/-
Deterministic systems that answer every input with a list of outputs: the
state a run ends in, the outputs of a run, a condition that holds before
every step of a run, and the induction rules for all three.

A rule takes the fact about one step (`hstep`) and gives the fact about
every run, so a proof about runs is left with one case split over inputs.
-/
import Mathlib.Data.List.Basic

namespace UsbMux.Mealy

variable {σ τ ι ο : Type}

/-- A step: the next state and the outputs. -/
abbrev Step (σ ι ο : Type) := σ → ι → σ × List ο

/-- The state after a list of inputs. -/
def run (step : Step σ ι ο) : σ → List ι → σ
  | s, [] => s
  | s, i :: is => run step (step s i).1 is

/-- The outputs of a list of inputs, in order. -/
def outs (step : Step σ ι ο) : σ → List ι → List ο
  | _, [] => []
  | s, i :: is => (step s i).2 ++ outs step (step s i).1 is

/-- `P` holds of the state and the input before every step of the run. -/
def Along (step : Step σ ι ο) (P : σ → ι → Prop) : σ → List ι → Prop
  | _, [] => True
  | s, i :: is => P s i ∧ Along step P (step s i).1 is

variable {step : Step σ ι ο} {P : σ → ι → Prop}

@[simp] theorem run_nil (s : σ) : run step s [] = s := rfl
@[simp] theorem run_cons (s : σ) (i : ι) (is : List ι) :
    run step s (i :: is) = run step (step s i).1 is := rfl
@[simp] theorem outs_nil (s : σ) : outs step s [] = [] := rfl
@[simp] theorem outs_cons (s : σ) (i : ι) (is : List ι) :
    outs step s (i :: is) = (step s i).2 ++ outs step (step s i).1 is := rfl
@[simp] theorem along_nil (s : σ) : Along step P s [] := trivial
@[simp] theorem along_cons (s : σ) (i : ι) (is : List ι) :
    Along step P s (i :: is) ↔ P s i ∧ Along step P (step s i).1 is := Iff.rfl

instance Along.decidable [∀ s i, Decidable (P s i)] : ∀ s is, Decidable (Along step P s is)
  | _, [] => .isTrue trivial
  | s, i :: is => @instDecidableAnd _ _ _ (Along.decidable (step s i).1 is)

theorem run_append (s : σ) (is js : List ι) : run step s (is ++ js) = run step (run step s is) js := by
  induction is generalizing s with
  | nil => rfl
  | cons i is ih => exact ih _

theorem outs_append (s : σ) (is js : List ι) :
    outs step s (is ++ js) = outs step s is ++ outs step (run step s is) js := by
  induction is generalizing s with
  | nil => rfl
  | cons i is ih => simp [ih]

/-- **Invariant rule.** A property every step keeps holds at the end of the run. -/
theorem inv_run {I : σ → Prop} (hstep : ∀ s i, I s → I (step s i).1) {s : σ} (hs : I s) (is : List ι) :
    I (run step s is) := by
  induction is generalizing s with
  | nil => exact hs
  | cons i is ih => exact ih (hstep s i hs)

theorem inv_run_along {I : σ → Prop} (hstep : ∀ s i, P s i → I s → I (step s i).1) {s : σ} (hs : I s) {is : List ι}
    (his : Along step P s is) : I (run step s is) := by
  induction is generalizing s with
  | nil => exact hs
  | cons i is ih => exact ih (hstep s i his.1 hs) his.2

/-- **History rule.** `J` relates the state to the outputs so far: every step
that appends its outputs to the history keeps it. -/
theorem history_run {J : σ → List ο → Prop} (hstep : ∀ s tr i, J s tr → J (step s i).1 (tr ++ (step s i).2))
    {s : σ} {tr : List ο} (hs : J s tr) (is : List ι) : J (run step s is) (tr ++ outs step s is) := by
  induction is generalizing s tr with
  | nil => simpa using hs
  | cons i is ih => simpa [List.append_assoc] using ih (hstep s tr i hs)

theorem history_run_along {J : σ → List ο → Prop}
    (hstep : ∀ s tr i, P s i → J s tr → J (step s i).1 (tr ++ (step s i).2)) {s : σ} {tr : List ο} (hs : J s tr)
    {is : List ι} (his : Along step P s is) : J (run step s is) (tr ++ outs step s is) := by
  induction is generalizing s tr with
  | nil => simpa using hs
  | cons i is ih => simpa [List.append_assoc] using ih (hstep s tr i his.1 hs) his.2

/-- **Output rule.** What every step's outputs have under an invariant, all
outputs of a run have. -/
theorem forall_outs {I : σ → Prop} {O : ο → Prop} (hI : ∀ s i, I s → I (step s i).1)
    (hout : ∀ s i, I s → ∀ o ∈ (step s i).2, O o) {s : σ} (hs : I s) (is : List ι) : ∀ o ∈ outs step s is, O o := by
  induction is generalizing s with
  | nil => exact List.forall_mem_nil _
  | cons i is ih =>
    intro o ho
    rcases List.mem_append.mp ho with ho | ho
    · exact hout s i hs o ho
    · exact ih (hI s i hs) o ho

theorem along_of_forall {C : ι → Prop} (s : σ) {is : List ι} (h : ∀ i ∈ is, C i) :
    Along step (fun _ i => C i) s is := by
  induction is generalizing s with
  | nil => trivial
  | cons i is ih => exact ⟨h i List.mem_cons_self, ih _ fun j hj => h j (List.mem_cons_of_mem i hj)⟩

theorem history_run_of {J : σ → List ο → Prop} {C : ι → Prop}
    (hstep : ∀ s tr i, C i → J s tr → J (step s i).1 (tr ++ (step s i).2)) {s : σ} {tr : List ο} (hs : J s tr)
    {is : List ι} (his : ∀ i ∈ is, C i) : J (run step s is) (tr ++ outs step s is) :=
  history_run_along hstep hs (along_of_forall s his)

/-- **Exactness rule.** Where `P` says exactly when a step's outputs all have
`O`, it says so along a run. -/
theorem forall_outs_iff {I : σ → Prop} {O : ο → Prop} (hstep : ∀ s i, I s → I (step s i).1)
    (hout : ∀ s i, I s → ((∀ o ∈ (step s i).2, O o) ↔ P s i)) {s : σ} (hs : I s) (is : List ι) :
    (∀ o ∈ outs step s is, O o) ↔ Along step P s is := by
  induction is generalizing s with
  | nil => simp
  | cons i is ih =>
    rw [outs_cons, along_cons, ← ih (hstep s i hs), ← hout s i hs]
    simp only [List.mem_append, or_imp, forall_and]

/-- **Prefix rule.** Where `P` says exactly when a step from a state with `S`
leads to one with `S`, every state of a run has `S` exactly along `P`. -/
theorem forall_prefix_iff {I S : σ → Prop} (hI : ∀ s i, I s → I (step s i).1)
    (hstep : ∀ s i, I s → S s → (S (step s i).1 ↔ P s i)) {s : σ} (hs : I s) (h0 : S s) (is : List ι) :
    (∀ js, js <+: is → S (run step s js)) ↔ Along step P s is := by
  induction is generalizing s with
  | nil => simpa using h0
  | cons i is ih =>
    rw [along_cons]
    constructor
    · intro h
      have h1 : S (step s i).1 := h [i] ⟨is, rfl⟩
      exact ⟨(hstep s i hs h0).mp h1, (ih (hI s i hs) h1).mp fun js hj =>
        h (i :: js) ((List.prefix_append_right_inj [i]).mpr hj)⟩
    · rintro ⟨hq, ha⟩ js hj
      rcases List.prefix_cons_iff.mp hj with rfl | ⟨js, rfl, hj'⟩
      · exact h0
      · have h1 := (hstep s i hs h0).mpr hq
        exact (ih (hI s i hs) h1).mpr ha js hj'

/-- **Loss rule.** Where every step adds a prefix of what it should add, all
of it exactly under `P`, a run adds up to all of it exactly along `P`: what
one step leaves out no later step makes good. -/
theorem accum_run_iff {α : Type} {f : σ → List α} {g : ι → List α}
    (hstep : ∀ s i, ∃ l, f (step s i).1 = f s ++ l ∧ l <+: g i ∧ (l = g i ↔ P s i)) (s : σ) (is : List ι) :
    (f (run step s is)).length ≤ (f s).length + (is.flatMap g).length ∧
      (f (run step s is) = f s ++ is.flatMap g ↔ Along step P s is) := by
  induction is generalizing s with
  | nil => simp
  | cons i is ih =>
    obtain ⟨l, h2, h3, h4⟩ := hstep s i
    obtain ⟨hle, hiff⟩ := ih (step s i).1
    have hlen := h3.length_le
    rw [h2, List.length_append] at hle
    rw [run_cons, along_cons, List.flatMap_cons, List.length_append]
    refine ⟨by omega, ?_, fun ⟨hq, ha⟩ => ?_⟩
    · intro he
      have hl : l = g i := h3.eq_of_length (by
        have := congrArg List.length he
        simp only [List.length_append] at this
        omega)
      exact ⟨h4.mp hl, hiff.mp (by rw [he, h2, hl, List.append_assoc])⟩
    · rw [hiff.mpr ha, h2, h4.mpr hq, List.append_assoc]

/-- **Conservation rule.** Where a step's contents with what enters are what
leaves and the next contents, in order, so are those of a run. -/
theorem conserve_run {α : Type} {I : σ → Prop} {contents : σ → List α} {enters leaves : ο → List α}
    (hI : ∀ s i, I s → I (step s i).1)
    (hstep : ∀ s i, I s → contents s ++ (step s i).2.flatMap enters =
      (step s i).2.flatMap leaves ++ contents (step s i).1)
    {s : σ} (hs : I s) (is : List ι) :
    contents s ++ (outs step s is).flatMap enters = (outs step s is).flatMap leaves ++ contents (run step s is) := by
  induction is generalizing s with
  | nil => simp
  | cons i is ih =>
    have hrest := ih (hI s i hs)
    rw [outs_cons, run_cons, List.flatMap_append, List.flatMap_append, ← List.append_assoc, hstep s i hs,
      List.append_assoc, hrest, List.append_assoc]

/-- **Simulation rule.** Steps that keep `R` and answer alike, on inputs that
`g` takes into each other, make runs that keep `R` and answer alike. -/
theorem sim_run {κ : Type} {step' : Step τ κ ο} {R : σ → τ → Prop} {g : ι → κ}
    (hstep : ∀ s t i, R s t → R (step s i).1 (step' t (g i)).1 ∧ (step s i).2 = (step' t (g i)).2)
    {s : σ} {t : τ} (hs : R s t) (is : List ι) :
    R (run step s is) (run step' t (is.map g)) ∧ outs step s is = outs step' t (is.map g) := by
  induction is generalizing s t with
  | nil => exact ⟨hs, rfl⟩
  | cons i is ih =>
    obtain ⟨h1, h2⟩ := hstep s t i hs
    obtain ⟨h3, h4⟩ := ih h1
    exact ⟨h3, by simp [h2, h4]⟩

/-- A condition along a run carries over to a machine whose states follow,
whatever it answers. -/
theorem sim_along {κ ο' : Type} {step' : Step τ κ ο'} {R : σ → τ → Prop} {g : ι → κ} {Q : τ → κ → Prop}
    (hstep : ∀ s t i, R s t → R (step s i).1 (step' t (g i)).1) (hPQ : ∀ s t i, R s t → (P s i ↔ Q t (g i)))
    {s : σ} {t : τ} (hs : R s t) (is : List ι) : Along step P s is ↔ Along step' Q t (is.map g) := by
  induction is generalizing s t with
  | nil => exact Iff.rfl
  | cons i is ih => exact and_congr (hPQ s t i hs) (ih (hstep s t i hs))

end UsbMux.Mealy
