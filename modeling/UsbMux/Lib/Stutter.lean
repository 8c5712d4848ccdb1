/-
Simulation where the simulating system takes part in some of the inputs only
and sees some of the outputs only: the others leave the relation and say
nothing. This is how one part of a system is shown to be undisturbed by the
rest of it. Where the part is a component with a step of its own, the input it
gets may depend on the state.
-/
import UsbMux.Lib.Lossy

namespace UsbMux.Mealy

variable {σ τ ι κ ο π : Type}

/-- What makes `step'` simulate `step` on the inputs `g` gives it, as far as
the outputs `v` shows. -/
structure Stutters (step : Step σ ι ο) (step' : Step τ κ π) (g : ι → Option κ) (v : ο → Option π)
    (R : σ → τ → Prop) : Prop where
  takes : ∀ s t i k, R s t → g i = some k →
    R (step s i).1 (step' t k).1 ∧ (step s i).2.filterMap v = (step' t k).2
  skips : ∀ s t i, R s t → g i = none → R (step s i).1 t ∧ (step s i).2.filterMap v = []

variable {step : Step σ ι ο} {step' : Step τ κ π} {g : ι → Option κ} {v : ο → Option π} {R : σ → τ → Prop}
  {s : σ} {t : τ}

/-- **Stuttering rule.** A run is simulated by the run of the inputs taken
part in, and what is seen of its outputs are the outputs of that run. -/
theorem Stutters.run (h : Stutters step step' g v R) (hs : R s t) (is : List ι) :
    R (Mealy.run step s is) (Mealy.run step' t (is.filterMap g)) ∧
      (outs step s is).filterMap v = outs step' t (is.filterMap g) := by
  induction is generalizing s t with
  | nil => exact ⟨hs, rfl⟩
  | cons i is ih =>
    rw [run_cons, outs_cons, List.filterMap_append]
    cases hg : g i with
    | none =>
      obtain ⟨h1, h2⟩ := h.skips s t i hs hg
      obtain ⟨h3, h4⟩ := ih h1
      rw [List.filterMap_cons_none hg, h2]
      exact ⟨h3, h4⟩
    | some k =>
      obtain ⟨h1, h2⟩ := h.takes s t i k hs hg
      obtain ⟨h3, h4⟩ := ih h1
      rw [List.filterMap_cons_some hg, h2]
      exact ⟨h3, by rw [h4, outs_cons]⟩

/-- The machine of which only what `v` shows of the outputs is seen. -/
def showing (v : ο → List π) (step : Step σ ι ο) : Step σ ι π := fun s i => ((step s i).1, (step s i).2.flatMap v)

theorem run_showing (v : ο → List π) (step : Step σ ι ο) (s : σ) (is : List ι) :
    Mealy.run (showing v step) s is = Mealy.run step s is := by
  induction is generalizing s with
  | nil => rfl
  | cons i is ih => exact ih _

theorem outs_showing (v : ο → List π) (step : Step σ ι ο) (s : σ) (is : List ι) :
    outs (showing v step) s is = (outs step s is).flatMap v := by
  induction is generalizing s with
  | nil => rfl
  | cons i is ih =>
    rw [outs_cons, outs_cons, List.flatMap_append, ← ih]
    rfl

theorem readings_showing {α : Type} (v : ο → List π) (step : Step σ ι ο) (f : σ → ι → List α) (s : σ) (is : List ι) :
    readings (showing v step) f s is = readings step f s is := by
  induction is generalizing s with
  | nil => rfl
  | cons i is ih => rw [readings, readings, ih]; rfl

/-- Every step leaves a part of the state alone, or moves it as the component
`step'` does on the input `g` gives it, with the component's outputs. -/
structure Component (step : Step σ ι ο) (step' : Step τ κ ο) (part : σ → τ) (g : σ → ι → Option κ) : Prop where
  takes : ∀ s i k, g s i = some k → part (step s i).1 = (step' (part s) k).1 ∧ (step s i).2 = (step' (part s) k).2
  skips : ∀ s i, g s i = none → part (step s i).1 = part s ∧ (step s i).2 = []

/-- **Component rule.** In a run the part goes through a run of the component,
and the outputs are those of that run. -/
theorem Component.run {step : Step σ ι ο} {step' : Step τ κ ο} {part : σ → τ} {g : σ → ι → Option κ}
    (h : Component step step' part g) (s : σ) (is : List ι) :
    let ks := readings step (fun s i => (g s i).toList) s is
    part (Mealy.run step s is) = Mealy.run step' (part s) ks ∧ outs step s is = outs step' (part s) ks := by
  induction is generalizing s with
  | nil => exact ⟨rfl, rfl⟩
  | cons i is ih =>
    obtain ⟨hrun, houts⟩ := ih (step s i).1
    simp only [readings, run_cons, outs_cons, hrun, houts]
    cases hg : g s i with
    | none =>
      obtain ⟨h1, h2⟩ := h.skips s i hg
      rw [h1, h2]
      exact ⟨rfl, rfl⟩
    | some k =>
      obtain ⟨h1, h2⟩ := h.takes s i k hg
      rw [h1, h2]
      exact ⟨rfl, rfl⟩

end UsbMux.Mealy
