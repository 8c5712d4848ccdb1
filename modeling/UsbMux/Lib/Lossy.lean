/-
Lossy paths: what comes out is some of what went in, in order, each piece in
the shape the path gives it (`List.SublistForall₂`). First how such paths are
put one behind the other, then the rule for a path through the state of a
system: a step may throw away what the state holds, but not change its order.
-/
import Mathlib.Data.List.Flatten
import Mathlib.Data.List.Forall2
import UsbMux.Lib.Mealy

namespace UsbMux

variable {α β γ : Type}

namespace Lossy

open List

variable {R : α → β → Prop} {S : β → γ → Prop} {as as' : List α} {bs bs' : List β} {cs : List γ}

theorem append (h : SublistForall₂ R as bs) (h' : SublistForall₂ R as' bs') :
    SublistForall₂ R (as ++ as') (bs ++ bs') := by
  induction h with
  | @nil bs =>
    induction bs with
    | nil => exact h'
    | cons b bs ih => exact .cons_right ih
  | cons hr _ ih => exact .cons hr ih
  | cons_right _ ih => exact .cons_right ih

theorem comp {T : α → γ → Prop} (hT : ∀ a b c, R a b → S b c → T a c) (h : SublistForall₂ R as bs)
    (h' : SublistForall₂ S bs cs) : SublistForall₂ T as cs := by
  induction h' generalizing as with
  | nil =>
    cases h with
    | nil => exact .nil
  | cons hs _ ih =>
    cases h with
    | nil => exact .nil
    | cons hr h => exact .cons (hT _ _ _ hr hs) (ih h)
    | cons_right h => exact .cons_right (ih h)
  | cons_right _ ih => exact .cons_right (ih h)

theorem mono {R' : α → β → Prop} (hR : ∀ a, ∀ b ∈ bs, R a b → R' a b) (h : SublistForall₂ R as bs) :
    SublistForall₂ R' as bs := by
  induction h with
  | nil => exact .nil
  | cons hr _ ih => exact .cons (hR _ _ mem_cons_self hr) (ih fun a b hb => hR a b (mem_cons_of_mem _ hb))
  | cons_right _ ih => exact .cons_right (ih fun a b hb => hR a b (mem_cons_of_mem _ hb))

theorem of_sublist (hs : as' <+ as) (h : SublistForall₂ R as bs) : SublistForall₂ R as' bs :=
  comp (R := fun a a' => a = a') (by rintro a _ c rfl hr; exact hr)
    (sublistForall₂_iff.mpr ⟨as', forall₂_eq_eq_eq ▸ rfl, hs⟩) h

theorem filter {p : α → Bool} {q : β → Bool} (hpq : ∀ a b, R a b → p a = q b) (h : SublistForall₂ R as bs) :
    SublistForall₂ R (as.filter p) (bs.filter q) := by
  induction h with
  | nil => exact .nil
  | @cons a b as bs hr _ ih =>
    rw [filter_cons, filter_cons, hpq a b hr]
    split
    · exact .cons hr ih
    · exact ih
  | @cons_right b as bs _ ih =>
    rw [filter_cons (x := b)]
    split
    · exact .cons_right ih
    · exact ih

theorem flatMap_sublist {f : α → List γ} {g : β → List γ} (hfg : ∀ a b, R a b → f a <+ g b)
    (h : SublistForall₂ R as bs) : as.flatMap f <+ bs.flatMap g := by
  induction h with
  | nil => exact nil_sublist _
  | cons hr _ ih => exact (hfg _ _ hr).append ih
  | cons_right _ ih => exact ih.trans (sublist_append_right _ _)

theorem flatMap_filter {f : α → List γ} {p : α → Bool} (h : ∀ a, p a = false → f a = []) (as : List α) :
    (as.filter p).flatMap f = as.flatMap f := by
  induction as with
  | nil => rfl
  | cons a as ih =>
    cases hp : p a with
    | true => rw [filter_cons_of_pos hp, flatMap_cons, flatMap_cons, ih]
    | false => rw [filter_cons_of_neg (by simp [hp]), flatMap_cons, h a hp, nil_append, ih]

end Lossy

/-! ## Through the state of a system -/

namespace Mealy

variable {σ ι ο : Type} (step : Step σ ι ο)

/-- All that `f` reads off the steps of a run. -/
def readings (f : σ → ι → List α) : σ → List ι → List α
  | _, [] => []
  | s, i :: is => f s i ++ readings f (step s i).1 is

variable {step}

theorem readings_outs (g : ο → List α) (s : σ) (is : List ι) :
    readings step (fun s i => (step s i).2.flatMap g) s is = (outs step s is).flatMap g := by
  induction is generalizing s with
  | nil => rfl
  | cons i is ih => rw [readings, ih, outs_cons, List.flatMap_append]

theorem readings_inputs (g : ι → List α) (s : σ) (is : List ι) :
    readings step (fun _ i => g i) s is = is.flatMap g := by
  induction is generalizing s with
  | nil => rfl
  | cons i is ih => rw [readings, ih, List.flatMap_cons]

theorem readings_flatMap {f : σ → ι → List α} (g : α → List β) (s : σ) (is : List ι) :
    (readings step f s is).flatMap g = readings step (fun s i => (f s i).flatMap g) s is := by
  induction is generalizing s with
  | nil => rfl
  | cons i is ih => rw [readings, List.flatMap_append, ih, readings]

/-- **Account rule.** `J` relates the state to what has been read off so far. -/
theorem readings_run {f : σ → ι → List α} {J : σ → List α → Prop}
    (hstep : ∀ s rs i, J s rs → J (step s i).1 (rs ++ f s i)) {s : σ} {rs : List α} (hs : J s rs) (is : List ι) :
    J (run step s is) (rs ++ readings step f s is) := by
  induction is generalizing s rs with
  | nil => simpa [readings] using hs
  | cons i is ih => simpa [readings, List.append_assoc] using ih (hstep s rs i hs)

/-- **Lossy path rule.** Where what leaves in a step and what is held after it
are some of what was held before and what enters, in order, so it is over a
run. -/
theorem lossy_run (contents : σ → List α) (enters leaves : σ → ι → List α) {I : σ → Prop}
    (hI : ∀ s i, I s → I (step s i).1)
    (hstep : ∀ s i, I s → (leaves s i ++ contents (step s i).1).Sublist (contents s ++ enters s i)) {s : σ}
    (hs : I s) (is : List ι) :
    (readings step leaves s is ++ contents (run step s is)).Sublist (contents s ++ readings step enters s is) := by
  induction is generalizing s with
  | nil =>
    rw [readings, readings, List.append_nil]
    exact List.Sublist.refl _
  | cons i is ih =>
    rw [readings, readings, run_cons, List.append_assoc]
    refine ((List.Sublist.refl (leaves s i)).append (ih (hI s i hs))).trans ?_
    rw [← List.append_assoc, ← List.append_assoc]
    exact (hstep s i hs).append (List.Sublist.refl _)

end Mealy

end UsbMux
