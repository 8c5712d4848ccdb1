/-
The most recent event of a kind: one that is in a history with nothing behind
it but events that leave it in force.
-/
import Mathlib.Data.List.Induction

namespace UsbMux

variable {α : Type} {Q R : α → Prop} {a b e : α} {hist : List α}

/-- `a` happened, and only events of `Q` since. -/
def Recent (Q : α → Prop) (a : α) (hist : List α) : Prop := ∃ pre post, hist = pre ++ a :: post ∧ ∀ e ∈ post, Q e

namespace Recent

theorem not_nil : ¬ Recent Q a [] := by
  rintro ⟨pre, post, h, -⟩
  exact absurd h (by simp)

/-- One more event: it is the most recent one, or it leaves the one before in force. -/
theorem concat_iff : Recent Q a (hist ++ [e]) ↔ a = e ∨ (Q e ∧ Recent Q a hist) := by
  constructor
  · rintro ⟨pre, post, h, hpost⟩
    rcases List.eq_nil_or_concat post with rfl | ⟨post, e', rfl⟩
    · exact .inl (List.append_inj_right' h rfl |> List.singleton_inj.mp).symm
    · rw [List.concat_eq_append, ← List.cons_append, ← List.append_assoc] at h
      obtain ⟨rfl, he⟩ := List.append_inj' h rfl
      rw [List.singleton_inj] at he
      subst he
      exact .inr ⟨hpost e (by simp), pre, post, rfl, fun x hx => hpost x (by simp [hx])⟩
  · rintro (rfl | ⟨he, pre, post, rfl, hpost⟩)
    · exact ⟨hist, [], rfl, List.forall_mem_nil _⟩
    · refine ⟨pre, post ++ [e], by simp, fun x hx => ?_⟩
      rcases List.mem_append.mp hx with hx | hx
      · exact hpost x hx
      · rwa [List.mem_singleton.mp hx]

theorem append_iff {es : List α} (h : ∀ e ∈ es, Q e) : Recent Q a (hist ++ es) ↔ a ∈ es ∨ Recent Q a hist := by
  induction es using List.reverseRecOn with
  | nil => simp
  | append_singleton es e ih =>
    have hes : ∀ x ∈ es, Q x := fun x hx => h x (List.mem_append_left _ hx)
    rw [← List.append_assoc, concat_iff, ih hes, List.mem_append, List.mem_singleton,
      and_iff_right (h e List.mem_concat_self), ← or_assoc, or_comm (a := a = e)]

theorem mono (h : Recent Q a hist) (hQ : ∀ e, Q e → R e) : Recent R a hist := by
  obtain ⟨pre, post, rfl, hpost⟩ := h
  exact ⟨pre, post, rfl, fun e he => hQ e (hpost e he)⟩

/-- Of the events that do not leave others in force, one is the most recent. -/
theorem unique (ha : ¬ Q a) (hb : ¬ Q b) (h : Recent Q a hist) (h' : Recent Q b hist) : a = b := by
  induction hist using List.reverseRecOn with
  | nil => exact absurd h not_nil
  | append_singleton hist e ih =>
    rcases concat_iff.mp h with rfl | ⟨he, h⟩
    · rcases concat_iff.mp h' with rfl | ⟨he, -⟩
      · rfl
      · exact absurd he ha
    · rcases concat_iff.mp h' with rfl | ⟨-, h'⟩
      · exact absurd he hb
      · exact ih h h'

end Recent

end UsbMux
