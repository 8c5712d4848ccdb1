/-
Logs of what is done with resources that are named by addresses: they are
acquired, used and settled. An address that is acquired again names a new
resource, so what becomes of a resource is what is done with its address up to
the next time (`life`).

A log is `Accounted` when each resource in it is settled exactly once and not
used from then on. Accounts can be put one behind the other (`append`) and one
around another (`around`).
-/
import Mathlib.Data.List.Basic

namespace UsbMux.Ownership

variable {α φ : Type}

inductive Act (α φ : Type)
  | acquire (a : α)
  | use (a : α)
  | settle (a : α) (fate : φ)
deriving DecidableEq

def Act.addr : Act α φ → α
  | .acquire a => a
  | .use a => a
  | .settle a _ => a

variable [DecidableEq α]

/-- What is done with an address until it is acquired. -/
def life (a : α) : List (Act α φ) → List (Act α φ)
  | [] => []
  | .acquire b :: acts => if b = a then [] else life a acts
  | .use b :: acts => if b = a then .use b :: life a acts else life a acts
  | .settle b fate :: acts => if b = a then .settle b fate :: life a acts else life a acts

/-- The uses of a resource, and then its end. -/
def ending (a : α) (n : Nat) (fate : φ) : List (Act α φ) := List.replicate n (.use a) ++ [.settle a fate]

def SettledOnce (a : α) (acts : List (Act α φ)) : Prop := ∃ n fate, acts = ending a n fate

/-- What is acquired is settled, and nothing else is used or settled. -/
structure Accounted (log : List (Act α φ)) : Prop where
  settled : ∀ before a after, log = before ++ .acquire a :: after → SettledOnce a (life a after)
  owned : ∀ a, life a log = []

variable {log log' : List (Act α φ)} {a : α}

/-- Where the address is not used, what comes behind does not matter. -/
theorem life_append (h : life a log' = []) (acts : List (Act α φ)) : life a (acts ++ log') = life a acts := by
  induction acts with
  | nil => exact h
  | cons act acts ih =>
    cases act with
    | acquire b | use b | settle b =>
      simp only [List.cons_append, life, ih]

theorem life_of_other (h : ∀ act ∈ log, act.addr ≠ a) (acts : List (Act α φ)) :
    life a (log ++ acts) = life a acts := by
  induction log with
  | nil => rfl
  | cons act log ih =>
    obtain ⟨hact, hlog⟩ := List.forall_mem_cons.mp h
    cases act with
    | acquire b | use b | settle b =>
      have hb : b ≠ a := hact
      rw [List.cons_append, life, if_neg hb]
      exact ih hlog

theorem life_ending (a : α) (n : Nat) (fate : φ) : life a (ending a n fate) = ending a n fate := by
  induction n with
  | zero => simp [ending, life]
  | succ n ih =>
    simp only [ending] at ih
    simp [ending, List.replicate_succ, life, ih]

omit [DecidableEq α] in
theorem addr_of_ending {a : α} {n : Nat} {fate : φ} : ∀ act ∈ ending a n fate, act.addr = a := by
  intro act hact
  rcases List.mem_append.mp hact with hact | hact
  · rw [List.eq_of_mem_replicate hact]
    rfl
  · rw [List.mem_singleton.mp hact]
    rfl

theorem life_ending_of_ne {a b : α} (h : a ≠ b) (n : Nat) (fate : φ) : life b (ending a n fate) = [] := by
  have hother : ∀ act ∈ ending a n fate, act.addr ≠ b := fun act hact => addr_of_ending act hact ▸ h
  simpa [life] using life_of_other hother []

omit [DecidableEq α] in
theorem acquired_in {before after : List (Act α φ)} (h : log ++ log' = before ++ .acquire a :: after) :
    (∃ mid, log = before ++ .acquire a :: mid ∧ after = mid ++ log') ∨ ∃ mid, log' = mid ++ .acquire a :: after := by
  rcases List.append_eq_append_iff.mp h with ⟨mid, -, hmid⟩ | ⟨mid, hmid, hafter⟩
  · exact .inr ⟨mid, hmid⟩
  · cases mid with
    | nil => exact .inr ⟨[], hafter.symm⟩
    | cons act mid =>
      obtain ⟨rfl, rfl⟩ := List.cons.inj hafter
      exact .inl ⟨mid, hmid, rfl⟩

theorem accounted_nil : Accounted ([] : List (Act α φ)) where
  settled before a after h := by simp at h
  owned _ := rfl

theorem Accounted.append (h : Accounted log) (h' : Accounted log') : Accounted (log ++ log') where
  settled before a after he := by
    rcases acquired_in he with ⟨mid, hlog, rfl⟩ | ⟨mid, hlog'⟩
    · rw [life_append (h'.owned a)]
      exact h.settled before a mid hlog
    · exact h'.settled mid a after hlog'
  owned a := by
    rw [life_append (h'.owned a)]
    exact h.owned a

/-- **A resource around an account** that does nothing with it. -/
theorem Accounted.around (h : Accounted log) (ha : ∀ act ∈ log, act.addr ≠ a) (n : Nat) (fate : φ) :
    Accounted (.acquire a :: (log ++ ending a n fate)) where
  settled before b after he := by
    cases before with
    | nil =>
      obtain ⟨hab, rfl⟩ := List.cons.inj he
      cases hab
      rw [life_of_other ha, life_ending]
      exact ⟨n, fate, rfl⟩
    | cons act before =>
      rcases acquired_in (List.cons.inj he).2 with ⟨mid, hlog, rfl⟩ | ⟨mid, hend⟩
      · have hne : a ≠ b := (ha (.acquire b) (by simp [hlog])).symm
        rw [life_append (life_ending_of_ne hne n fate)]
        exact h.settled before b mid hlog
      · -- nothing is acquired at the end
        have hmem : .acquire b ∈ ending a n fate := by simp [hend]
        simp [ending] at hmem
  owned b := by
    rw [life]
    split
    · rfl
    · next hne =>
      rw [life_append (life_ending_of_ne hne n fate)]
      exact h.owned b

theorem accounted_single (a : α) (n : Nat) (fate : φ) : Accounted (.acquire a :: ending a n fate) :=
  accounted_nil.around (by simp) n fate

end UsbMux.Ownership
