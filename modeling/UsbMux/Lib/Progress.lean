/-
Progress of a deterministic system under inputs that come in any order, but
often enough. `Leads P r Q`: from `P` the system gets to `Q` by the time the
inputs of `r` have come, in their order and with any others of `C` between
them. From there to a measure: where every round of inputs brings it down, it
comes to zero once there are as many rounds among the inputs as it says. Where
inputs of one kind bring it down and the others may raise it, it is a budget.
-/
import Mathlib.Algebra.GroupWithZero.Nat
import UsbMux.Lib.Mealy

namespace UsbMux.Mealy

variable {σ ι ο : Type}

/-! ## Leading from one condition to another -/

def Leads (step : Step σ ι ο) (C : ι → Prop) (P : σ → Prop) (r : List ι) (Q : σ → Prop) : Prop :=
  ∀ s, P s → ∀ is, (∀ i ∈ is, C i) → r.Sublist is → ∃ js ks, is = js ++ ks ∧ Q (run step s js)

section

variable {step : Step σ ι ο} {C : ι → Prop} {P Q R : σ → Prop} {r r' : List ι} {a : ι}

namespace Leads

theorem of_imp (h : ∀ s, P s → Q s) : Leads step C P r Q := fun s hs is _ _ => ⟨[], is, rfl, h s hs⟩

theorem imp (h : Leads step C Q r R) (hpq : ∀ s, P s → Q s) : Leads step C P r R := fun s hs => h s (hpq s hs)

theorem or (h : Leads step C P r R) (h' : Leads step C Q r R) : Leads step C (fun s => P s ∨ Q s) r R :=
  fun s hs => hs.elim (h s) (h' s)

theorem mono (h : Leads step C P r Q) (hr : r.Sublist r') : Leads step C P r' Q :=
  fun s hs is his hsub => h s hs is his (hr.trans hsub)

theorem trans (h : Leads step C P r Q) (h' : Leads step C Q r' R) : Leads step C P (r ++ r') R := by
  intro s hs is his hsub
  obtain ⟨is₁, is₂, rfl, hr, hr'⟩ := List.append_sublist_iff.mp hsub
  obtain ⟨js, ks, rfl, hq⟩ := h s hs is₁ (fun i hi => his i (List.mem_append_left _ hi)) hr
  have hrest : ∀ i ∈ ks ++ is₂, C i := fun i hi => his i (by
    rw [List.append_assoc]
    exact List.mem_append_right js hi)
  obtain ⟨js', ks', he, hR⟩ := h' _ hq (ks ++ is₂) hrest (hr'.trans (List.sublist_append_right ..))
  refine ⟨js ++ js', ks', ?_, ?_⟩
  · rw [List.append_assoc, he, List.append_assoc]
  · rw [run_append]
    exact hR

/-- **One input.** A condition that stays until the goal is reached, and an input that reaches it. -/
theorem single (stays : ∀ s i, C i → P s → P (step s i).1 ∨ Q (step s i).1)
    (helps : ∀ s, C a → P s → Q (step s a).1) : Leads step C P [a] Q := by
  intro s hs is his hsub
  induction is generalizing s with
  | nil => cases List.sublist_nil.mp hsub
  | cons i is ih =>
    obtain ⟨hi, hrest⟩ := List.forall_mem_cons.mp his
    have here (hq : Q (step s i).1) : ∃ js ks, i :: is = js ++ ks ∧ Q (run step s js) := ⟨[i], is, rfl, hq⟩
    rcases List.sublist_cons_iff.mp hsub with hin | ⟨r, hr, -⟩
    · rcases stays s i hi hs with hp | hq
      · obtain ⟨js, ks, rfl, hq⟩ := ih _ hp hrest hin
        exact ⟨i :: js, ks, rfl, hq⟩
      · exact here hq
    · obtain ⟨rfl, -⟩ := List.cons.inj hr
      exact here (helps s hi hs)

/-- **Counting down.** An input that brings a distance down or reaches the
goal, and no other that brings it up. -/
theorem countdown (d : σ → Nat)
    (stays : ∀ s i, C i → i ≠ a → P s → (P (step s i).1 ∧ d (step s i).1 ≤ d s) ∨ Q (step s i).1)
    (helps : ∀ s, C a → P s → (P (step s a).1 ∧ d (step s a).1 < d s) ∨ Q (step s a).1) (n : Nat) :
    Leads step C (fun s => P s ∧ d s < n) (List.replicate n a) Q := by
  induction n with
  | zero => exact fun s hs => absurd hs.2 (Nat.not_lt_zero _)
  | succ n ih =>
    have hone : Leads step C (fun s => P s ∧ d s < n + 1) [a] (fun s => (P s ∧ d s < n) ∨ Q s) := by
      refine single ?_ ?_
      · rintro s i hi ⟨hp, hd⟩
        have hnext : (P (step s i).1 ∧ d (step s i).1 ≤ d s) ∨ Q (step s i).1 := by
          by_cases ha : i = a
          · subst ha
            exact (helps s hi hp).imp_left fun h => ⟨h.1, Nat.le_of_lt h.2⟩
          · exact stays s i hi ha hp
        rcases hnext with ⟨hp', hle⟩ | hq
        · exact .inl ⟨hp', Nat.lt_of_le_of_lt hle hd⟩
        · exact .inr (.inr hq)
      · rintro s ha ⟨hp, hd⟩
        exact (helps s ha hp).imp_left fun h => ⟨h.1, Nat.lt_of_lt_of_le h.2 (Nat.le_of_lt_succ hd)⟩
    exact hone.trans (ih.or (of_imp fun _ h => h))

end Leads

end

/-! ## Rounds -/

/-- From states of `I` and under inputs of `C`, every round brings the measure
`μ` down. An input with a charge may raise `μ` by less than that, and may spoil a round. -/
structure Rounds (step : Step σ ι ο) (I : σ → Prop) (C : ι → Prop) (charge : ι → Nat) (μ : σ → Nat)
    (round : List ι) : Prop where
  keeps : ∀ s i, C i → I s → I (step s i).1
  le : ∀ s i, C i → I s → μ (step s i).1 ≤ μ s + (charge i - 1)
  leads : ∀ m, Leads step (fun i => C i ∧ charge i = 0) (fun s => I s ∧ μ s = m + 1) round (fun s => μ s ≤ m)

variable {step : Step σ ι ο} {I : σ → Prop} {C : ι → Prop} {μ : σ → Nat} {s : σ} {is : List ι}

namespace Rounds

variable {charge : ι → Nat} {round : List ι}

theorem inv_run (h : Rounds step I C charge μ round) (hs : I s) (his : ∀ i ∈ is, C i) : I (run step s is) :=
  inv_run_along (P := fun _ i => C i) (fun s i hi => h.keeps s i hi) hs (along_of_forall s his)

theorem run_le (h : Rounds step I C charge μ round) (hs : I s) (his : ∀ i ∈ is, C i) :
    μ (run step s is) ≤ μ s + ((is.map charge).sum - 1) := by
  induction is generalizing s with
  | nil => exact Nat.le_add_right ..
  | cons i is ih =>
    obtain ⟨hi, hrest⟩ := List.forall_mem_cons.mp his
    have hstep := h.le s i hi hs
    have hrun := ih (h.keeps s i hi hs) hrest
    rw [run_cons, List.map_cons, List.sum_cons]
    omega

/-- **Progress rule.** With as many rounds among the inputs as the measure
and the charges say, nothing is left to do at some time. -/
theorem exists_eq_zero (h : Rounds step I C charge μ round) (hs : I s) (his : ∀ i ∈ is, C i) {n : Nat}
    (hn : μ s + (is.map charge).sum ≤ n) (hr : (List.replicate n round).flatten.Sublist is) :
    ∃ js, js <+: is ∧ μ (run step s js) = 0 := by
  induction n generalizing s is with
  | zero => exact ⟨[], List.nil_prefix, by rw [run_nil]; omega⟩
  | succ n ih =>
    cases hm : μ s with
    | zero => exact ⟨[], List.nil_prefix, hm⟩
    | succ m =>
      rw [List.replicate_succ, List.flatten_cons] at hr
      obtain ⟨is₁, is₂, rfl, hround, hrest⟩ := List.append_sublist_iff.mp hr
      have hleft : ∀ i ∈ is₁, C i := fun i hi => his i (List.mem_append_left _ hi)
      rw [List.map_append, List.sum_append] at hn
      -- a round with no charge in it has the measure go down, and any other is paid for
      obtain ⟨js, ks, he, hle⟩ : ∃ js ks, is₁ = js ++ ks ∧
          μ (run step s js) + ((ks ++ is₂).map charge).sum ≤ n := by
        by_cases hfree : (is₁.map charge).sum = 0
        · rw [List.sum_eq_zero_iff_forall_eq_nat, List.forall_mem_map] at hfree
          obtain ⟨js, ks, he, hdown⟩ := h.leads m s ⟨hs, hm⟩ is₁ (fun i hi => ⟨hleft i hi, hfree i hi⟩) hround
          have hks : (ks.map charge).sum ≤ (is₁.map charge).sum := by
            rw [he, List.map_append, List.sum_append]
            exact Nat.le_add_left ..
          refine ⟨js, ks, he, ?_⟩
          rw [List.map_append, List.sum_append]
          omega
        · have := h.run_le hs hleft
          refine ⟨is₁, [], (List.append_nil _).symm, ?_⟩
          rw [List.nil_append]
          omega
      subst he
      have hjs : ∀ i ∈ js, C i := fun i hi => hleft i (List.mem_append_left _ hi)
      have hks : ∀ i ∈ ks ++ is₂, C i := fun i hi => his i (by
        rw [List.append_assoc]
        exact List.mem_append_right js hi)
      obtain ⟨ls, hls, hzero⟩ := ih (h.inv_run hs hjs) hks hle (hrest.trans (List.sublist_append_right ..))
      refine ⟨js ++ ls, ?_, ?_⟩
      · rw [List.append_assoc]
        exact (List.prefix_append_right_inj js).mpr hls
      · rw [run_append]
        exact hzero

end Rounds

/-- Rounds of two inputs at no charge: `W` holds of the states that wait for the second. -/
structure Ranking (step : Step σ ι ο) (I W : σ → Prop) (C : ι → Prop) (μ : σ → Nat) (a b : ι) : Prop where
  keeps : ∀ s i, C i → I s → I (step s i).1
  le : ∀ s i, C i → I s → μ (step s i).1 ≤ μ s
  /-- A state with work to do waits after `a`. -/
  waits : ∀ s, I s → 0 < μ s → W (step s a).1 ∨ μ (step s a).1 < μ s
  /-- It waits until the measure goes down. -/
  stays : ∀ s i, C i → I s → W s → W (step s i).1 ∨ μ (step s i).1 < μ s
  /-- While it waits, `b` brings the measure down. -/
  helps : ∀ s, I s → W s → μ (step s b).1 < μ s

namespace Ranking

variable {W : σ → Prop} {a b : ι}

theorem rounds (h : Ranking step I W C μ a b) : Rounds step I C (fun _ => 0) μ [a, b] where
  keeps := h.keeps
  le s i hi hs := h.le s i hi hs
  leads m := by
    -- until the measure is down it stays where it is
    have kept {s : σ} {i : ι} (hi : C i) (hs : I s ∧ μ s = m + 1) :
        (I (step s i).1 ∧ μ (step s i).1 = m + 1) ∨ μ (step s i).1 ≤ m := by
      have := h.le s i hi hs.1
      rcases Nat.lt_or_ge m (μ (step s i).1) with hlt | hle
      · exact .inl ⟨h.keeps s i hi hs.1, by omega⟩
      · exact .inr hle
    have first : Leads step (fun i => C i ∧ 0 = 0) (fun s => I s ∧ μ s = m + 1) [a]
        (fun s => (I s ∧ μ s = m + 1 ∧ W s) ∨ μ s ≤ m) := by
      refine .single (fun s i hi hs => (kept hi.1 hs).imp_right .inr) fun s ha hs => ?_
      rcases kept ha.1 hs with ⟨hI, hm⟩ | hle
      · rcases h.waits s hs.1 (by omega) with hw | hlt
        · exact .inl ⟨hI, hm, hw⟩
        · exact .inr (by omega)
      · exact .inr hle
    have second : Leads step (fun i => C i ∧ 0 = 0) (fun s => I s ∧ μ s = m + 1 ∧ W s) [b] (fun s => μ s ≤ m) := by
      refine .single ?_ ?_
      · rintro s i hi ⟨hI, hm, hw⟩
        rcases kept hi.1 ⟨hI, hm⟩ with ⟨hI', hm'⟩ | hle
        · rcases h.stays s i hi.1 hI hw with hw' | hlt
          · exact .inl ⟨hI', hm', hw'⟩
          · exact .inr (by omega)
        · exact .inr hle
      · rintro s - ⟨hI, hm, hw⟩
        have := h.helps s hI hw
        omega
    exact first.trans (second.or (.of_imp fun _ h => h))

theorem run_eq_zero (h : Ranking step I W C μ a b) (hs : I s) (his : ∀ i ∈ is, C i) {n : Nat} (hn : μ s ≤ n)
    (hr : (List.replicate n [a, b]).flatten.Sublist is) : μ (run step s is) = 0 := by
  have hfree (is : List ι) : (is.map fun _ => 0).sum = 0 := by
    rw [List.sum_eq_zero_iff_forall_eq_nat, List.forall_mem_map]
    exact fun _ _ => rfl
  obtain ⟨js, ⟨ks, rfl⟩, hzero⟩ := h.rounds.exists_eq_zero hs his (by rw [hfree]; exact hn) hr
  have hle := h.rounds.run_le (h.rounds.inv_run hs fun i hi => his i (List.mem_append_left _ hi))
    fun i hi => his i (List.mem_append_right _ hi)
  rw [hfree, hzero] at hle
  rw [run_append]
  exact Nat.le_zero.mp hle

end Ranking

/-! ## Budgets -/

/-- **Budget rule.** Where every step from a state that is not the goal keeps
to the budget, a run spends no more than it has, or comes to the goal. -/
theorem budget_run {step : Step σ ι ο} (Φ : σ → Nat) (spends earns : ι → Nat) {I G : σ → Prop}
    (hI : ∀ s i, I s → I (step s i).1)
    (hstep : ∀ s i, I s → ¬ G s → Φ (step s i).1 + spends i ≤ Φ s + earns i) {s : σ} (hs : I s) (is : List ι) :
    (∃ js, js <+: is ∧ G (run step s js)) ∨
      Φ (run step s is) + (is.map spends).sum ≤ Φ s + (is.map earns).sum := by
  induction is generalizing s with
  | nil => exact .inr (Nat.le_refl _)
  | cons i is ih =>
    by_cases hg : G s
    · exact .inl ⟨[], List.nil_prefix, hg⟩
    · rcases ih (hI s i hs) with ⟨js, hjs, hG⟩ | hle
      · exact .inl ⟨i :: js, (List.prefix_append_right_inj [i]).mpr hjs, hG⟩
      · refine .inr ?_
        have := hstep s i hs hg
        rw [run_cons, List.map_cons, List.map_cons, List.sum_cons, List.sum_cons]
        omega

end UsbMux.Mealy
