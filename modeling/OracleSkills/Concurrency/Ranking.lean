import OracleSkills.Concurrency.Machine

/-!
# Runs that end

A measure that every step of some kind makes less bounds the runs of such steps
(`Along.length_add_le`), and each state is the beginning of one that ends where no such step can
happen (`exists_stuck`).
-/

namespace Concurrency

namespace Machine

universe u v

variable {σ : Type u} {ε : Type v} {M : Machine σ ε} {s s' : σ} {tr : List ε} {C : ε → Prop}
  {I : σ → Prop} {μ : σ → ℕ}

/-- No event of the kind can happen. -/
def Stuck (M : Machine σ ε) (C : ε → Prop) (s : σ) : Prop := ∀ e, C e → M.step s e = none

/-- **A run is no longer than the measure** where it begins. -/
theorem length_add_le (hstep : ∀ s e s', I s → C e → M.step s e = some s' → I s' ∧ μ s' < μ s)
    (hs : I s) (hC : ∀ e ∈ tr, C e) (h : M.run s tr = some s') : tr.length + μ s' ≤ μ s := by
  induction tr generalizing s with
  | nil =>
    rw [run_nil, Option.some.injEq] at h
    simp [h]
  | cons e tr ih =>
    rw [run_cons, Option.bind_eq_some_iff] at h
    obtain ⟨t, ht, h⟩ := h
    obtain ⟨he, htr⟩ := List.forall_mem_cons.mp hC
    obtain ⟨hI, hlt⟩ := hstep s e t hs he ht
    have hrest := ih hI htr h
    rw [List.length_cons]
    omega

/-- **There is a run to the end.** -/
theorem exists_stuck (hstep : ∀ s e s', I s → C e → M.step s e = some s' → I s' ∧ μ s' < μ s)
    (hs : I s) :
    ∃ tr s', (∀ e ∈ tr, C e) ∧ M.run s tr = some s' ∧ I s' ∧ M.Stuck C s' := by
  induction hn : μ s using Nat.strongRecOn generalizing s with
  | ind n ih =>
    subst hn
    by_cases hstuck : M.Stuck C s
    · exact ⟨[], s, fun _ he => absurd he List.not_mem_nil, rfl, hs, hstuck⟩
    · simp only [Stuck, not_forall] at hstuck
      obtain ⟨e, he, hsome⟩ := hstuck
      obtain ⟨t, ht⟩ := Option.ne_none_iff_exists'.mp hsome
      obtain ⟨hI, hlt⟩ := hstep s e t hs he ht
      obtain ⟨tr, s', htr, hrun, hs', hend⟩ := ih (μ t) hlt hI rfl
      exact ⟨e :: tr, s',
        List.forall_mem_cons.mpr ⟨he, htr⟩, by rw [run_cons, ht]; exact hrun, hs', hend⟩

end Machine

end Concurrency
