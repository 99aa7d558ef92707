import Mathlib.Data.List.Basic

/-!
# Services and their contracts

A service answers each request, and goes on in another state. What it is for is said by a contract:
a state of its own, and which answers may be given in it, with the state after them. If a relation
between the two states is kept answer by answer, then whatever requests come, the answers are those
of a run of the contract (`Along.simulates`). The requests may have to meet a condition, in the
state in which they come.
-/

namespace Concurrency

universe u v w x

/-- What is answered to a request, and the state after it. -/
structure Service (σ : Type u) (ε : Type v) (ρ : Type w) where
  serve : σ → ε → ρ × σ

/-- The answers that are allowed, with the state after each of them. -/
structure Contract (τ : Type x) (ε : Type v) (ρ : Type w) where
  allows : τ → ε → ρ → τ → Prop

variable {σ : Type u} {τ : Type x} {ε : Type v} {ρ : Type w}

/-- Requests that are answered one after the other as the contract allows it. -/
inductive Contract.Run (A : Contract τ ε ρ) : τ → List ε → List ρ → τ → Prop where
  | nil (t : τ) : Run A t [] [] t
  | cons {t t' t'' : τ} {e : ε} {a : ρ} {es : List ε} {as : List ρ} :
      A.allows t e a t' → Run A t' es as t'' → Run A t (e :: es) (a :: as) t''

namespace Service

variable (S : Service σ ε ρ)

/-- The answers to requests that come one after the other. -/
def answers (s : σ) : List ε → List ρ
  | [] => []
  | e :: es => (S.serve s e).1 :: answers (S.serve s e).2 es

/-- The state after them. -/
def after (s : σ) : List ε → σ
  | [] => s
  | e :: es => after (S.serve s e).2 es

/-- The condition `C` holds of every request, in the state in which it comes. -/
def Along (C : σ → ε → Prop) (s : σ) : List ε → Prop
  | [] => True
  | e :: es => C s e ∧ Along C (S.serve s e).2 es

variable {S} {C D : σ → ε → Prop} {s : σ} {t : τ} {es : List ε}

/-- What holds of every state that the service comes to holds after each answer. -/
theorem along_of_after (Q : σ → Prop) (h : ∀ n, Q (S.after s (es.take n))) :
    S.Along (fun s e => Q (S.serve s e).2) s es := by
  induction es generalizing s with
  | nil => trivial
  | cons e es ih =>
    refine ⟨h 1, ih fun n => ?_⟩
    have hn := h (n + 1)
    rw [List.take_succ_cons] at hn
    exact hn

/-- **Simulation**: if each answer is allowed, and keeps the relation between the states, then the
answers are those of a run of the contract. -/
theorem Along.simulates {A : Contract τ ε ρ} {R : σ → τ → Prop}
    (hstep : ∀ s t e, R s t → C s e → D s e → ∃ t', A.allows t e (S.serve s e).1 t' ∧
      R (S.serve s e).2 t')
    (hR : R s t) (hC : S.Along C s es) (hD : S.Along D s es) :
    ∃ t', A.Run t es (S.answers s es) t' ∧ R (S.after s es) t' := by
  induction es generalizing s t with
  | nil => exact ⟨t, .nil t, hR⟩
  | cons e es ih =>
    obtain ⟨t', hallows, hR'⟩ := hstep s t e hR hC.1 hD.1
    obtain ⟨t'', hrun, hend⟩ := ih hR' hC.2 hD.2
    exact ⟨t'', .cons hallows hrun, hend⟩

end Service

end Concurrency
