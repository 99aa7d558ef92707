import Mathlib.Data.List.Basic

/-!
# Machines and their histories

A machine is a state and what each event does to it, if the event can happen there. Its runs
are lists of events. An invariant that every step keeps holds after every run
(`run_invariant`); if a condition says of each step just that it keeps a property, then the
steps of a run all meet it exactly if every state the run goes through has the property
(`along_iff`).

A state may carry its history, the marks that the steps have left, the latest first. `since p`
is what has been marked after the last mark that is a `p`, and `Answered p q` says that a `q`
has been: no `p` is left without a `q` after it.
-/

namespace Concurrency

universe u v

/-- States, and what an event does: `none` where it cannot happen. -/
structure Machine (σ : Type u) (ε : Type v) where
  step : σ → ε → Option σ

namespace Machine

variable {σ : Type u} {ε : Type v} (M : Machine σ ε)

/-- The events `tr`, in order. -/
def run (s : σ) : List ε → Option σ
  | [] => some s
  | e :: tr => (M.step s e).bind fun s' => run s' tr

/-- The condition `C` holds of every event along the run, in the state before it. -/
def Along (C : σ → ε → Prop) (s : σ) : List ε → Prop
  | [] => True
  | e :: tr => C s e ∧ ∀ s', M.step s e = some s' → Along C s' tr

/-- The run goes through a state in which `I` does not hold, or it holds in all of them. -/
def Always (I : σ → Prop) (s : σ) (tr : List ε) : Prop :=
  ∀ pre post s', tr = pre ++ post → M.run s pre = some s' → I s'

variable {M} {s s' : σ} {e : ε} {tr : List ε} {C : σ → ε → Prop} {I : σ → Prop}

@[simp] theorem run_nil : M.run s [] = some s := rfl

theorem run_cons : M.run s (e :: tr) = (M.step s e).bind fun s' => M.run s' tr := rfl

theorem run_append (s : σ) (tr tr' : List ε) :
    M.run s (tr ++ tr') = (M.run s tr).bind fun s' => M.run s' tr' := by
  induction tr generalizing s with
  | nil => rfl
  | cons e tr ih =>
    rw [List.cons_append, run_cons, run_cons, Option.bind_assoc]
    exact congrArg _ (funext ih)

/-- **The invariant rule**: what every step keeps holds after every run. -/
theorem run_invariant (hstep : ∀ s e s', I s → M.step s e = some s' → I s') (hs : I s)
    (h : M.run s tr = some s') :
    I s' := by
  induction tr generalizing s with
  | nil =>
    rw [run_nil, Option.some.injEq] at h
    exact h ▸ hs
  | cons e tr ih =>
    rw [run_cons, Option.bind_eq_some_iff] at h
    obtain ⟨t, ht, h⟩ := h
    exact ih (hstep s e t hs ht) h

/-- What the steps that meet `C` keep holds after a run that meets it. -/
theorem Along.invariant (hstep : ∀ s e s', I s → C s e → M.step s e = some s' → I s') (hs : I s)
    (hC : M.Along C s tr) (h : M.run s tr = some s') : I s' := by
  induction tr generalizing s with
  | nil =>
    rw [run_nil, Option.some.injEq] at h
    exact h ▸ hs
  | cons e tr ih =>
    rw [run_cons, Option.bind_eq_some_iff] at h
    obtain ⟨t, ht, h⟩ := h
    exact ih (hstep s e t hs hC.1 ht) (hC.2 t ht) h

/-- The rest of a run meets a condition that the run meets. -/
theorem Along.rest {pre post : List ε} (hC : M.Along C s (pre ++ post))
    (h : M.run s pre = some s') : M.Along C s' post := by
  induction pre generalizing s with
  | nil =>
    rw [run_nil, Option.some.injEq] at h
    exact h ▸ hC
  | cons e pre ih =>
    rw [run_cons, Option.bind_eq_some_iff] at h
    obtain ⟨t, ht, h⟩ := h
    exact ih (hC.2 t ht) h

/-- **The exact condition**: if `C` says of each event just that it keeps `I`, then every event of a
run meets it exactly if `I` holds in every state that the run goes through. An invariant `J` may
help, which the steps keep that keep `I`. -/
theorem along_iff {J : σ → Prop}
    (hstep : ∀ s e, J s → I s → (C s e ↔ ∀ s', M.step s e = some s' → I s'))
    (hkeep : ∀ s e s', J s → I s → M.step s e = some s' → I s' → J s') (hJ : J s) (hs : I s) :
    M.Along C s tr ↔ M.Always I s tr := by
  induction tr generalizing s with
  | nil =>
    refine ⟨fun _ pre post s' heq h => ?_, fun _ => trivial⟩
    obtain ⟨rfl, -⟩ := List.append_eq_nil_iff.mp heq.symm
    cases h
    exact hs
  | cons e tr ih =>
    constructor
    · rintro ⟨he, hrest⟩ pre post s' heq h
      cases pre with
      | nil =>
        cases h
        exact hs
      | cons f pre =>
        rw [List.cons_append, List.cons.injEq] at heq
        obtain ⟨rfl, heq⟩ := heq
        rw [run_cons, Option.bind_eq_some_iff] at h
        obtain ⟨t, ht, h⟩ := h
        have hI : I t := (hstep s e hJ hs).mp he t ht
        exact (ih (hkeep s e t hJ hs ht hI) hI).mp (hrest t ht) pre post s' heq h
    · intro h
      have hnext : ∀ t, M.step s e = some t → I t := fun t ht =>
        h [e] tr t rfl (by rw [run_cons, ht, Option.bind_some, run_nil])
      refine ⟨(hstep s e hJ hs).mpr hnext,
        fun t ht => (ih (hkeep s e t hJ hs ht (hnext t ht)) (hnext t ht)).mpr ?_⟩
      exact fun pre post s' heq hrun =>
        h (e :: pre) post s' (by rw [heq, List.cons_append])
          (by rw [run_cons, ht, Option.bind_some, hrun])

/-- Conditions that say the same where an invariant holds. -/
theorem along_congr {C' : σ → ε → Prop} (hiff : ∀ s e, I s → (C s e ↔ C' s e))
    (hkeep : ∀ s e s', I s → M.step s e = some s' → I s') (hs : I s) :
    M.Along C s tr ↔ M.Along C' s tr := by
  induction tr generalizing s with
  | nil => exact Iff.rfl
  | cons e tr ih => exact and_congr (hiff s e hs) (forall₂_congr fun t ht => ih (hkeep s e t hs ht))

/-- What always holds holds at the end. -/
theorem Always.last (h : M.Always I s tr) (hrun : M.run s tr = some s') : I s' :=
  h tr [] s' (List.append_nil tr).symm hrun

end Machine

/-! ### Histories -/

section

variable {α : Type u} {p q : α → Prop} [DecidablePred p] {m a : α} {ms h : List α}

/-- What has been marked since the last `p`. -/
def since (p : α → Prop) [DecidablePred p] (h : List α) : List α := h.takeWhile fun m => ¬ p m

/-- The last `p`, if there is one, has been followed by a `q`. -/
def Answered (p q : α → Prop) [DecidablePred p] (h : List α) : Prop :=
  (∃ m ∈ h, p m) → ∃ m ∈ since p h, q m

@[simp] theorem since_cons_self (hm : p m) : since p (m :: h) = [] := by
  rw [since, List.takeWhile_cons_of_neg (by simpa using hm)]

@[simp] theorem since_cons_of_not (hm : ¬ p m) : since p (m :: h) = m :: since p h := by
  rw [since, List.takeWhile_cons_of_pos (by simpa using hm), since]

theorem answered_nil : Answered p q [] := fun ⟨_, hm, _⟩ => absurd hm List.not_mem_nil

/-- A mark that is no `p` leaves an answer standing. -/
theorem Answered.cons (hans : Answered p q h) (hm : ¬ p m) : Answered p q (m :: h) := by
  rintro ⟨a, ha, hp⟩
  rcases List.mem_cons.mp ha with rfl | ha
  · exact absurd hp hm
  · obtain ⟨b, hb, hq⟩ := hans ⟨a, ha, hp⟩
    exact ⟨b, by rw [since_cons_of_not hm]; exact List.mem_cons_of_mem _ hb, hq⟩

/-- A `q` that is no `p` answers. -/
theorem answered_cons_self (hm : ¬ p m) (hq : q m) : Answered p q (m :: h) := fun _ =>
  ⟨m, by rw [since_cons_of_not hm]; exact List.mem_cons_self .., hq⟩

end

end Concurrency
