import Mathlib.Logic.Function.Basic

/-!
# Interleavings of processes over a shared state

A protocol says what an event of one process does to the shared state and to that
process's own state, if the event can happen there. A run is a list of events, each
with the process it belongs to; since any list is allowed, a statement about every
run is a statement about every interleaving.

Two rules are all that the uses need. An invariant that every step keeps holds after
every run (`run_invariant`); and an invariant that the steps keep under a condition
on the state before them holds after every run along which the condition holds
(`Along.invariant`). `along_iff` says what it is for a condition to hold along a run:
it holds at every event, in the state that the events before it lead to.
-/

namespace Concurrency

variable {ι ε σ π : Type*}

/-- Processes `ι` with own states `π`, events `ε`, and a shared state `σ`. -/
structure Protocol (ι ε σ π : Type*) where
  /-- What event `e` of process `i` does, `none` where it cannot happen. -/
  act : ι → ε → σ → π → Option (σ × π)

/-- The state of all: the shared state, and every process's own. -/
structure Sys (ι σ π : Type*) where
  shared : σ
  loc : ι → π

namespace Protocol

variable [DecidableEq ι] (P : Protocol ι ε σ π)

/-- Event `e` of process `i` in the state `s`. -/
def step (s : Sys ι σ π) (i : ι) (e : ε) : Option (Sys ι σ π) :=
  (P.act i e s.shared (s.loc i)).map fun x => ⟨x.1, Function.update s.loc i x.2⟩

/-- The events `tr`, in order. -/
def run (s : Sys ι σ π) : List (ι × ε) → Option (Sys ι σ π)
  | [] => some s
  | (i, e) :: tr => (P.step s i e).bind fun s' => run s' tr

/-- Nothing more can happen in `s`. -/
def Ended (s : Sys ι σ π) : Prop := ∀ i e, P.step s i e = none

/-- The condition `C` holds of every event along the run, in the state before it. -/
def Along (C : Sys ι σ π → ι → ε → Prop) (s : Sys ι σ π) : List (ι × ε) → Prop
  | [] => True
  | (i, e) :: tr => C s i e ∧ ∀ s', P.step s i e = some s' → Along C s' tr

variable {P} {s s' : Sys ι σ π} {i : ι} {e : ε} {tr : List (ι × ε)}

/-! ### One step -/

/-- What a step did: the event's own effect on the shared state and on its process. -/
theorem act_of_step (h : P.step s i e = some s') :
    P.act i e s.shared (s.loc i) = some (s'.shared, s'.loc i) := by
  rw [step, Option.map_eq_some_iff] at h
  obtain ⟨⟨sh, p⟩, h, rfl⟩ := h
  simp only [h, Function.update_self]

/-- A step leaves the other processes as they are. -/
theorem step_loc_of_ne (h : P.step s i e = some s') {j : ι} (hj : j ≠ i) : s'.loc j = s.loc j := by
  rw [step, Option.map_eq_some_iff] at h
  obtain ⟨⟨sh, p⟩, h, rfl⟩ := h
  exact Function.update_of_ne hj _ _

theorem step_eq_none : P.step s i e = none ↔ P.act i e s.shared (s.loc i) = none := by
  rw [step, Option.map_eq_none_iff]

/-! ### Runs -/

@[simp] theorem run_nil : P.run s [] = some s := rfl

theorem run_cons : P.run s ((i, e) :: tr) = (P.step s i e).bind fun s' => P.run s' tr := rfl

theorem run_append (s : Sys ι σ π) (tr tr' : List (ι × ε)) :
    P.run s (tr ++ tr') = (P.run s tr).bind fun s' => P.run s' tr' := by
  induction tr generalizing s with
  | nil => rfl
  | cons x tr ih =>
    obtain ⟨i, e⟩ := x
    rw [List.cons_append, run_cons, run_cons, Option.bind_assoc]
    exact congrArg _ (funext ih)

/-- A run through one of its events: the states before and after it. -/
theorem run_split {pre post : List (ι × ε)} (h : P.run s (pre ++ (i, e) :: post) = some s') :
    ∃ a b, P.run s pre = some a ∧ P.step a i e = some b ∧ P.run b post = some s' := by
  rw [run_append, Option.bind_eq_some_iff] at h
  obtain ⟨a, ha, h⟩ := h
  rw [run_cons, Option.bind_eq_some_iff] at h
  obtain ⟨b, hb, h⟩ := h
  exact ⟨a, b, ha, hb, h⟩

/-- **The invariant rule**: what every step keeps holds after every run. -/
theorem run_invariant {I : Sys ι σ π → Prop}
    (hstep : ∀ s i e s', I s → P.step s i e = some s' → I s') (hs : I s)
    (h : P.run s tr = some s') : I s' := by
  induction tr generalizing s with
  | nil =>
    rw [run_nil, Option.some.injEq] at h
    exact h ▸ hs
  | cons x tr ih =>
    obtain ⟨i, e⟩ := x
    rw [run_cons, Option.bind_eq_some_iff] at h
    obtain ⟨t, ht, h⟩ := h
    exact ih (hstep s i e t hs ht) h

/-! ### Conditions along a run -/

variable {C : Sys ι σ π → ι → ε → Prop}

/-- **The invariant rule under a condition**: what the steps that meet `C` keep holds
after every run that meets it. -/
theorem Along.invariant {I : Sys ι σ π → Prop}
    (hstep : ∀ s i e s', I s → C s i e → P.step s i e = some s' → I s') (hs : I s)
    (hC : P.Along C s tr)
    (h : P.run s tr = some s') : I s' := by
  induction tr generalizing s with
  | nil =>
    rw [run_nil, Option.some.injEq] at h
    exact h ▸ hs
  | cons x tr ih =>
    obtain ⟨i, e⟩ := x
    rw [run_cons, Option.bind_eq_some_iff] at h
    obtain ⟨t, ht, h⟩ := h
    exact ih (hstep s i e t hs hC.1 ht) (hC.2 t ht) h

/-- A condition holds along a run if and only if it holds at each of its events. -/
theorem along_iff :
    P.Along C s tr ↔ ∀ pre i e post a, tr = pre ++ (i, e) :: post → P.run s pre = some a →
        C a i e := by
  induction tr generalizing s with
  | nil => simp [Along]
  | cons x tr ih =>
    obtain ⟨i, e⟩ := x
    constructor
    · rintro ⟨hC, hrest⟩ pre j f post a heq ha
      cases pre with
      | nil =>
        rw [List.nil_append, List.cons.injEq, Prod.mk.injEq] at heq
        obtain ⟨⟨rfl, rfl⟩, -⟩ := heq
        rw [run_nil, Option.some.injEq] at ha
        exact ha ▸ hC
      | cons y pre =>
        rw [List.cons_append, List.cons.injEq] at heq
        obtain ⟨rfl, heq⟩ := heq
        rw [run_cons, Option.bind_eq_some_iff] at ha
        obtain ⟨b, hb, ha⟩ := ha
        exact ih.mp (hrest b hb) pre j f post a heq ha
    · intro h
      refine ⟨h [] i e tr s rfl rfl, fun b hb => ih.mpr fun pre j f post a heq ha => ?_⟩
      exact h ((i, e) :: pre) j f post a (by rw [heq, List.cons_append])
        (by rw [run_cons, hb, Option.bind_some, ha])

end Protocol

end Concurrency
