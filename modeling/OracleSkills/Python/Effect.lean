import Mathlib.Logic.Basic
import Mathlib.Data.List.Basic

/-!
# Programs that change a state and may raise

A program comes from one state to the next, step by step, and ends with a result or with an
exception. A crash, or another process, sees the states that it comes through.

A specification (`Spec`) has four parts: what holds before, what holds with a result, what holds
with an exception, and what holds of every state on the way. There is one rule for each way to put
programs together; `Spec.cleanup` is the one for `try: .. except Exception: ..; raise`.
-/

namespace Python

/-- A program that has been run. -/
structure Ran (σ ε α : Type*) where
  result : Except ε α
  /-- The state at its end. -/
  last : σ
  /-- The states that its steps have led to. -/
  passed : List σ

/-- A program. -/
def Effect (σ ε α : Type*) := σ → Ran σ ε α

namespace Effect

variable {σ ε α β : Type*}

/-- `return a`. -/
def ret (a : α) : Effect σ ε α := fun s => ⟨.ok a, s, []⟩

/-- A computation that does not change the state. -/
def look (f : σ → Except ε α) : Effect σ ε α := fun s => ⟨f s, s, []⟩

/-- One step. -/
def step (f : σ → Except ε α × σ) : Effect σ ε α := fun s => ⟨(f s).1, (f s).2, [(f s).2]⟩

/-- One program after the other. -/
def andThen (x : Effect σ ε α) (f : α → Effect σ ε β) : Effect σ ε β := fun s =>
  let r := x s
  match r.result with
  | .error e => ⟨.error e, r.last, r.passed⟩
  | .ok a => ⟨(f a r.last).result, (f a r.last).last, r.passed ++ (f a r.last).passed⟩

/-- A program for each of `xs`, in order. -/
def each (f : α → Effect σ ε Unit) : List α → Effect σ ε Unit
  | [] => ret ()
  | x :: xs => andThen (f x) fun _ => each f xs

/-- `try: x except Exception: try: y except: pass; raise`. -/
def cleanup (x : Effect σ ε α) (y : Effect σ ε Unit) : Effect σ ε α := fun s =>
  let r := x s
  match r.result with
  | .error e => ⟨.error e, (y r.last).last, r.passed ++ (y r.last).passed⟩
  | .ok a => ⟨.ok a, r.last, r.passed⟩

variable {x : Effect σ ε α} {f : α → Effect σ ε β} {y : Effect σ ε Unit} {s : σ} {e : ε} {a : α}

theorem andThen_of_error (h : (x s).result = .error e) :
    andThen x f s = ⟨.error e, (x s).last, (x s).passed⟩ := by
  simp only [andThen, h]

theorem andThen_of_ok (h : (x s).result = .ok a) :
    andThen x f s = ⟨(f a (x s).last).result, (f a (x s).last).last,
        (x s).passed ++ (f a (x s).last).passed⟩ := by
  simp only [andThen, h]

/-- A program that gives a result has given one in each of its parts. -/
theorem exists_of_andThen {b : β} (h : (andThen x f s).result = .ok b) :
    ∃ a, (x s).result = .ok a ∧ (f a (x s).last).result = .ok b := by
  cases hr : (x s).result with
  | error e =>
    rw [andThen_of_error hr] at h
    cases h
  | ok a =>
    rw [andThen_of_ok hr] at h
    exact ⟨a, rfl, h⟩

theorem cleanup_of_error (h : (x s).result = .error e) :
    cleanup x y s = ⟨.error e, (y (x s).last).last, (x s).passed ++ (y (x s).last).passed⟩ := by
  simp only [cleanup, h]

theorem cleanup_of_ok (h : (x s).result = .ok a) :
    cleanup x y s = ⟨.ok a, (x s).last, (x s).passed⟩ := by
  simp only [cleanup, h]

end Effect

/-- Where `P` holds before, `Q` holds of the result and the last state, `E` of the exception and the
last state, and `C` of every state that a step has led to. -/
structure Spec {σ ε α : Type*} (P : σ → Prop) (x : Effect σ ε α) (Q : α → σ → Prop)
    (E : ε → σ → Prop) (C : σ → Prop) : Prop where
  returns : ∀ s, P s → ∀ a, (x s).result = .ok a → Q a (x s).last
  raises : ∀ s, P s → ∀ e, (x s).result = .error e → E e (x s).last
  passes : ∀ s, P s → ∀ s' ∈ (x s).passed, C s'

namespace Spec

open Effect

variable {σ ε α β : Type*} {P P' : σ → Prop} {Q Q' : α → σ → Prop} {R : β → σ → Prop}
  {E E' : ε → σ → Prop} {C C' : σ → Prop}
  {x : Effect σ ε α} {f : α → Effect σ ε β} {y : Effect σ ε Unit}

theorem ret {a : α} (h : ∀ s, P s → Q a s) : Spec P (Effect.ret a) Q E C where
  returns s hs b hb := by
    obtain rfl : a = b := Except.ok.inj hb
    exact h s hs
  raises _ _ _ h := nomatch h
  passes _ _ _ h := nomatch h

/-- What holds with a result, or with an exception. -/
def Ends (Q : α → σ → Prop) (E : ε → σ → Prop) : Except ε α × σ → Prop
  | (.ok a, s) => Q a s
  | (.error e, s) => E e s

theorem Ends.of_ok {r : Except ε α × σ} {a : α} (h : Ends Q E r) (hr : r.1 = .ok a) : Q a r.2 := by
  obtain ⟨_, s⟩ := r
  cases hr
  exact h

theorem Ends.of_error {r : Except ε α × σ} {e : ε} (h : Ends Q E r) (hr : r.1 = .error e) :
    E e r.2 := by
  obtain ⟨_, s⟩ := r
  cases hr
  exact h

theorem look {g : σ → Except ε α} (h : ∀ s, P s → Ends Q E (g s, s)) : Spec P (look g) Q E C where
  returns s hs _ ha := (h s hs).of_ok ha
  raises s hs _ he := (h s hs).of_error he
  passes _ _ _ h := nomatch h

theorem step {g : σ → Except ε α × σ} (h : ∀ s, P s → Ends Q E (g s) ∧ C (g s).2) :
    Spec P (step g) Q E C where
  returns s hs _ ha := (h s hs).1.of_ok ha
  raises s hs _ he := (h s hs).1.of_error he
  passes s hs _ hs' := List.mem_singleton.mp hs' ▸ (h s hs).2

/-- What holds with the result of the first holds before the second. -/
theorem andThen (hx : Spec P x Q E C) (hf : ∀ a, Spec (Q a) (f a) R E C) :
    Spec P (andThen x f) R E C := by
  refine ⟨fun s hs b hb => ?_, fun s hs e he => ?_, fun s hs s' hs' => ?_⟩
  · cases hr : (x s).result with
    | error e =>
      rw [andThen_of_error hr] at hb
      cases hb
    | ok a =>
      rw [andThen_of_ok hr] at hb ⊢
      exact (hf a).returns _ (hx.returns s hs a hr) b hb
  · cases hr : (x s).result with
    | error e' =>
      rw [andThen_of_error hr] at he ⊢
      obtain rfl : e' = e := Except.error.inj he
      exact hx.raises s hs e' hr
    | ok a =>
      rw [andThen_of_ok hr] at he ⊢
      exact (hf a).raises _ (hx.returns s hs a hr) e he
  · cases hr : (x s).result with
    | error e =>
      rw [andThen_of_error hr] at hs'
      exact hx.passes s hs s' hs'
    | ok a =>
      rw [andThen_of_ok hr] at hs'
      rcases List.mem_append.mp hs' with h | h
      · exact hx.passes s hs s' h
      · exact (hf a).passes _ (hx.returns s hs a hr) s' h

/-- An invariant of the program for each. -/
theorem each {g : β → Effect σ ε Unit} {I : σ → Prop} {xs : List β}
    (h : ∀ b ∈ xs, Spec I (g b) (fun _ => I) E C) :
    Spec I (each g xs) (fun _ => I) E C := by
  induction xs with
  | nil => exact ret fun _ hs => hs
  | cons b xs ih =>
    exact andThen (h b (List.mem_cons_self ..)) fun _ => ih fun b' hb' =>
      h b' (List.mem_cons_of_mem _ hb')

/-- What holds with an exception holds before the clean-up, which leads from there to what holds
with it in the end. -/
theorem cleanup (hx : Spec P x Q E' C) (hy : ∀ e, Spec (E' e) y (fun _ => E e) (fun _ => E e) C) :
    Spec P (cleanup x y) Q E C := by
  have hlast : ∀ e s, E' e s → E e (y s).last := by
    intro e s hs
    cases hr : (y s).result with
    | ok u => exact (hy e).returns s hs u hr
    | error e' => exact (hy e).raises s hs e' hr
  refine ⟨fun s hs a ha => ?_, fun s hs e he => ?_, fun s hs s' hs' => ?_⟩
  · cases hr : (x s).result with
    | error e =>
      rw [cleanup_of_error hr] at ha
      cases ha
    | ok b =>
      rw [cleanup_of_ok hr] at ha ⊢
      obtain rfl : b = a := Except.ok.inj ha
      exact hx.returns s hs b hr
  · cases hr : (x s).result with
    | error e' =>
      rw [cleanup_of_error hr] at he ⊢
      obtain rfl : e' = e := Except.error.inj he
      exact hlast _ _ (hx.raises s hs e' hr)
    | ok b =>
      rw [cleanup_of_ok hr] at he
      cases he
  · cases hr : (x s).result with
    | error e =>
      rw [cleanup_of_error hr] at hs'
      rcases List.mem_append.mp hs' with h | h
      · exact hx.passes s hs s' h
      · exact (hy e).passes _ (hx.raises s hs e hr) s' h
    | ok b =>
      rw [cleanup_of_ok hr] at hs'
      exact hx.passes s hs s' hs'

theorem weaken (h : Spec P x Q E C) (hP : ∀ s, P' s → P s) (hQ : ∀ a s, Q a s → Q' a s)
    (hE : ∀ e s, E e s → E' e s) (hC : ∀ s, C s → C' s) : Spec P' x Q' E' C' where
  returns s hs a ha := hQ _ _ (h.returns s (hP s hs) a ha)
  raises s hs e he := hE _ _ (h.raises s (hP s hs) e he)
  passes s hs s' hs' := hC _ (h.passes s (hP s hs) s' hs')

/-- A fact that is not about the state. -/
theorem assuming {φ : Prop} (h : φ → Spec P x Q E C) : Spec (fun s => φ ∧ P s) x Q E C where
  returns s hs := (h hs.1).returns s hs.2
  raises s hs := (h hs.1).raises s hs.2
  passes s hs := (h hs.1).passes s hs.2

end Spec

end Python
