import Mathlib.Data.List.Basic

/-!
# First wins

A list of candidates, each of them an item with a key or a rejection, from which a catalog
takes the first item of every key. `chosen` is the catalog in the order of the
candidates. Its keys are all different (`nodup_chosen`), and an item is in it exactly if it is
the first candidate of its key (`mem_chosen_iff`).
-/

namespace FirstWins

variable {α κ ε : Type*} [DecidableEq κ] (key : α → κ)

/-- The first item of every key that is not in `seen`. -/
def chosen : List κ → List (Except ε α) → List α
  | _, [] => []
  | seen, .error _ :: cs => chosen seen cs
  | seen, .ok a :: cs => if key a ∈ seen then chosen seen cs else a :: chosen (key a :: seen) cs

variable {key} {seen : List κ} {cs : List (Except ε α)} {a : α}

/-- An item of a list is the first one, with nothing before it, or one behind the first. -/
theorem exists_cons_eq_append_cons {β : Type*} {c x : β} {t : List β} {Q : List β → Prop} :
    (∃ pre post, c :: t = pre ++ x :: post ∧ Q pre) ↔ c = x ∧ Q [] ∨
        ∃ pre post, t = pre ++ x :: post ∧ Q (c :: pre) := by
  constructor
  · rintro ⟨pre, post, heq, h⟩
    obtain ⟨rfl, heq⟩ | ⟨pre', rfl, rfl⟩ := List.cons_eq_append_iff.mp heq
    · exact Or.inl ⟨(List.cons.inj heq).1, h⟩
    · exact Or.inr ⟨pre', post, rfl, h⟩
  · rintro (⟨rfl, h⟩ | ⟨pre, post, rfl, h⟩)
    · exact ⟨[], t, rfl, h⟩
    · exact ⟨c :: pre, post, rfl, h⟩

/-- An item is chosen exactly if its key has not been seen and no candidate before it has
that key. -/
theorem mem_chosen_iff :
    a ∈ chosen key seen cs ↔
      ∃ pre post, cs = pre ++ .ok a :: post ∧ key a ∉ seen ∧ ∀ b, .ok b ∈ pre → key b ≠ key a := by
  induction cs generalizing seen with
  | nil => simp [chosen]
  | cons c cs ih =>
    rw [exists_cons_eq_append_cons]
    cases c with
    | error e => simp [chosen, ih]
    | ok b =>
      have hcons : ∀ pre : List (Except ε α), (∀ d, .ok d ∈ .ok b :: pre → key d ≠ key a) ↔
          key b ≠ key a ∧ ∀ d, .ok d ∈ pre → key d ≠ key a := fun pre => by
        simp [or_imp, forall_and]
      simp only [hcons, Except.ok.injEq]
      rw [chosen]
      split_ifs with hb
      · rw [ih]
        constructor
        · rintro ⟨pre, post, rfl, hs, hpre⟩
          exact Or.inr ⟨pre, post, rfl, hs, fun he => hs (he ▸ hb), hpre⟩
        · rintro (⟨rfl, hs, -⟩ | ⟨pre, post, rfl, hs, -, hpre⟩)
          · exact absurd hb hs
          · exact ⟨pre, post, rfl, hs, hpre⟩
      · rw [List.mem_cons, ih]
        constructor
        · rintro (rfl | ⟨pre, post, rfl, hs, hpre⟩)
          · exact Or.inl ⟨rfl, hb, by simp⟩
          · rw [List.mem_cons, not_or] at hs
            exact Or.inr ⟨pre, post, rfl, hs.2, fun he => hs.1 he.symm, hpre⟩
        · rintro (⟨rfl, -⟩ | ⟨pre, post, rfl, hs, hne, hpre⟩)
          · exact Or.inl rfl
          · refine Or.inr ⟨pre, post, rfl, ?_, hpre⟩
            rw [List.mem_cons, not_or]
            exact ⟨fun he => hne he.symm, hs⟩

theorem not_mem_seen_of_mem_chosen (h : a ∈ chosen key seen cs) : key a ∉ seen := by
  obtain ⟨-, -, -, hs, -⟩ := mem_chosen_iff.mp h
  exact hs

/-- The keys of the chosen items are all different. -/
theorem nodup_chosen :
    ∀ {cs : List (Except ε α)} {seen : List κ}, ((chosen key seen cs).map key).Nodup
  | [], _ => List.nodup_nil
  | .error _ :: cs, seen => by
    rw [chosen]
    exact nodup_chosen
  | .ok b :: cs, seen => by
    rw [chosen]
    split_ifs with hb
    · exact nodup_chosen
    · rw [List.map_cons, List.nodup_cons]
      refine ⟨fun hmem => ?_, nodup_chosen⟩
      obtain ⟨d, hd, he⟩ := List.mem_map.mp hmem
      exact not_mem_seen_of_mem_chosen hd (he ▸ List.mem_cons_self ..)

/-- Looking a key up in a list whose keys are all different gives the one item that has it. -/
theorem find?_of_nodup {l : List α} (hnodup : (l.map key).Nodup) (h : a ∈ l) :
    l.find? (fun b => decide (key b = key a)) = some a := by
  induction l with
  | nil => cases h
  | cons b l ih =>
    rw [List.map_cons, List.nodup_cons] at hnodup
    rcases List.mem_cons.mp h with rfl | h
    · exact List.find?_cons_of_pos (by simp)
    · have hne : key b ≠ key a := fun he => hnodup.1 (he ▸ List.mem_map_of_mem h)
      rw [List.find?_cons_of_neg (by simpa using hne)]
      exact ih hnodup.2 h

end FirstWins
