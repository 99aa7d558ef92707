import OracleSkills.Python.Text

/-!
# Where a text stands, and how often it is counted

`t.count(old)` goes through `t` from the left and passes over what it has counted, so that it does
not see an occurrence that begins inside another. `count_eq_one_iff` says what a count of one means:
there is a first place, and every other place lies inside the occurrence there. So either there is
one place only, or `old` overlaps itself (`Overlapped`).
-/

namespace Python

variable {old t : Text} {c : Char} {i : ℕ}

/-- `old` stands at position `i` of `t`. -/
def Starts (old t : Text) (i : ℕ) : Prop := old <+: t.drop i

/-- `old` stands at one position of `t`. -/
def StartsOnce (old t : Text) : Prop := ∃ i, Starts old t i ∧ ∀ j, Starts old t j → j = i

/-- `old` stands at several positions of `t`, and all of them are inside the occurrence at the
first. -/
def Overlapped (old t : Text) : Prop :=
  ∃ i j, i < j ∧ Starts old t i ∧ Starts old t j ∧ ∀ k, Starts old t k → i ≤ k ∧ k < i + old.length

instance (old t : Text) (i : ℕ) :
    Decidable (Starts old t i) := inferInstanceAs (Decidable (old <+: t.drop i))

@[simp] theorem starts_zero : Starts old t 0 ↔ old <+: t := Iff.rfl

@[simp] theorem starts_cons_succ : Starts old (c :: t) (i + 1) ↔ Starts old t i := Iff.rfl

theorem starts_drop (n : ℕ) :
    Starts old (t.drop n) i ↔ Starts old t (n + i) := by rw [Starts, Starts, List.drop_drop]

theorem not_starts_nil (h : old ≠ []) : ¬ Starts old [] i := by simpa [Starts] using h

/-- What is being passed over does not count. -/
theorem countFrom_eq (old : Text) (n : ℕ) (t : Text) :
    countFrom old n t = count old (t.drop n) := by
  induction n generalizing t with
  | zero => rfl
  | succ n ih =>
    cases t with
    | nil => rfl
    | cons c t => exact ih t

theorem count_cons_of_starts (h : old <+: c :: t) :
    count old (c :: t) = count old (t.drop (old.length - 1)) + 1 := by
  rw [count, countFrom, if_pos (List.isPrefixOf_iff_prefix.mpr h), countFrom_eq]

theorem count_cons_of_not_starts (h : ¬ old <+: c :: t) : count old (c :: t) = count old t := by
  rw [count, countFrom, if_neg (by rw [isPrefixOf_eq_false h]; exact Bool.false_ne_true), count]

theorem count_eq_zero_iff (hne : old ≠ []) : count old t = 0 ↔ ∀ i, ¬ Starts old t i := by
  induction t with
  | nil => exact iff_of_true rfl fun i => not_starts_nil hne
  | cons c t ih =>
    by_cases h : old <+: c :: t
    · rw [count_cons_of_starts h]
      exact iff_of_false (by omega) fun hall => hall 0 h
    · rw [count_cons_of_not_starts h, ih]
      refine ⟨fun hall i => ?_, fun hall i => hall (i + 1)⟩
      cases i with
      | zero => exact h
      | succ i => exact hall i

/-- **One is counted** where all occurrences begin inside the first. -/
theorem count_eq_one_iff (hne : old ≠ []) :
    count old t = 1 ↔ ∃ i, Starts old t i ∧ ∀ k, Starts old t k → i ≤ k ∧ k < i + old.length := by
  induction t with
  | nil =>
    refine iff_of_false (by simp [count, countFrom]) ?_
    rintro ⟨i, hi, -⟩
    exact not_starts_nil hne hi
  | cons c t ih =>
    by_cases h : old <+: c :: t
    · have hlen := List.length_pos_iff.mpr hne
      have hdrop : t.drop (old.length - 1) = (c :: t).drop old.length := by
        rw [← List.drop_succ_cons (a := c), Nat.sub_add_cancel hlen]
      rw [count_cons_of_starts h, Nat.add_eq_right, hdrop, count_eq_zero_iff hne]
      simp only [starts_drop]
      constructor
      · refine fun hnone => ⟨0, h, fun k hk => ⟨Nat.zero_le k, ?_⟩⟩
        by_contra hlt
        refine hnone (k - old.length) ?_
        rwa [show old.length + (k - old.length) = k by omega]
      · rintro ⟨i, -, hall⟩ k hk
        have hfirst := hall 0 h
        have hlast := hall _ hk
        omega
    · rw [count_cons_of_not_starts h, ih]
      constructor
      · rintro ⟨i, hi, hall⟩
        refine ⟨i + 1, hi, fun k hk => ?_⟩
        cases k with
        | zero => exact absurd hk h
        | succ k =>
          have := hall k hk
          omega
      · rintro ⟨i, hi, hall⟩
        cases i with
        | zero => exact absurd hi h
        | succ i =>
          refine ⟨i, hi, fun k hk => ?_⟩
          have := hall (k + 1) hk
          omega

/-- So one place is counted, or several that overlap. -/
theorem count_eq_one_iff_once (hne : old ≠ []) :
    count old t = 1 ↔ StartsOnce old t ∨ Overlapped old t := by
  have hlen := List.length_pos_iff.mpr hne
  rw [count_eq_one_iff hne]
  constructor
  · rintro ⟨i, hi, hall⟩
    by_cases honce : ∀ j, Starts old t j → j = i
    · exact Or.inl ⟨i, hi, honce⟩
    · simp only [not_forall] at honce
      obtain ⟨j, hj, hji⟩ := honce
      have hle := (hall j hj).1
      exact Or.inr ⟨i, j, by omega, hi, hj, hall⟩
  · rintro (⟨i, hi, honce⟩ | ⟨i, -, -, hi, -, hall⟩)
    · refine ⟨i, hi, fun k hk => ?_⟩
      rw [honce k hk]
      omega
    · exact ⟨i, hi, hall⟩

theorem Overlapped.not_startsOnce (h : Overlapped old t) : ¬ StartsOnce old t := by
  obtain ⟨i, j, hlt, hi, hj, -⟩ := h
  rintro ⟨k, -, honly⟩
  have hik := honly i hi
  have hjk := honly j hj
  omega

end Python
