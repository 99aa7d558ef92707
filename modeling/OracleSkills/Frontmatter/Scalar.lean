import OracleSkills.Frontmatter.Flat

/-!
# Quoted scalars

`auto_skill.py::_yaml_scalar` and `server.py::_yaml_scalar` write a free-text value
as "a single-line, always-single-quoted YAML scalar": line feeds and carriage
returns become spaces, the value is stripped, and every single quote is doubled.
`unquote_yamlScalar` says that the readers' `_unquote` takes the scalar back to the
flattened value.
-/

namespace OracleSkills.Frontmatter

open Python

/-- The value as `_yaml_scalar` writes it, before quoting:
`str(v).replace("\n", " ").replace("\r", " ").strip()`. -/
def flatten (v : Text) : Text := strip (replaceChar '\r' ' ' (replaceChar '\n' ' ' v))

/-- `s.replace("'", "''")`. -/
def doubleQuotes (s : Text) : Text := replaceAll ['\''] ['\'', '\''] s

/-- `_yaml_scalar`. -/
def yamlScalar (v : Text) : Text := '\'' :: (doubleQuotes (flatten v) ++ ['\''])

/-- A value that is stripped and on one line is not changed by flattening. -/
theorem flatten_eq_self {v : Text} (hs : Stripped v) (ho : OneLine v) : flatten v = v := by
  have h1 : ∀ a : Char, isLineEnd a = true → replaceChar a ' ' v = v := by
    intro a ha
    have : ∀ c ∈ v, (if c = a then ' ' else c) = c := by
      intro c hc
      rw [if_neg]
      rintro rfl
      rw [ho c hc] at ha
      cases ha
    rw [replaceChar, List.map_congr_left this, List.map_id']
  rw [flatten, h1 '\n' (by decide), h1 '\r' (by decide)]
  exact hs

/-- Flattening removes line feeds and carriage returns, and brings in nothing but
blanks: another line end stays where it was. -/
theorem mem_flatten {v : Text} {c : Char} (h : c ∈ flatten v) :
    c = ' ' ∨ c ∈ v ∧ c ≠ '\n' ∧ c ≠ '\r' := by
  have h' := (infix_stripBy isSpace _).subset h
  simp only [replaceChar, List.map_map, List.mem_map, Function.comp] at h'
  obtain ⟨d, hd, rfl⟩ := h'
  by_cases h1 : d = '\n'
  · left; simp [h1]
  · by_cases h2 : d = '\r'
    · left; simp [h2]
    · right; simp [h1, h2, hd]

@[simp] theorem doubleQuotes_nil : doubleQuotes [] = [] := rfl

theorem doubleQuotes_quote (s : Text) :
    doubleQuotes ('\'' :: s) = '\'' :: '\'' :: doubleQuotes s := rfl

theorem doubleQuotes_cons {c : Char} (h : c ≠ '\'') (s : Text) :
    doubleQuotes (c :: s) = c :: doubleQuotes s := by
  have hp : ¬ ['\''] <+: c :: s := by simpa [List.cons_prefix_cons] using fun e => h e.symm
  rw [doubleQuotes, replaceAll, replaceFrom, isPrefixOf_eq_false hp]
  rfl

/-- Undoubling the doubled quotes, left to right. -/
theorem replaceAll_doubleQuotes (s : Text) :
    replaceAll ['\'', '\''] ['\''] (doubleQuotes s) = s := by
  induction s with
  | nil => rfl
  | cons c s ih =>
    by_cases h : c = '\''
    · subst h
      rw [doubleQuotes_quote]
      show '\'' :: replaceAll ['\'', '\''] ['\''] (doubleQuotes s) = _
      rw [ih]
    · have hp : ¬ ['\'', '\''] <+: c :: doubleQuotes s := by
        simpa [List.cons_prefix_cons] using fun e => absurd e.symm h
      rw [doubleQuotes_cons h, replaceAll, replaceFrom, isPrefixOf_eq_false hp]
      show c :: replaceAll ['\'', '\''] ['\''] (doubleQuotes s) = _
      rw [ih]

/-- What a scalar is made of. -/
theorem mem_yamlScalar {v : Text} {c : Char} (h : c ∈ yamlScalar v) : c = '\'' ∨ c ∈ flatten v := by
  rw [yamlScalar, List.mem_cons, List.mem_append, List.mem_singleton] at h
  rcases h with h | h | h
  · exact Or.inl h
  · rcases mem_replaceFrom h with h | h
    · exact Or.inl (by simpa using h)
    · exact Or.inr h
  · exact Or.inl h

theorem yamlScalar_stripped (v : Text) : Stripped (yamlScalar v) := by
  have hq : isSpace '\'' = false := by decide
  apply stripped_of_ends
  · intro c hc
    rw [yamlScalar, List.head?_cons, Option.some.injEq] at hc
    rw [← hc, hq]
  · intro c hc
    rw [yamlScalar, ← List.cons_append, List.getLast?_concat, Option.some.injEq] at hc
    rw [← hc, hq]

/-- **Quoting inverts**: `_unquote` of the emitted scalar is the flattened value. -/
theorem unquote_yamlScalar (v : Text) : unquote (yamlScalar v) = flatten v := by
  have hlast : (yamlScalar v).getLast? = some '\'' := by
    rw [yamlScalar, ← List.cons_append, List.getLast?_concat]
  have hinner : (yamlScalar v).tail.dropLast = doubleQuotes (flatten v) := by
    rw [yamlScalar, List.tail_cons, List.dropLast_concat]
  rw [unquote, hlast, hinner, if_pos, if_pos]
  · exact replaceAll_doubleQuotes _
  · rfl
  · exact ⟨by simp [yamlScalar], rfl, Or.inr rfl⟩

/-- A scalar is on one line when the flattened value is. -/
theorem oneLine_yamlScalar_iff (v : Text) : OneLine (yamlScalar v) ↔ OneLine (flatten v) := by
  constructor
  · intro h
    rw [← unquote_yamlScalar v]
    exact oneLine_unquote h
  · intro h c hc
    rcases mem_yamlScalar hc with rfl | hc
    · decide
    · exact h c hc

theorem initial_dashes_doubleQuotes {k : ℕ} : ∀ {s : Text},
    List.replicate k '-' <+: doubleQuotes s ↔ List.replicate k '-' <+: s := by
  induction k with
  | zero => simp
  | succ k ih =>
    intro s
    cases s with
    | nil => rfl
    | cons c s =>
      by_cases h : c = '\''
      · subst h
        rw [doubleQuotes_quote, List.replicate_succ, List.cons_prefix_cons, List.cons_prefix_cons]
        simp
      · rw [doubleQuotes_cons h, List.replicate_succ, List.cons_prefix_cons,
          List.cons_prefix_cons, ih]

/-- Quoting neither makes nor breaks a fence. -/
theorem noFence_doubleQuotes_iff (s : Text) : NoFence (doubleQuotes s) ↔ NoFence s := by
  unfold NoFence
  rw [not_iff_not]
  induction s with
  | nil => rfl
  | cons c s ih =>
    have hi : fence <+: doubleQuotes (c :: s) ↔ fence <+: c :: s :=
      initial_dashes_doubleQuotes (k := 3)
    rw [List.infix_cons_iff, ← hi, ← ih]
    by_cases h : c = '\''
    · subst h
      have hq : ¬ fence <+: '\'' :: doubleQuotes s := by simp [fence, List.cons_prefix_cons]
      rw [doubleQuotes_quote, List.infix_cons_iff, List.infix_cons_iff]
      simp [hq]
    · rw [doubleQuotes_cons h, List.infix_cons_iff]

theorem noFence_yamlScalar_iff (v : Text) : NoFence (yamlScalar v) ↔ NoFence (flatten v) := by
  rw [← noFence_doubleQuotes_iff (flatten v)]
  unfold NoFence
  have hq : ¬ fence <+: '\'' :: (doubleQuotes (flatten v) ++ ['\'']) := by
    simp [fence, List.cons_prefix_cons]
  have hnil : ¬ fence <:+: [] := by decide
  rw [not_iff_not, yamlScalar, List.infix_cons_iff, infix_append_cons_iff (by decide) (by decide)]
  simp [hq, hnil]

end OracleSkills.Frontmatter
