import OracleSkills.Python.Text

/-!
# Plain scalars in YAML 1.1

A scalar that is not quoted is a string only if it looks like nothing else. Of lower-case letters,
digits and hyphens there are these others: booleans (`yes`, `no`, `true`, `false`, `on`, `off`),
`null`, integers (decimal, binary after `0b`, octal after `0`, hexadecimal after `0x`), and dates. A
date that is none in the calendar cannot be constructed.

`Resolved.or_eq_iff` says which of them are shown again as they were written by `str(v or default)`,
where the default is what was written.
-/

namespace Yaml

open Python

/-- What a plain scalar is resolved to. -/
inductive Resolved where
  | null
  | bool (b : Bool)
  | int (n : ℕ)
  /-- A date, as it was written, which is as it is shown. -/
  | date (t : Text)
  | str (t : Text)

/-- `[0-9]`, of which there are as many as `base` says. -/
def isDigit (base : ℕ) (c : Char) : Bool := 48 ≤ c.toNat && c.toNat < 48 + base

/-- `[0-9a-f]`. -/
def isHexDigit (c : Char) : Bool := isDigit 10 c || 97 ≤ c.toNat && c.toNat ≤ 102

/-- The number that hexadecimal digits write. -/
def ofHex (ds : Text) :
    ℕ := ds.foldl (fun n c => 16 * n + if isDigit 10 c then c.toNat - 48 else c.toNat - 87) 0

/-- The number that a scalar without a sign writes: `0b[0-1]+`, `0x[0-9a-f]+`, `0[0-7]*` or
`[1-9][0-9]*`. -/
def intOf : Text → Option ℕ
  | '0' :: 'b' :: ds =>
    if ds ≠ [] ∧ ds.all (isDigit 2) then some (Nat.ofDigitChars 2 ds 0) else none
  | '0' :: 'x' :: ds => if ds ≠ [] ∧ ds.all isHexDigit then some (ofHex ds) else none
  | '0' :: ds => if ds.all (isDigit 8) then some (Nat.ofDigitChars 8 ds 0) else none
  | ds => if ds ≠ [] ∧ ds.all (isDigit 10) then some (Nat.ofDigitChars 10 ds 0) else none

/-- The year, month and day of `[0-9][0-9][0-9][0-9]-[0-9][0-9]-[0-9][0-9]`. -/
def dateOf (t : Text) : Option (ℕ × ℕ × ℕ) :=
  match t.splitOn '-' with
  | [y, m, d] =>
    if y.length = 4 ∧ m.length = 2 ∧ d.length = 2 ∧ (y ++ m ++ d).all (isDigit 10) then
      some (Nat.ofDigitChars 10 y 0, Nat.ofDigitChars 10 m 0, Nat.ofDigitChars 10 d 0)
    else none
  | _ => none

/-- The days of a month. -/
def daysIn (year month : ℕ) : ℕ :=
  if month = 2 then if year % 4 = 0 ∧ (year % 100 ≠ 0 ∨ year % 400 = 0) then 29 else 28
  else if month ∈ [4, 6, 9, 11] then 30
  else 31

/-- The date is in the calendar. -/
def IsDate (year month day : ℕ) : Prop :=
  1 ≤ year ∧ 1 ≤ month ∧ month ≤ 12 ∧ 1 ≤ day ∧ day ≤ daysIn year month

instance (year month day : ℕ) :
    Decidable (IsDate year month day) := inferInstanceAs (Decidable (_ ∧ _))

/-- What a plain scalar of lower-case letters, digits and hyphens is, `none` where it cannot be
constructed. -/
def resolve (t : Text) : Option Resolved :=
  if t ∈ ["yes".toList, "true".toList, "on".toList] then some (.bool true)
  else if t ∈ ["no".toList, "false".toList, "off".toList] then some (.bool false)
  else if t ∈ ["null".toList, []] then some .null
  else
    match intOf t, dateOf t with
    | some n, _ => some (.int n)
    | none, some (y, m, d) => if IsDate y m d then some (.date t) else none
    | none, none => some (.str t)

namespace Resolved

/-- Its truth value. -/
def truth : Resolved → Bool
  | null => false
  | bool b => b
  | int n => n ≠ 0
  | date _ => true
  | str t => t ≠ []

/-- `str(v)`. -/
def shown : Resolved → Text
  | null => "None".toList
  | bool b => if b then "True".toList else "False".toList
  | int n => (Nat.repr n).toList
  | date t => t
  | str t => t

/-- `str(v or default)`. -/
def or (v : Resolved) (default : Text) : Text := if v.truth then v.shown else default

end Resolved

example : (resolve "012".toList).map Resolved.shown = some "10".toList := by decide
example : (resolve "2026-02-30".toList).map Resolved.shown = none := by decide

/-! ### Numbers -/

variable {t : Text} {n : ℕ}

/-- No number but zero is shown with a leading zero. -/
theorem head?_toDigits_ne (hn : n ≠ 0) : (Nat.toDigits 10 n).head? ≠ some '0' := by
  have hdigit : ∀ m < 10, m ≠ 0 → m.digitChar ≠ '0' := by decide
  induction n using Nat.strong_induction_on with
  | _ n ih =>
    by_cases hlt : n < 10
    · rw [Nat.toDigits_of_lt_base hlt, List.head?_cons, ne_eq, Option.some.injEq]
      exact hdigit n hlt hn
    · have hhead := ih (n / 10) (by omega) (by omega)
      rw [Nat.toDigits_of_base_le (by omega) (by omega), List.head?_append]
      cases hd : (Nat.toDigits 10 (n / 10)).head? with
      | none => exact absurd (List.head?_eq_none_iff.mp hd) Nat.toDigits_ne_nil
      | some c =>
        rw [hd] at hhead
        exact hhead

theorem digitChar_toNat {c : Char} (h : isDigit 10 c = true) :
    c.toNat - 48 < 10 ∧ (c.toNat - 48).digitChar = c := by
  have hall : ∀ d < 10, d.digitChar = Char.ofNat (48 + d) := by decide
  simp only [isDigit, Bool.and_eq_true, decide_eq_true_eq] at h
  have hlt : c.toNat - 48 < 10 := by omega
  rw [hall _ hlt, show 48 + (c.toNat - 48) = c.toNat by omega, Char.ofNat_toNat]
  exact ⟨hlt, rfl⟩

/-- **Decimal digits** without a leading zero are shown as they are written. -/
theorem toDigits_ofDigitChars (hne : t ≠ []) (hhead : t.head? ≠ some '0')
    (hall : ∀ c ∈ t, isDigit 10 c = true) :
    0 < Nat.ofDigitChars 10 t 0 ∧ Nat.toDigits 10 (Nat.ofDigitChars 10 t 0) = t := by
  induction t using List.reverseRecOn with
  | nil => exact absurd rfl hne
  | append_singleton ds c ih =>
    obtain ⟨hlt, hchar⟩ := digitChar_toNat (hall c (by simp))
    have hval : Nat.ofDigitChars 10 (ds ++ [c]) 0 = 10 * Nat.ofDigitChars 10 ds 0 +
        (c.toNat - 48) := by
      rw [Nat.ofDigitChars_append, Nat.ofDigitChars_cons, Nat.ofDigitChars_nil]
      rfl
    rw [hval]
    by_cases hds : ds = []
    · subst hds
      have hpos : c.toNat - 48 ≠ 0 := by
        intro hzero
        rw [hzero] at hchar
        exact hhead (by rw [← hchar]; rfl)
      rw [Nat.ofDigitChars_nil, Nat.mul_zero, Nat.zero_add, Nat.toDigits_of_lt_base hlt, hchar]
      exact ⟨by omega, rfl⟩
    · have hfirst : ds.head? ≠ some '0' := by
        rwa [List.head?_append_of_ne_nil _ hds] at hhead
      obtain ⟨hpos, hdigits⟩ := ih hds hfirst fun d hd => hall d (List.mem_append_left _ hd)
      refine ⟨by omega, ?_⟩
      rw [← Nat.toDigits_append_toDigits (by omega) hpos hlt, hdigits,
        Nat.toDigits_of_lt_base hlt, hchar]

/-- An integer without a leading zero is decimal. -/
theorem decimal_of_intOf (h : intOf t = some n) (hhead : t.head? ≠ some '0') :
    t ≠ [] ∧ (∀ c ∈ t, isDigit 10 c = true) ∧ n = Nat.ofDigitChars 10 t 0 := by
  unfold intOf at h
  split at h
  · exact absurd rfl hhead
  · exact absurd rfl hhead
  · exact absurd rfl hhead
  · split_ifs at h with hds
    cases h
    exact ⟨hds.1, List.all_eq_true.mp hds.2, rfl⟩

/-! ### What is shown as it was written -/

/-- The scalar is no true boolean, and no number but zero that is written with a leading zero. -/
structure Keeps (t : Text) : Prop where
  bool : t ∉ ["yes".toList, "true".toList, "on".toList]
  int : ∀ n, intOf t = some n → n ≠ 0 → t.head? ≠ some '0'

namespace Resolved

/-- **What a scalar can be**: the inversion of `resolve`. -/
theorem resolve_cases {v : Resolved} (h : resolve t = some v) :
    (v = bool true ∧ t ∈ ["yes".toList, "true".toList, "on".toList]) ∨
    (t ∉ ["yes".toList, "true".toList, "on".toList] ∧
      ((v = bool false ∧ t ∈ ["no".toList, "false".toList, "off".toList]) ∨
        (v = null ∧ t ∈ ["null".toList, []]) ∨
        (∃ n, v = int n ∧ intOf t = some n) ∨ ((v = date t ∨ v = str t) ∧ intOf t = none))) := by
  unfold resolve at h
  split_ifs at h with htrue hfalse hnull
  · cases h
    exact Or.inl ⟨rfl, htrue⟩
  · cases h
    exact Or.inr ⟨htrue, Or.inl ⟨rfl, hfalse⟩⟩
  · cases h
    exact Or.inr ⟨htrue, Or.inr (Or.inl ⟨rfl, hnull⟩)⟩
  · refine Or.inr ⟨htrue, Or.inr (Or.inr ?_)⟩
    cases hint : intOf t with
    | some n =>
      rw [hint] at h
      cases h
      exact Or.inl ⟨n, rfl, rfl⟩
    | none =>
      rw [hint] at h
      cases hdate : dateOf t with
      | some ymd =>
        rw [hdate] at h
        simp only at h
        split_ifs at h
        cases h
        exact Or.inr ⟨Or.inl rfl, rfl⟩
      | none =>
        rw [hdate] at h
        cases h
        exact Or.inr ⟨Or.inr rfl, rfl⟩

theorem int_or_zero : (int 0).or t = t := if_neg (by decide)

theorem int_or (hn : n ≠ 0) : (int n).or t = Nat.toDigits 10 n := by
  rw [or, if_pos (by simp [truth, hn]), shown, Nat.toList_repr]

theorem str_or : (str t).or t = t := by simp [or, shown]

/-- What is shown is what was written, the true boolean, or a number. -/
theorem or_cases {v : Resolved} (h : resolve t = some v) :
    v.or t = t ∨ v.or t = "True".toList ∨ ∃ n, v.or t = Nat.toDigits 10 n := by
  obtain ⟨rfl, -⟩ | ⟨-, ⟨rfl, -⟩ | ⟨rfl, -⟩ | ⟨n, rfl, -⟩ | ⟨rfl | rfl, -⟩⟩ := resolve_cases h
  · exact Or.inr (Or.inl rfl)
  · exact Or.inl rfl
  · exact Or.inl rfl
  · by_cases hn : n = 0
    · exact Or.inl (hn ▸ int_or_zero)
    · exact Or.inr (Or.inr ⟨n, int_or hn⟩)
  · exact Or.inl rfl
  · exact Or.inl str_or

/-- **What is shown as it was written**, or not shown because it is false. -/
theorem or_eq_iff {v : Resolved} (hne : t ≠ []) (h : resolve t = some v) :
    v.or t = t ↔ Keeps t := by
  have hnone : ∀ ts : List Text, (∀ w ∈ ts, intOf w = none) → t ∈ ts →
      t ∉ ["yes".toList, "true".toList, "on".toList] → Keeps t := by
    intro ts hts ht htrue
    refine ⟨htrue, fun n hn => ?_⟩
    rw [hts t ht] at hn
    cases hn
  obtain ⟨rfl, htrue⟩ | ⟨htrue, ⟨rfl, hfalse⟩ | ⟨rfl, hnull⟩ | ⟨n, rfl, hint⟩ | ⟨hv, hint⟩⟩ :=
    resolve_cases h
  · refine iff_of_false (fun heq => ?_) fun hk => hk.bool htrue
    have hup : 'T' ∈ t := heq ▸ (by decide : 'T' ∈ "True".toList)
    have hno : ∀ w ∈ ["yes".toList, "true".toList, "on".toList], 'T' ∉ w := by decide
    exact hno t htrue hup
  · exact iff_of_true rfl (hnone _ (by decide) hfalse htrue)
  · exact iff_of_true rfl (hnone _ (by decide) hnull htrue)
  · have hone : ∀ m, intOf t = some m → m = n := fun m hm => Option.some.inj (hm.symm.trans hint)
    by_cases hzero : n = 0
    · exact iff_of_true (hzero ▸ int_or_zero) ⟨htrue,
        fun m hm hne => absurd (hone m hm ▸ hzero) hne⟩
    · rw [int_or hzero]
      constructor
      · intro heq
        refine ⟨htrue, fun m _ _ => ?_⟩
        rw [← heq]
        exact head?_toDigits_ne hzero
      · intro hk
        obtain ⟨-, hdigits, rfl⟩ := decimal_of_intOf hint (hk.int n hint hzero)
        exact (toDigits_ofDigitChars hne (hk.int _ hint hzero) hdigits).2
  · have hk : Keeps t := ⟨htrue, fun m hm => by rw [hint] at hm; cases hm⟩
    rcases hv with rfl | rfl
    · exact iff_of_true rfl hk
    · exact iff_of_true str_or hk

end Resolved

end Yaml
