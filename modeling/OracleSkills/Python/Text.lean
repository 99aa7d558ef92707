import Mathlib.Data.List.Basic
import Mathlib.Data.List.Infix
import Mathlib.Data.List.DropRight

/-!
# Text

Python's `str` and the methods the programs call on it, as functions on lists of
characters: `strip`, `splitlines`, `str.split(sep, n)` and `str.partition` through
the first occurrence of a separator (`cut`), `replace`, `count`, `join`, and
`re.sub` of a run of characters by one character (`collapse`).

Every function is by structural recursion, so that it computes. The lemmas say how
each function meets concatenation at a line end, which is how the readers of a
text built from lines are evaluated.
-/

namespace Python

/-- A Python `str`. -/
abbrev Text := List Char

/-- `a <= b`: the order of texts by their code points, in which `sorted` puts them. -/
def leText : Text → Text → Bool
  | [], _ => true
  | _ :: _, [] => false
  | a :: s, b :: t => a.toNat < b.toNat || (a = b && leText s t)

theorem leText_total : ∀ s t : Text, (leText s t || leText t s) = true
  | [], _ => by simp [leText]
  | _ :: _, [] => by simp [leText]
  | a :: s, b :: t => by
    have hrest := leText_total s t
    rcases lt_trichotomy a.toNat b.toNat with h | h | h
    · simp [leText, h]
    · obtain rfl : a = b := Char.toNat_inj.mp h
      simpa [leText] using hrest
    · simp [leText, h]

theorem leText_trans : ∀ {s t u : Text}, leText s t = true → leText t u = true → leText s u = true
  | [], _, _, _, _ => rfl
  | _ :: _, [], _, h, _ => by cases h
  | _ :: _, _ :: _, [], _, h => by cases h
  | a :: s, b :: t, c :: u, hst, htu => by
    simp only [leText, Bool.or_eq_true, Bool.and_eq_true, decide_eq_true_eq] at hst htu ⊢
    rcases hst with hab | ⟨rfl, hst⟩ <;> rcases htu with hbc | ⟨rfl, htu⟩
    · exact Or.inl (hab.trans hbc)
    · exact Or.inl hab
    · exact Or.inl hbc
    · exact Or.inr ⟨rfl, leText_trans hst htu⟩

/-- Membership of a text in a list is decided by comparing texts. -/
instance decidableMemTexts (t : Text) (ts : List Text) : Decidable (t ∈ ts) := inferInstance

/-! ### White space and line ends -/

/-- The code points `str.isspace` accepts, which are also what `\s` matches. -/
def spaceCodes : List ℕ :=
  [9, 10, 11, 12, 13, 28, 29, 30, 31, 32, 0x85, 0xA0, 0x1680, 0x2000, 0x2001, 0x2002, 0x2003,
    0x2004, 0x2005, 0x2006, 0x2007, 0x2008, 0x2009, 0x200A, 0x2028, 0x2029, 0x202F, 0x205F, 0x3000]

/-- The code points `str.splitlines` cuts at. -/
def lineEndCodes : List ℕ := [10, 11, 12, 13, 28, 29, 30, 0x85, 0x2028, 0x2029]

/-- `c.isspace()`. -/
def isSpace (c : Char) : Bool := spaceCodes.contains c.toNat

/-- `str.splitlines` ends a line at `c`. -/
def isLineEnd (c : Char) : Bool := lineEndCodes.contains c.toNat

/-- Every line end is white space. -/
theorem isSpace_of_isLineEnd {c : Char} (h : isLineEnd c = true) : isSpace c = true := by
  have hsub : ∀ n ∈ lineEndCodes, n ∈ spaceCodes := by decide
  simp only [isLineEnd, isSpace, List.contains_iff_mem] at h ⊢
  exact hsub _ h

/-- `t` has no line end: it stays on one line. -/
def OneLine (t : Text) : Prop := ∀ c ∈ t, isLineEnd c = false

instance (t : Text) : Decidable (OneLine t) := List.decidableBAll (fun c => isLineEnd c = false) t

theorem OneLine.append {a b : Text} (ha : OneLine a) (hb : OneLine b) : OneLine (a ++ b) := by
  intro c hc
  rcases List.mem_append.mp hc with h | h
  · exact ha c h
  · exact hb c h

theorem OneLine.of_subset {a b : Text} (hb : OneLine b) (h : a ⊆ b) : OneLine a :=
  fun c hc => hb c (h hc)

/-! ### `strip` -/

/-- Remove from both ends what `p` accepts: `t.strip(chars)`. -/
def stripBy (p : Char → Bool) (t : Text) : Text := (t.dropWhile p).rdropWhile p

/-- `t.lstrip()`. -/
def lstrip (t : Text) : Text := t.dropWhile isSpace

/-- `t.rstrip()`. -/
def rstrip (t : Text) : Text := t.rdropWhile isSpace

/-- `t.strip()`. -/
def strip (t : Text) : Text := stripBy isSpace t

theorem infix_stripBy (p : Char → Bool) (t : Text) : stripBy p t <:+: t :=
  (List.rdropWhile_prefix p _).isInfix.trans (List.dropWhile_suffix p).isInfix

/-- What is left after stripping does not begin with a stripped character. -/
theorem stripBy_head {p : Char → Bool} {t : Text} {c : Char} (h : (stripBy p t).head? = some c) :
    p c = false := by
  obtain ⟨s, hs⟩ := List.rdropWhile_prefix p (t.dropWhile p)
  have hh : (t.dropWhile p).head? = some c := by
    rw [← hs, List.head?_append]
    show (stripBy p t).head?.or _ = _
    rw [h]; rfl
  have hne : t.dropWhile p ≠ [] := by rintro he; rw [he] at hh; cases hh
  have hnot := List.head_dropWhile_not p (l := t) hne
  rw [List.head?_eq_some_head hne, Option.some.injEq] at hh
  rwa [hh] at hnot

theorem stripBy_getLast {p : Char → Bool} {t : Text} {c : Char}
    (h : (stripBy p t).getLast? = some c) :
    p c = false := by
  have hne : stripBy p t ≠ [] := by rintro he; rw [he] at h; cases h
  have hlast := List.rdropWhile_last_not p (t.dropWhile p) hne
  rw [List.getLast?_eq_some_getLast hne, Option.some.injEq] at h
  change ¬ p ((stripBy p t).getLast hne) = true at hlast
  rwa [h, Bool.not_eq_true] at hlast

theorem stripBy_eq_self {p : Char → Bool} {t : Text} (h : ∀ c, t.head? = some c → p c = false)
    (h' : ∀ c, t.getLast? = some c → p c = false) : stripBy p t = t := by
  have hd : t.dropWhile p = t := by
    cases t with
    | nil => rfl
    | cons c r => rw [List.dropWhile_cons, h c rfl]; rfl
  rw [stripBy, hd, List.rdropWhile_eq_self_iff]
  intro hne
  rw [h' _ (List.getLast?_eq_some_getLast hne)]
  exact Bool.false_ne_true

/-- Stripping what is stripped changes nothing. -/
theorem stripBy_stripBy (p : Char → Bool) (t : Text) : stripBy p (stripBy p t) = stripBy p t :=
  stripBy_eq_self (fun _ h => stripBy_head h) (fun _ h => stripBy_getLast h)

/-- Blank at neither end: `strip` leaves `t` as it is. -/
def Stripped (t : Text) : Prop := strip t = t

instance (t : Text) : Decidable (Stripped t) := inferInstanceAs (Decidable (strip t = t))

theorem stripped_strip (t : Text) : Stripped (strip t) := stripBy_stripBy isSpace t

theorem stripped_of_ends {t : Text} (h : ∀ c, t.head? = some c → isSpace c = false)
    (h' : ∀ c, t.getLast? = some c → isSpace c = false) : Stripped t := stripBy_eq_self h h'

/-- A blank before a text goes with `strip`. -/
@[simp] theorem strip_blank_cons (t : Text) : strip (' ' :: t) = strip t := by
  have hb : isSpace ' ' = true := by decide
  rw [strip, stripBy, List.dropWhile_cons, hb]
  rfl

theorem lstrip_cons_of_not_space {c : Char} (h : isSpace c = false) (t : Text) :
    lstrip (c :: t) = c :: t := by
  rw [lstrip, List.dropWhile_cons, h]
  rfl

/-- A text with a character that is not white space is not blank. -/
theorem strip_cons_ne_nil {c : Char} (h : isSpace c = false) (t : Text) : strip (c :: t) ≠ [] := by
  rw [strip, stripBy, List.dropWhile_cons, h]
  intro he
  rw [if_neg Bool.false_ne_true, List.rdropWhile_eq_nil_iff] at he
  rw [he c (List.mem_cons_self ..)] at h
  cases h

/-- A text with no white space is blank at neither end and on one line. -/
theorem stripped_of_noSpace {t : Text} (h : ∀ c ∈ t, isSpace c = false) : Stripped t :=
  stripped_of_ends (fun c hc => h c (List.mem_of_mem_head? hc))
    (fun c hc => h c (List.mem_of_getLast? hc))

theorem oneLine_of_noSpace {t : Text} (h : ∀ c ∈ t, isSpace c = false) : OneLine t := by
  intro c hc
  by_contra hl
  have hs := isSpace_of_isLineEnd (c := c) (by simpa using hl)
  rw [h c hc] at hs
  cases hs

/-! ### The first occurrence of a separator -/

/-- `t` at the first occurrence of `sep`: what is before it and what is after it, or
`none` when `sep` does not occur. `t.partition(sep)`, `t.split(sep, n)` and
`t.replace(old, new, 1)` all cut here. -/
def cut (sep : Text) : Text → Option (Text × Text)
  | [] => if sep = [] then some ([], []) else none
  | c :: t =>
      if sep.isPrefixOf (c :: t) then some ([], (c :: t).drop sep.length)
      else (cut sep t).map fun ab => (c :: ab.1, ab.2)

/-- `t.rfind(c)`: the last place of `c`. -/
def rfind (c : Char) (t : Text) : Option ℕ :=
  (t.reverse.findIdx? (· = c)).map fun i => t.length - 1 - i

/-- `t.split(sep, n)`: at most `n` cuts, from the left. -/
def splitAt (sep : Text) : ℕ → Text → List Text
  | 0, t => [t]
  | n + 1, t =>
    match cut sep t with
    | none => [t]
    | some (a, b) => a :: splitAt sep n b

/-- `t.replace(old, new, 1)`. -/
def replaceFirst (old new t : Text) : Text :=
  match cut old t with
  | none => t
  | some (a, b) => a ++ new ++ b

/-- `cut` gives a decomposition of the text. -/
theorem cut_eq_append {sep : Text} : ∀ {t a b : Text}, cut sep t = some (a, b) → t = a ++ sep ++ b
  | [], a, b, h => by
    simp only [cut] at h
    split_ifs at h with hs
    obtain ⟨rfl, rfl⟩ := Prod.mk.inj (Option.some.inj h)
    simp [hs]
  | c :: t, a, b, h => by
    simp only [cut] at h
    split_ifs at h with hs
    · obtain ⟨rfl, rfl⟩ := Prod.mk.inj (Option.some.inj h)
      obtain ⟨r, hr⟩ := List.isPrefixOf_iff_prefix.mp hs
      rw [← hr]
      simp
    · obtain ⟨⟨a', b'⟩, hc, he⟩ := Option.map_eq_some_iff.mp h
      obtain ⟨rfl, rfl⟩ := Prod.mk.inj he
      rw [cut_eq_append hc]
      simp

theorem isPrefixOf_eq_false {s t : Text} (h : ¬ s <+: t) : s.isPrefixOf t = false := by
  rw [Bool.eq_false_iff]
  exact fun hb => h (List.isPrefixOf_iff_prefix.mp hb)

/-- `cut` finds a separator exactly when it occurs. -/
theorem cut_eq_none_iff {sep : Text} : ∀ {t : Text}, cut sep t = none ↔ ¬ sep <:+: t
  | [] => by
    by_cases hs : sep = [] <;> simp [cut, hs, List.infix_nil]
  | c :: t => by
    rw [cut, List.infix_cons_iff]
    by_cases hs : sep <+: c :: t
    · simp [List.isPrefixOf_iff_prefix.mpr hs, hs]
    · simp [isPrefixOf_eq_false hs, hs, Option.map_eq_none_iff, cut_eq_none_iff (t := t)]

/-- A separator at the front is found at once. -/
theorem cut_append_self {sep : Text} (h : sep ≠ []) (b : Text) :
    cut sep (sep ++ b) = some ([], b) := by
  obtain ⟨c, s, rfl⟩ := List.exists_cons_of_ne_nil h
  have hp : (c :: s).isPrefixOf (c :: s ++ b) = true :=
    List.isPrefixOf_iff_prefix.mpr (List.prefix_append _ _)
  rw [List.cons_append] at hp ⊢
  rw [cut, hp]
  simp

/-- An occurrence at the front cannot lie across a character that the separator does
not have. -/
theorem initial_append_cons_iff {y : Text} {c : Char} : ∀ {sep x : Text}, c ∉ sep →
    (sep <+: x ++ c :: y ↔ sep <+: x)
  | [], _, _ => by simp
  | s :: sep, [], hc => by
    simp only [List.mem_cons, not_or] at hc
    simp [List.cons_prefix_cons, Ne.symm hc.1]
  | s :: sep, a :: x, hc => by
    simp only [List.mem_cons, not_or] at hc
    rw [List.cons_append, List.cons_prefix_cons, List.cons_prefix_cons,
      initial_append_cons_iff hc.2]

/-- An occurrence in a text lies on one side of a character that it does not have. -/
theorem infix_append_cons_iff {sep y : Text} {c : Char} (hc : c ∉ sep) (hs : sep ≠ []) :
    ∀ {x : Text},
    sep <:+: x ++ c :: y ↔ sep <:+: x ∨ sep <:+: y
  | [] => by
    have hp : ¬ sep <+: c :: y := by
      rw [← List.nil_append (c :: y), initial_append_cons_iff hc]
      simpa using hs
    simp [List.infix_cons_iff, hp, hs]
  | a :: x => by
    rw [List.cons_append, List.infix_cons_iff, List.infix_cons_iff, infix_append_cons_iff hc hs,
      ← List.cons_append, initial_append_cons_iff hc, or_assoc]

/-- A one-character separator is found where it first stands. -/
theorem cut_singleton {c : Char} : ∀ {x y : Text}, c ∉ x → cut [c] (x ++ c :: y) = some (x, y)
  | [], y, _ => by simpa using cut_append_self (List.cons_ne_nil c []) y
  | a :: x, y, h => by
    simp only [List.mem_cons, not_or] at h
    have hp : ¬ [c] <+: a :: (x ++ c :: y) := by simp [List.cons_prefix_cons, h.1]
    rw [List.cons_append, cut, isPrefixOf_eq_false hp, cut_singleton h.2]
    rfl

/-- A cut passes over a line that does not hold the separator, up to a character the
separator does not have. -/
theorem cut_append_cons {sep y : Text} {c : Char} (hc : c ∉ sep) (hs : sep ≠ []) :
    ∀ {x : Text}, ¬ sep <:+: x → cut sep (x ++ c :: y) = (cut sep y).map fun ab =>
      (x ++ c :: ab.1, ab.2)
  | [], _ => by
    have hp : ¬ sep <+: c :: y := by
      rw [← List.nil_append (c :: y), initial_append_cons_iff hc]
      simpa using hs
    simp [cut, isPrefixOf_eq_false hp]
  | a :: x, hx => by
    rw [List.infix_cons_iff, not_or] at hx
    have hp : ¬ sep <+: a :: (x ++ c :: y) := by
      rw [← List.cons_append, initial_append_cons_iff hc]
      exact hx.1
    rw [List.cons_append, cut, isPrefixOf_eq_false hp, cut_append_cons hc hs hx.2]
    simp [Option.map_map, Function.comp_def]

/-- Where a text is cut: at the first occurrence of the separator. -/
theorem cut_eq_some_iff {sep t a b : Text} (hs : sep ≠ []) :
    cut sep t = some (a, b) ↔ t = a ++ sep ++ b ∧ ¬ sep <:+: a ++ sep.dropLast := by
  induction t generalizing a with
  | nil =>
    rw [cut, if_neg hs]
    refine iff_of_false (by simp) ?_
    rintro ⟨h, -⟩
    simp [hs] at h
  | cons c t ih =>
    have hshort : sep.dropLast.length < sep.length := by
      have := List.length_pos_iff.mpr hs
      rw [List.length_dropLast]
      omega
    rw [cut]
    split_ifs with hp
    · have hp' := List.isPrefixOf_iff_prefix.mp hp
      obtain ⟨r, hr⟩ := hp'
      rw [← hr, List.drop_left, Option.some.injEq, Prod.mk.injEq]
      constructor
      · rintro ⟨rfl, rfl⟩
        exact ⟨rfl, fun h => absurd h.length_le (by simpa using hshort)⟩
      · rintro ⟨h, hno⟩
        rcases a with - | ⟨d, a⟩
        · exact ⟨rfl, by simpa using h⟩
        · -- the separator at the front lies before the end of the one that is said to be the first
          refine absurd (List.IsPrefix.isInfix (List.prefix_of_prefix_length_le ⟨r, rfl⟩ ?_ ?_)) hno
          · rw [h, List.append_assoc]
            exact (List.prefix_append_right_inj _).mpr
              ((List.dropLast_prefix sep).trans (List.prefix_append sep b))
          · have := List.length_pos_iff.mpr hs
            simp only [List.length_append, List.length_cons, List.length_dropLast]
            omega
    · have hp' : ¬ sep <+: c :: t := fun h => hp (List.isPrefixOf_iff_prefix.mpr h)
      rw [Option.map_eq_some_iff]
      constructor
      · rintro ⟨⟨a', b'⟩, hab, heq⟩
        obtain ⟨rfl, rfl⟩ := Prod.mk.inj heq
        obtain ⟨rfl, hno⟩ := ih.mp hab
        refine ⟨by simp, fun hin => ?_⟩
        rcases List.infix_cons_iff.mp hin with hin | hin
        · refine hp' (hin.trans ?_)
          rw [List.append_assoc, List.cons_prefix_cons]
          exact ⟨rfl, (List.prefix_append_right_inj _).mpr
            ((List.dropLast_prefix sep).trans (List.prefix_append sep b'))⟩
        · exact hno hin
      · rintro ⟨h, hno⟩
        rcases a with - | ⟨d, a⟩
        · exact absurd ⟨b, by simpa using h.symm⟩ hp'
        · simp only [List.cons_append, List.cons.injEq] at h
          obtain ⟨rfl, h⟩ := h
          exact ⟨(a, b), ih.mpr ⟨h, fun hin => hno (hin.trans (List.suffix_cons c _).isInfix)⟩, rfl⟩

/-- The first occurrence stays the first when text is added behind. -/
theorem cut_append {sep y a b : Text} :
    ∀ {x : Text}, cut sep x = some (a, b) → cut sep (x ++ y) = some (a, b ++ y)
  | [], h => by
    simp only [cut] at h
    split_ifs at h with hs
    obtain ⟨rfl, rfl⟩ := Prod.mk.inj (Option.some.inj h)
    subst hs
    cases y <;> simp [cut]
  | d :: x, h => by
    by_cases hp : sep <+: d :: x
    · have hp' : sep <+: d :: (x ++ y) := hp.trans (List.prefix_append (d :: x) y)
      rw [cut, if_pos (List.isPrefixOf_iff_prefix.mpr hp)] at h
      obtain ⟨rfl, rfl⟩ := Prod.mk.inj (Option.some.inj h)
      rw [List.cons_append, cut, if_pos (List.isPrefixOf_iff_prefix.mpr hp'), ← List.cons_append,
        List.drop_append_of_le_length hp.length_le]
    · rw [cut, isPrefixOf_eq_false hp] at h
      obtain ⟨⟨a', b'⟩, hx, he⟩ := Option.map_eq_some_iff.mp h
      obtain ⟨rfl, rfl⟩ := Prod.mk.inj he
      have hp' : ¬ sep <+: d :: (x ++ y) := fun hq =>
        -- the first occurrence in `x` is long enough for an earlier one to lie in `d :: x`
        hp (List.prefix_of_prefix_length_le hq (List.prefix_append (d :: x) y)
          (by rw [cut_eq_append hx]; simp; omega))
      rw [List.cons_append, cut, isPrefixOf_eq_false hp', cut_append hx]
      simp

/-- `old` stands at one place of `t`. -/
def OccursOnce (old t : Text) : Prop :=
  ∃ a b, t = a ++ old ++ b ∧ ∀ a' b', t = a' ++ old ++ b' → a' = a

/-- A text stands at one place if it stands at one position. -/
theorem occursOnce_of_positions {old t : Text} {n : ℕ} (hn : (t.drop n).take old.length = old)
    (h : ∀ k < t.length + 1, (t.drop k).take old.length = old → k = n) : OccursOnce old t := by
  have hd : old ++ (t.drop n).drop old.length = t.drop n := by
    conv_rhs => rw [← List.take_append_drop old.length (t.drop n), hn]
  refine ⟨t.take n, (t.drop n).drop old.length, ?_, fun a b hab => ?_⟩
  · rw [List.append_assoc, hd, List.take_append_drop]
  · have hk : a.length = n := by
      apply h a.length
      · rw [hab, List.length_append, List.length_append]
        omega
      · rw [hab, List.append_assoc, List.drop_left, List.take_left]
    rw [hab, ← hk, List.append_assoc, List.take_left]

/-- What stands at one place is replaced there. -/
theorem replaceFirst_of_occursOnce {old a b : Text} (h : OccursOnce old (a ++ old ++ b))
    (new : Text) :
    replaceFirst old new (a ++ old ++ b) = a ++ new ++ b := by
  obtain ⟨x, y, -, honly⟩ := h
  rw [replaceFirst]
  cases hc : cut old (a ++ old ++ b) with
  | none => exact absurd ⟨a, b, rfl⟩ (cut_eq_none_iff.mp hc)
  | some ab =>
    obtain ⟨a', b'⟩ := ab
    have heq := cut_eq_append hc
    obtain rfl : a' = a := (honly a' b' heq).trans (honly a b rfl).symm
    rw [List.append_right_inj] at heq
    simp only [heq]

/-! ### Lines -/

/-- `t.splitlines()`. A `\r\n` is one line end, and a line end at the very end of the
text starts no further line. -/
def splitlines : Text → List Text
  | [] => []
  | '\r' :: '\n' :: t => [] :: splitlines t
  | c :: t =>
      if isLineEnd c then [] :: splitlines t
      else
        match splitlines t with
        | [] => [[c]]
        | l :: ls => (c :: l) :: ls

/-- `sep.join(ls)`. -/
def join (sep : Text) (ls : List Text) : Text := List.intercalate sep ls

/-- What text-mode `open(p).read()` does to line ends: `\r\n` and `\r` become `\n`. -/
def universalNewlines : Text → Text
  | [] => []
  | '\r' :: '\n' :: t => '\n' :: universalNewlines t
  | '\r' :: t => '\n' :: universalNewlines t
  | c :: t => c :: universalNewlines t

/-- Text without a carriage return is read as it is, and what follows it on its own. -/
theorem universalNewlines_append {a : Text} (h : '\r' ∉ a) (b : Text) :
    universalNewlines (a ++ b) = a ++ universalNewlines b := by
  induction a with
  | nil => rfl
  | cons c a ih =>
    rw [List.mem_cons, not_or] at h
    rw [List.cons_append, universalNewlines, ih h.2, List.cons_append]
    · exact fun _ hc _ => h.1 hc.symm
    · exact fun hc => h.1 hc.symm

theorem universalNewlines_eq_self {a : Text} (h : '\r' ∉ a) : universalNewlines a = a := by
  simpa [universalNewlines] using universalNewlines_append h []

theorem not_mem_universalNewlines (t : Text) : '\r' ∉ universalNewlines t := by
  induction t using universalNewlines.induct with
  | case1 => simp [universalNewlines]
  | case2 t ih =>
    rw [universalNewlines, List.mem_cons, not_or]
    exact ⟨by decide, ih⟩
  | case3 t hne ih =>
    rw [universalNewlines, List.mem_cons, not_or]
    · exact ⟨by decide, ih⟩
    · exact hne
  | case4 c t hne hc ih =>
    rw [universalNewlines, List.mem_cons, not_or]
    · exact ⟨fun h => hc h.symm, ih⟩
    · exact hne
    · exact hc

/-- The lines `ls`, each with its `\n`. -/
def unlines (ls : List Text) : Text := (ls.map (· ++ ['\n'])).flatten

@[simp] theorem unlines_nil : unlines [] = [] := rfl

@[simp] theorem unlines_cons (l : Text) (ls : List Text) :
    unlines (l :: ls) = l ++ '\n' :: unlines ls := by
  simp [unlines]

theorem unlines_append (ls ms : List Text) : unlines (ls ++ ms) = unlines ls ++ unlines ms := by
  simp [unlines]

theorem join_cons_cons (sep a b : Text) (ls : List Text) :
    join sep (a :: b :: ls) = a ++ sep ++ join sep (b :: ls) := by
  simp [join, List.intercalate]

/-- Lines joined begin with the first one, and a line end is behind it if there is anything. -/
theorem exists_join_cons (l : Text) (ls : List Text) :
    ∃ t, join ['\n'] (l :: ls) = l ++ t ∧ ∀ c ∈ t.head?, c = '\n' := by
  cases ls with
  | nil => exact ⟨[], by simp [join], fun c hc => by cases hc⟩
  | cons m ms =>
    refine ⟨'\n' :: join ['\n'] (m :: ms), by simp [join_cons_cons], fun c hc => ?_⟩
    exact (Option.some.inj hc).symm

/-- Joining lines and a last, empty one is ending every line. -/
theorem join_concat_nil (ls : List Text) : join ['\n'] (ls ++ [[]]) = unlines ls := by
  induction ls with
  | nil => rfl
  | cons l ls ih =>
    cases ls with
    | nil => simp [join, List.intercalate]
    | cons m ms =>
      rw [List.cons_append, List.cons_append, join_cons_cons, ← List.cons_append, ih]
      simp

/-- A character that ends no line goes to the front of the first line. -/
theorem splitlines_cons_of_not_lineEnd {c : Char} {t : Text} (hc : isLineEnd c = false) :
    splitlines (c :: t) = (c :: (splitlines t).headD []) :: (splitlines t).tail := by
  rw [splitlines, if_neg (by simp [hc])]
  · cases splitlines t <;> rfl
  · rintro t' rfl
    exact absurd hc (by decide)

/-- A line end `\n` after a one-line text ends its line. -/
theorem splitlines_append_newline {l t : Text} (h : OneLine l) :
    splitlines (l ++ '\n' :: t) = l :: splitlines t := by
  induction l with
  | nil => rfl
  | cons c l ih =>
    rw [List.cons_append, splitlines_cons_of_not_lineEnd (h c (List.mem_cons_self ..)),
      ih fun d hd => h d (List.mem_cons_of_mem _ hd)]
    rfl

theorem splitlines_unlines_append {ls : List Text} (h : ∀ l ∈ ls, OneLine l) (t : Text) :
    splitlines (unlines ls ++ t) = ls ++ splitlines t := by
  induction ls with
  | nil => rfl
  | cons l ls ih =>
    rw [unlines_cons, List.append_assoc, List.cons_append,
      splitlines_append_newline (h l (List.mem_cons_self ..)),
      ih fun m hm => h m (List.mem_cons_of_mem _ hm)]
    rfl

/-- A one-line text that is not empty is its own only line. -/
theorem splitlines_oneLine {l : Text} (h : OneLine l) (hne : l ≠ []) : splitlines l = [l] := by
  induction l with
  | nil => exact absurd rfl hne
  | cons c l ih =>
    rw [splitlines_cons_of_not_lineEnd (h c (List.mem_cons_self ..))]
    by_cases hl : l = []
    · rw [hl]
      rfl
    · rw [ih (fun d hd => h d (List.mem_cons_of_mem _ hd)) hl]
      rfl

theorem splitlines_ne_nil {t : Text} (h : t ≠ []) : splitlines t ≠ [] := by
  fun_cases splitlines t <;> simp_all

/-- A line feed ends its line, whatever is before it. -/
theorem splitlines_append_cons_newline (a b : Text) :
    splitlines (a ++ '\n' :: b) = splitlines (a ++ ['\n']) ++ splitlines b := by
  have h0 : ∀ t, splitlines ('\n' :: t) = [] :: splitlines t := fun t =>
    splitlines_append_newline (l := []) (by intro c hc; cases hc)
  have hmid : ∀ c t, isLineEnd c = false →
      splitlines (t ++ '\n' :: b) = splitlines (t ++ ['\n']) ++ splitlines b →
      splitlines (c :: t ++ '\n' :: b) = splitlines (c :: t ++ ['\n']) ++ splitlines b := by
    intro c t hc ih
    rw [List.cons_append, List.cons_append, splitlines_cons_of_not_lineEnd hc,
      splitlines_cons_of_not_lineEnd hc, ih]
    obtain ⟨l, ls, hl⟩ :=
      List.exists_cons_of_ne_nil (splitlines_ne_nil (t := t ++ ['\n']) (by simp))
    rw [hl]
    rfl
  induction a using splitlines.induct with
  | case1 => rw [List.nil_append, List.nil_append, h0, h0]; rfl
  | case2 t ih => simp only [List.cons_append, splitlines, ih]
  | case3 c t hne hc ih =>
    by_cases hr : c = '\r' ∧ t = []
    · obtain ⟨rfl, rfl⟩ := hr
      rfl
    · by_cases ht : t = []
      · subst ht
        have hcn : ∀ y, splitlines (c :: '\n' :: y) = [] :: splitlines ('\n' :: y) := fun y => by
          rw [splitlines, if_pos hc]
          rintro t' rfl
          exact absurd ⟨rfl, rfl⟩ hr
        simp only [List.cons_append, List.nil_append, hcn, h0]
        rfl
      · obtain ⟨d, t, rfl⟩ := List.exists_cons_of_ne_nil ht
        by_cases hd : c = '\r' ∧ d = '\n'
        · obtain ⟨rfl, rfl⟩ := hd
          exact absurd rfl (hne t rfl)
        · have hcd : ∀ y, splitlines (c :: d :: y) = [] :: splitlines (d :: y) := fun y => by
            rw [splitlines, if_pos hc]
            rintro t' rfl he
            exact hd ⟨rfl, (List.cons.inj he).1⟩
          simp only [List.cons_append, hcd] at ih ⊢
          rw [ih]
  | case4 c t hne hc hnil ih => exact hmid c t (by simpa using hc) ih
  | case5 c t hne hc l' ls hl ih => exact hmid c t (by simpa using hc) ih

/-- The lines `splitlines` gives hold no line end. -/
theorem oneLine_of_mem_splitlines {t l : Text} (h : l ∈ splitlines t) : OneLine l := by
  induction t using splitlines.induct generalizing l with
  | case1 => simp [splitlines] at h
  | case2 t ih =>
    rw [splitlines, List.mem_cons] at h
    rcases h with rfl | h
    · intro c hc; cases hc
    · exact ih h
  | case3 c t hne hc ih =>
    rw [splitlines, if_pos hc, List.mem_cons] at h
    · rcases h with rfl | h
      · intro c hc; cases hc
      · exact ih h
    · exact hne
  | case4 c t hne hc hnil ih =>
    rw [splitlines, if_neg hc, hnil] at h
    · simp only [List.mem_singleton] at h
      subst h
      intro d hd
      rw [List.mem_singleton.mp hd]
      simpa using hc
    · exact hne
  | case5 c t hne hc l' ls hl ih =>
    rw [splitlines, if_neg hc, hl] at h
    · rcases List.mem_cons.mp h with rfl | h
      · intro d hd
        rcases List.mem_cons.mp hd with rfl | hd
        · simpa using hc
        · exact ih (hl ▸ List.mem_cons_self ..) d hd
      · exact ih (hl ▸ List.mem_cons_of_mem _ h)
    · exact hne

theorem join_concat (ls : List Text) (l : Text) : join ['\n'] (ls ++ [l]) = unlines ls ++ l := by
  induction ls with
  | nil => simp [join]
  | cons m ms ih =>
    cases ms with
    | nil => simp [join, List.intercalate]
    | cons n ns =>
      rw [List.cons_append, List.cons_append, join_cons_cons, ← List.cons_append, ih]
      simp

/-- Lines joined, and a line end behind them. -/
theorem join_append_newline {ls : List Text} (h : ls ≠ []) :
    join ['\n'] ls ++ ['\n'] = unlines ls := by
  obtain ⟨ms, l, rfl⟩ : ∃ ms l, ls = ms ++ [l] := ⟨_, _, (List.dropLast_concat_getLast h).symm⟩
  rw [join_concat, unlines_append]
  simp

/-- A text whose only line ends are line feeds, as lines and a rest. -/
theorem exists_unlines {t : Text} (h : ∀ c ∈ t, isLineEnd c = true → c = '\n') :
    ∃ ls l, t = unlines ls ++ l ∧ (∀ m ∈ ls, OneLine m) ∧ OneLine l := by
  induction t with
  | nil => exact ⟨[], [], rfl, by simp, by intro c hc; cases hc⟩
  | cons c t ih =>
    obtain ⟨ls, l, rfl, hls, hl⟩ := ih fun d hd => h d (List.mem_cons_of_mem _ hd)
    by_cases hc : isLineEnd c = true
    · obtain rfl := h c (List.mem_cons_self ..) hc
      exact ⟨[] :: ls, l, rfl, by simpa [OneLine] using hls, hl⟩
    · have hcons : ∀ m, OneLine m → OneLine (c :: m) := fun m hm d hd => by
        rcases List.mem_cons.mp hd with rfl | hd
        · simpa using hc
        · exact hm d hd
      cases ls with
      | nil => exact ⟨[], c :: l, rfl, by simp, hcons l hl⟩
      | cons m ms =>
        refine ⟨(c :: m) :: ms, l, by simp, fun x hx => ?_, hl⟩
        rcases List.mem_cons.mp hx with rfl | hx
        · exact hcons m (hls m (List.mem_cons_self ..))
        · exact hls x (List.mem_cons_of_mem _ hx)

/-- A text that is the same when its lines are joined again: its only line ends are line
feeds, and it has none at either end. -/
structure Plain (t : Text) : Prop where
  lf : ∀ c ∈ t, isLineEnd c = true → c = '\n'
  head : t.head? ≠ some '\n'
  last : t.getLast? ≠ some '\n'

instance (t : Text) : Decidable (Plain t) :=
  have : Decidable (∀ c ∈ t, isLineEnd c = true → c = '\n') := List.decidableBAll _ t
  decidable_of_iff ((∀ c ∈ t, isLineEnd c = true → c = '\n') ∧ t.head? ≠ some '\n' ∧
    t.getLast? ≠ some '\n')
    ⟨fun h => ⟨h.1, h.2.1, h.2.2⟩, fun h => ⟨h.1, h.2, h.3⟩⟩

/-- A plain text that is not empty is its lines joined, with or without a line end behind
it. -/
theorem Plain.exists_lines {t : Text} (h : Plain t) (hne : t ≠ []) :
    ∃ ls, t = join ['\n'] ls ∧ splitlines t = ls ∧ splitlines (t ++ ['\n']) = ls := by
  obtain ⟨ls, l, rfl, hls, hl⟩ := exists_unlines h.lf
  have hlne : l ≠ [] := by
    rintro rfl
    rw [List.append_nil] at hne h
    obtain ⟨ms, m, rfl⟩ : ∃ ms m, ls = ms ++ [m] := by
      have hls' : ls ≠ [] := by
        rintro rfl
        exact hne rfl
      exact ⟨_, _, (List.dropLast_concat_getLast hls').symm⟩
    exact h.last (by rw [unlines_append]; simp)
  refine ⟨ls ++ [l], (join_concat ls l).symm, ?_, ?_⟩
  · rw [splitlines_unlines_append hls, splitlines_oneLine hl hlne]
  · have hlast : splitlines (l ++ ['\n']) = [l] := splitlines_append_newline (t := []) hl
    rw [List.append_assoc, splitlines_unlines_append hls, hlast]

/-! ### `replace` and `count` -/

/-- `t.replace(old, new)` for a non-empty `old`: left to right, without overlaps. The
first argument counts the characters of an occurrence still to be dropped. -/
def replaceFrom (old new : Text) : ℕ → Text → Text
  | _, [] => []
  | n + 1, _ :: t => replaceFrom old new n t
  | 0, c :: t =>
      if old.isPrefixOf (c :: t) then new ++ replaceFrom old new (old.length - 1) t
      else c :: replaceFrom old new 0 t

/-- `t.replace(old, new)`, `old` not empty. -/
def replaceAll (old new t : Text) : Text := replaceFrom old new 0 t

/-- `t.replace(a, b)` of one character by another. -/
def replaceChar (a b : Char) (t : Text) : Text := t.map fun c => if c = a then b else c

/-- `t.count(old)` for a non-empty `old`: occurrences that do not overlap. -/
def countFrom (old : Text) : ℕ → Text → ℕ
  | _, [] => 0
  | n + 1, _ :: t => countFrom old n t
  | 0, c :: t =>
    if old.isPrefixOf (c :: t) then countFrom old (old.length - 1) t + 1 else countFrom old 0 t

/-- `t.count(old)`, `old` not empty. -/
def count (old t : Text) : ℕ := countFrom old 0 t

/-- What a replacement is made of. -/
theorem mem_replaceFrom {old new : Text} {c : Char} : ∀ {n : ℕ} {t : Text},
    c ∈ replaceFrom old new n t → c ∈ new ∨ c ∈ t
  | _, [], h => by simp [replaceFrom] at h
  | n + 1, d :: t, h => (mem_replaceFrom (n := n) h).imp_right (List.mem_cons_of_mem _)
  | 0, d :: t, h => by
    rw [replaceFrom] at h
    split_ifs at h
    · rcases List.mem_append.mp h with h | h
      · exact Or.inl h
      · exact (mem_replaceFrom h).imp_right (List.mem_cons_of_mem _)
    · rcases List.mem_cons.mp h with rfl | h
      · exact Or.inr (List.mem_cons_self ..)
      · exact (mem_replaceFrom h).imp_right (List.mem_cons_of_mem _)

/-- A character that is not in what is replaced stays. -/
theorem mem_replaceFrom_of_notMem {o : Char} {old new : Text} {c : Char} (hc : c ∉ o :: old) :
    ∀ {n : ℕ} {t : Text},
    (∀ d ∈ t.take n, d ∈ o :: old) → c ∈ t → c ∈ replaceFrom (o :: old) new n t
  | _, [], _, h => by cases h
  | n + 1, d :: t, hn, h => by
    have hd : c ≠ d := by
      rintro rfl
      exact hc (hn c (by simp))
    rw [replaceFrom]
    exact mem_replaceFrom_of_notMem hc (fun e he => hn e (by simp [he]))
      ((List.mem_cons.mp h).resolve_left hd)
  | 0, d :: t, _, h => by
    rw [replaceFrom]
    split_ifs with hp
    · obtain ⟨r, hr⟩ := List.isPrefixOf_iff_prefix.mp hp
      obtain ⟨rfl, rfl⟩ := List.cons.inj hr
      have hd : c ≠ o := by
        rintro rfl
        exact hc List.mem_cons_self
      refine List.mem_append_right _
        (mem_replaceFrom_of_notMem hc ?_ ((List.mem_cons.mp h).resolve_left hd))
      intro e he
      have hold : e ∈ (old ++ r).take old.length := he
      rw [List.take_left] at hold
      exact List.mem_cons_of_mem o hold
    · rcases List.mem_cons.mp h with rfl | h
      · exact List.mem_cons_self
      · exact List.mem_cons_of_mem _ (mem_replaceFrom_of_notMem hc (by simp) h)

theorem oneLine_replaceAll {old new t : Text} (hn : OneLine new) (ht : OneLine t) :
    OneLine (replaceAll old new t) := fun c hc => (mem_replaceFrom hc).elim (hn c) (ht c)

/-! ### Runs of a character class -/

/-- `re.sub(r"[p]+", r, t)`: every maximal run of characters in `p` becomes one `r`. The
first argument says that the character before was in the run. -/
def collapseFrom (p : Char → Bool) (r : Char) : Bool → Text → Text
  | _, [] => []
  | inRun, c :: t =>
      if p c then if inRun then collapseFrom p r true t else r :: collapseFrom p r true t
      else c :: collapseFrom p r false t

/-- `re.sub(r"[p]+", r, t)`. -/
def collapse (p : Char → Bool) (r : Char) (t : Text) : Text := collapseFrom p r false t

/-- What a collapsed text is made of. -/
theorem mem_collapseFrom {p : Char → Bool} {r c : Char} : ∀ {b : Bool} {t : Text},
    c ∈ collapseFrom p r b t → c = r ∨ p c = false ∧ c ∈ t
  | _, [], h => by simp [collapseFrom] at h
  | b, d :: t, h => by
    rw [collapseFrom] at h
    split_ifs at h with hd hb
    · exact (mem_collapseFrom h).imp_right fun h => ⟨h.1, List.mem_cons_of_mem _ h.2⟩
    · rcases List.mem_cons.mp h with rfl | h
      · exact Or.inl rfl
      · exact (mem_collapseFrom h).imp_right fun h => ⟨h.1, List.mem_cons_of_mem _ h.2⟩
    · rcases List.mem_cons.mp h with rfl | h
      · exact Or.inr ⟨by simpa using hd, List.mem_cons_self ..⟩
      · exact (mem_collapseFrom h).imp_right fun h => ⟨h.1, List.mem_cons_of_mem _ h.2⟩

/-- A collapsed text has no two `r` in a row, and after a run it does not begin with
one. -/
theorem not_infix_collapseFrom {p : Char → Bool} {r : Char} (hr : p r = true) :
    ∀ (b : Bool) (t : Text),
    ¬ [r, r] <:+: collapseFrom p r b t ∧ (b = true → ¬ [r] <+: collapseFrom p r b t)
  | _, [] => by simp [collapseFrom]
  | b, c :: t => by
    rw [collapseFrom]
    split_ifs with hc hb
    · exact ⟨(not_infix_collapseFrom hr true t).1,
        fun _ => (not_infix_collapseFrom hr true t).2 rfl⟩
    · refine ⟨?_, fun h => absurd h hb⟩
      rw [List.infix_cons_iff, not_or, List.cons_prefix_cons]
      exact ⟨fun h => (not_infix_collapseFrom hr true t).2 rfl h.2,
        (not_infix_collapseFrom hr true t).1⟩
    · have hcr : r ≠ c := by rintro rfl; exact hc hr
      refine ⟨?_, fun _ => by simp [List.cons_prefix_cons, hcr]⟩
      rw [List.infix_cons_iff, not_or, List.cons_prefix_cons]
      exact ⟨fun h => hcr h.1, (not_infix_collapseFrom hr false t).1⟩

theorem mem_collapse {p : Char → Bool} {r c : Char} {t : Text} (h : c ∈ collapse p r t) :
    c = r ∨ p c = false ∧ c ∈ t := mem_collapseFrom h

theorem not_infix_collapse {p : Char → Bool} {r : Char} (hr : p r = true) (t : Text) :
    ¬ [r, r] <:+: collapse p r t := (not_infix_collapseFrom hr false t).1

end Python
