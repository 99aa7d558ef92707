import OracleSkills.Python.Lines

/-!
# Words

The words of a text are its maximal runs of the characters that `p` accepts: what is left of it when
it is split at all the others, without the empty pieces. `stripBy_collapse` says what `re.sub` of
the runs between them by one character and a `strip` of that character give together, which is the
words joined by it.

`str.lower` goes by the character data of Unicode, which are the parameter `CaseMap`: it gives for
each character what stands for it, except that a capital sigma depends on the text around it.
-/

namespace Python

section

variable {p : Char → Bool} {r : Char}

/-- The maximal runs of characters that `p` accepts. -/
def runs (p : Char → Bool) (t : Text) : List Text := (t.splitOnP fun c => !p c).filter (· ≠ [])

@[simp] theorem runs_nil (p : Char → Bool) : runs p [] = [] := rfl

/-- **The words part at a character that is in none.** -/
theorem runs_append_cons {c : Char} (hc : p c = false) (x y : Text) :
    runs p (x ++ c :: y) = runs p x ++ runs p y := by
  rw [runs, List.splitOnP_append_cons _ _ (by rw [hc]; rfl), List.filter_append]
  rfl

theorem runs_cons {c : Char} (hc : p c = false) (t : Text) :
    runs p (c :: t) = runs p t := runs_append_cons hc [] t

/-- A text of words' characters is one word. -/
theorem runs_eq_singleton {w : Text} (hne : w ≠ []) (hw : ∀ c ∈ w, p c = true) :
    runs p w = [w] := by
  rw [runs, List.splitOnP_eq_singleton fun c hc => by rw [hw c hc]; rfl]
  simp [hne]

/-- What is in no word does not matter at the front, -/
theorem runs_append_left {x : Text} (hx : ∀ c ∈ x, p c = false) (t : Text) :
    runs p (x ++ t) = runs p t := by
  induction x with
  | nil => rfl
  | cons c x ih =>
    rw [List.cons_append, runs_cons (hx c (List.mem_cons_self ..))]
    exact ih fun d hd => hx d (List.mem_cons_of_mem _ hd)

/-- and not at the end. -/
theorem runs_append_right {y : Text} (hy : ∀ c ∈ y, p c = false) (t : Text) :
    runs p (t ++ y) = runs p t := by
  cases y with
  | nil => rw [List.append_nil]
  | cons c y =>
    rw [runs_append_cons (hy c (List.mem_cons_self ..)), ← List.append_nil y,
      runs_append_left fun d hd => hy d (List.mem_cons_of_mem _ hd), runs_nil, List.append_nil]

/-- A text is without words, or begins with one, after characters that are in none. -/
theorem exists_run (p : Char → Bool) (t : Text) : (∀ c ∈ t, p c = false) ∨
    ∃ x w y, t = x ++ (w ++ y) ∧ (∀ c ∈ x, p c = false) ∧ w ≠ [] ∧ (∀ c ∈ w, p c = true) ∧
        ∀ c, y.head? = some c → p c = false := by
  by_cases hall : ∀ c ∈ t, p c = false
  · exact Or.inl hall
  have hne : t.dropWhile (fun c => !p c) ≠ [] := by
    intro hnil
    rw [List.dropWhile_eq_nil_iff] at hnil
    exact hall fun c hc => by simpa using hnil c hc
  refine Or.inr ⟨t.takeWhile (fun c => !p c), (t.dropWhile fun c => !p c).takeWhile p,
    (t.dropWhile fun c => !p c).dropWhile p, by rw [List.takeWhile_append_dropWhile,
      List.takeWhile_append_dropWhile], fun c hc => ?_, fun hnil => ?_,
    fun c hc => List.mem_takeWhile_imp hc, fun c hc => ?_⟩
  · simpa using List.mem_takeWhile_imp hc
  · have hfirst := List.head_dropWhile_not (fun c => !p c) hne
    rw [Bool.not_eq_false'] at hfirst
    obtain ⟨d, ds, hd⟩ := List.exists_cons_of_ne_nil hne
    simp only [hd, List.head_cons] at hfirst
    rw [hd, List.takeWhile_cons, hfirst] at hnil
    cases hnil
  · have hrest : (t.dropWhile fun c => !p c).dropWhile p ≠ [] := by
      intro hnil
      rw [hnil] at hc
      cases hc
    have hlast := List.head_dropWhile_not p hrest
    rw [List.head?_eq_some_head hrest, Option.some.injEq] at hc
    rwa [hc] at hlast

/-- The words of a text that begins with one. -/
theorem runs_append_of_run {w y : Text} (hne : w ≠ []) (hw : ∀ c ∈ w, p c = true)
    (hy : ∀ c, y.head? = some c → p c = false) :
    runs p (w ++ y) = w :: runs p y := by
  cases y with
  | nil => rw [List.append_nil, runs_eq_singleton hne hw, runs_nil]
  | cons c y =>
    have hc := hy c rfl
    rw [runs_append_cons hc, runs_eq_singleton hne hw, runs_cons hc]
    rfl

/-- A word is not empty, and is made of words' characters. -/
theorem of_mem_runs {t w : Text} (h : w ∈ runs p t) : w ≠ [] ∧ ∀ c ∈ w, p c = true := by
  generalize hn : t.length = n
  induction n using Nat.strong_induction_on generalizing t with
  | _ n ih =>
    rcases exists_run p t with hall | ⟨x, v, y, rfl, hx, hne, hv, hy⟩
    · rw [← List.append_nil t, runs_append_left hall] at h
      cases h
    · rw [runs_append_left hx, runs_append_of_run hne hv hy] at h
      rcases List.mem_cons.mp h with rfl | h
      · exact ⟨hne, hv⟩
      · have hpos := List.length_pos_iff.mpr hne
        exact ih y.length (by simp only [List.length_append] at hn; omega) h rfl

/-! ### Joined words -/

/-- The words of joined words are these. -/
theorem runs_join (hr : p r = false) {ws : List Text}
    (hws : ∀ w ∈ ws, w ≠ [] ∧ ∀ c ∈ w, p c = true) :
    runs p (join [r] ws) = ws := by
  induction ws with
  | nil => rfl
  | cons w ws ih =>
    obtain ⟨hne, hw⟩ := hws w (List.mem_cons_self ..)
    cases ws with
    | nil => simpa [join] using runs_eq_singleton hne hw
    | cons v ws =>
      rw [join_cons_cons, List.append_assoc, List.singleton_append, runs_append_cons hr,
        runs_eq_singleton hne hw, ih fun u hu => hws u (List.mem_cons_of_mem _ hu)]
      rfl

/-- Joined words do not begin with what joins them. -/
theorem head?_join_ne {ws : List Text} (hws : ∀ w ∈ ws, w ≠ [] ∧ r ∉ w) :
    (join [r] ws).head? ≠ some r := by
  cases ws with
  | nil => simp [join]
  | cons w ws =>
    obtain ⟨hne, hw⟩ := hws w (List.mem_cons_self ..)
    obtain ⟨c, w, rfl⟩ := List.exists_cons_of_ne_nil hne
    intro h
    have hhead : (join [r] ((c :: w) :: ws)).head? = some c := by
      cases ws with
      | nil => simp [join]
      | cons v ws => rw [join_cons_cons]; rfl
    rw [hhead, Option.some.injEq] at h
    exact hw (h ▸ List.mem_cons_self ..)

/-- They do not end with it. -/
theorem getLast?_join_ne {ws : List Text} (hws : ∀ w ∈ ws, w ≠ [] ∧ r ∉ w) :
    (join [r] ws).getLast? ≠ some r := by
  induction ws with
  | nil => simp [join]
  | cons w ws ih =>
    obtain ⟨hne, hw⟩ := hws w (List.mem_cons_self ..)
    cases ws with
    | nil =>
      intro h
      rw [join, List.intercalate_singleton] at h
      exact hw (List.mem_of_getLast? h)
    | cons v ws =>
      have hrest : join [r] (v :: ws) ≠ [] := by
        obtain ⟨hv, -⟩ := hws v (List.mem_cons_of_mem _ (List.mem_cons_self ..))
        cases ws with
        | nil => simpa [join] using hv
        | cons u us =>
          rw [join_cons_cons]
          simp
      rw [join_cons_cons, List.getLast?_append_of_ne_nil _ hrest]
      exact ih fun u hu => hws u (List.mem_cons_of_mem _ hu)

/-- Behind a character that is in no word, others of that kind do not matter, -/
theorem collapseFrom_append_left (r : Char) {x : Text} (hx : ∀ c ∈ x, p c = false) (t : Text) :
    collapseFrom (fun c => !p c) r true (x ++ t) = collapseFrom (fun c => !p c) r true t := by
  induction x with
  | nil => rfl
  | cons c x ih =>
    have hc := hx c (List.mem_cons_self ..)
    rw [List.cons_append, collapseFrom, if_pos (by rw [hc]; rfl), if_pos rfl]
    exact ih fun d hd => hx d (List.mem_cons_of_mem _ hd)

/-- and a word stays as it is. -/
theorem collapseFrom_word (r : Char) {w : Text} (hw : ∀ c ∈ w, p c = true) (hne : w ≠ []) (b : Bool)
    (t : Text) :
    collapseFrom (fun c => !p c) r b (w ++ t) = w ++ collapseFrom (fun c => !p c) r false t := by
  induction w generalizing b with
  | nil => exact absurd rfl hne
  | cons c w ih =>
    have hc := hw c (List.mem_cons_self ..)
    rw [List.cons_append, collapseFrom, if_neg (by rw [hc]; decide)]
    cases w with
    | nil => rfl
    | cons d w =>
      rw [ih (fun e he => hw e (List.mem_cons_of_mem _ he)) (List.cons_ne_nil _ _)]
      rfl

/-- After a run, a text collapses to its words joined, and perhaps a run at its end. -/
theorem exists_collapseFrom (p : Char → Bool) (r : Char) (t : Text) :
    ∃ tail, (tail = [] ∨ tail = [r]) ∧
      collapseFrom (fun c => !p c) r true t = join [r] (runs p t) ++ tail ∧
      (runs p t = [] → tail = []) := by
  generalize hn : t.length = n
  induction n using Nat.strong_induction_on generalizing t with
  | _ n ih =>
    rcases exists_run p t with hall | ⟨x, w, y, rfl, hx, hne, hw, hy⟩
    · have hnil : runs p t = [] := by rw [← List.append_nil t, runs_append_left hall, runs_nil]
      refine ⟨[], Or.inl rfl, ?_, fun _ => rfl⟩
      rw [hnil, ← List.append_nil t, collapseFrom_append_left r hall]
      rfl
    · rw [runs_append_left hx, runs_append_of_run hne hw hy, collapseFrom_append_left r hx,
        collapseFrom_word r hw hne]
      cases y with
      | nil => exact ⟨[], Or.inl rfl, by simp [collapseFrom, join], fun _ => rfl⟩
      | cons c y =>
        have hc := hy c rfl
        obtain ⟨tail, htail, heq, hnil⟩ := ih y.length
          (by simp only [List.length_append, List.length_cons] at hn; omega) y rfl
        rw [collapseFrom, if_pos (by rw [hc]; rfl), if_neg Bool.false_ne_true, heq, runs_cons hc]
        cases hruns : runs p y with
        | nil =>
          rw [hnil hruns]
          exact ⟨[r], Or.inr rfl, by simp [join], fun h => by cases h⟩
        | cons v vs =>
          refine ⟨tail, htail, ?_, fun h => by cases h⟩
          rw [join_cons_cons]
          simp

/-- `r` is at neither end of the words joined by it, so that only an `r` before and behind them is
taken off. -/
theorem stripBy_join_runs (hr : p r = false) {front tail : Text} (hfront : front = [] ∨ front = [r])
    (htail : tail = [] ∨ tail = [r])
    (t : Text) :
    stripBy (· = r) (front ++ (join [r] (runs p t) ++ tail)) = join [r] (runs p t) := by
  have hall : ∀ x : Text, (x = [] ∨ x = [r]) → ∀ c ∈ x, decide (c = r) = true := by
    rintro x (rfl | rfl) c hc
    · cases hc
    · exact decide_eq_true (List.mem_singleton.mp hc)
  have hws : ∀ w ∈ runs p t, w ≠ [] ∧ r ∉ w := by
    intro w hw
    obtain ⟨hne, hmem⟩ := of_mem_runs hw
    refine ⟨hne, fun h => ?_⟩
    rw [hmem r h] at hr
    cases hr
  rw [stripBy_append_left (hall front hfront), stripBy_append_right (hall tail htail)]
  refine stripBy_eq_self (fun c hc => ?_) fun c hc => ?_
  · apply decide_eq_false
    rintro rfl
    exact head?_join_ne hws hc
  · apply decide_eq_false
    rintro rfl
    exact getLast?_join_ne hws hc

/-- **Runs of all other characters made one `r`, and `r` taken off the ends**: the words joined by
`r`. -/
theorem stripBy_collapse (hr : p r = false) (t : Text) :
    stripBy (· = r) (collapse (fun c => !p c) r t) = join [r] (runs p t) := by
  cases t with
  | nil => rfl
  | cons c t =>
    rw [collapse, collapseFrom]
    by_cases hc : p c = true
    · obtain ⟨tail, htail, heq, -⟩ := exists_collapseFrom p r (c :: t)
      rw [collapseFrom, if_neg (by simp [hc])] at heq
      rw [if_neg (by simp [hc]), heq]
      exact stripBy_join_runs hr (Or.inl rfl) htail _
    · obtain ⟨tail, htail, heq, -⟩ := exists_collapseFrom p r t
      rw [if_pos (by simpa using hc), if_neg Bool.false_ne_true, heq,
        ← runs_cons (c := c) (by simpa using hc)]
      exact stripBy_join_runs hr (Or.inr rfl) htail _

/-- What is in no run stays. -/
theorem mem_collapse_of {c : Char} (hc : p c = false) {t : Text} (h : c ∈ t) :
    c ∈ collapse p r t := by
  have hgo : ∀ b, c ∈ collapseFrom p r b t := by
    induction t with
    | nil => cases h
    | cons d t ih =>
      intro b
      rw [collapseFrom]
      rcases List.mem_cons.mp h with rfl | h
      · rw [if_neg (by rw [hc]; decide)]
        exact List.mem_cons_self ..
      · split_ifs
        · exact ih h true
        · exact List.mem_cons_of_mem _ (ih h true)
        · exact List.mem_cons_of_mem _ (ih h false)
  exact hgo false

/-- A text in which nothing is to be collapsed. -/
theorem collapse_eq_self (hr : p r = true) {t : Text} (hmem : ∀ c ∈ t, c = r ∨ p c = false)
    (hdouble : ¬ [r, r] <:+: t) :
    collapse p r t = t := by
  have hgo : ∀ (t : Text) (b : Bool), (∀ c ∈ t, c = r ∨ p c = false) → ¬ [r, r] <:+: t →
      (b = true → t.head? ≠ some r) →
      collapseFrom p r b t = t := by
    intro t
    induction t with
    | nil => exact fun _ _ _ _ => rfl
    | cons c t ih =>
      intro b hmem hdouble hhead
      have hrest := fun d hd => hmem d (List.mem_cons_of_mem _ hd)
      have hinfix : ¬ [r, r] <:+: t := fun h => hdouble (h.trans (List.suffix_cons c t).isInfix)
      rw [collapseFrom]
      rcases hmem c (List.mem_cons_self ..) with rfl | hc
      · have hb : ¬ b = true := fun hb => hhead hb rfl
        rw [if_pos hr, if_neg hb, ih true hrest hinfix]
        intro _ hnext
        obtain ⟨d, t, rfl⟩ : ∃ d s, t = d :: s := by
          cases t with
          | nil => cases hnext
          | cons d s => exact ⟨d, s, rfl⟩
        obtain rfl := Option.some.inj hnext
        exact hdouble ⟨[], t, rfl⟩
      · rw [if_neg (by simp [hc]), ih false hrest hinfix fun h => by cases h]
  exact hgo t false hmem hdouble fun h => by cases h

end

/-! ### The last place of a character -/

theorem rfind_append_cons {c : Char} {b : Text} (hb : c ∉ b) (a : Text) :
    rfind c (a ++ c :: b) = some a.length := by
  have hfirst : (b.reverse ++ c :: a.reverse).findIdx? (· = c) = some b.length := by
    rw [List.findIdx?_append, List.findIdx?_eq_none_iff.mpr fun d hd => decide_eq_false ?_]
    · simp [List.findIdx?_cons]
    · rintro rfl
      exact hb (List.mem_reverse.mp hd)
  rw [rfind, List.reverse_append, List.reverse_cons, List.append_assoc, List.singleton_append,
    hfirst, Option.map_some, Option.some.injEq, List.length_append, List.length_cons]
  omega

/-- A character that is there has a last place. -/
theorem exists_rfind {c : Char} {t : Text} (h : c ∈ t) :
    ∃ a b, t = a ++ c :: b ∧ c ∉ b ∧ rfind c t = some a.length := by
  obtain ⟨b, a, heq, hb⟩ := List.eq_append_cons_of_mem (List.mem_reverse.mpr h)
  have ht : t = a.reverse ++ c :: b.reverse := by
    rw [← List.reverse_reverse t, heq]
    simp
  refine ⟨a.reverse, b.reverse, ht, fun hmem => hb (List.mem_reverse.mp hmem), ?_⟩
  rw [ht]
  exact rfind_append_cons (fun hmem => hb (List.mem_reverse.mp hmem)) _

/-! ### Lower case -/

/-- A character that is no capital of ASCII stays as it is. -/
theorem toLower_eq_self {c : Char} (h : ¬ (65 ≤ c.toNat ∧ c.toNat ≤ 90)) : c.toLower = c := by
  have hupper : ¬ (c.val ≥ 'A'.val ∧ c.val ≤ 'Z'.val) := by
    rw [ge_iff_le, UInt32.le_iff_toNat_le, UInt32.le_iff_toNat_le]
    exact h
  exact dif_neg hupper

/-- The lower case of the characters of Unicode. `str.lower` makes a capital sigma a final one or
not by the text before it and the text behind it. -/
structure CaseMap where
  lowerChar : Char → Text
  finalSigma : Text → Text → Bool
  ascii : ∀ c : Char, c.toNat < 128 → lowerChar c = [c.toLower]
  space : ∀ c : Char, isSpace c = true → lowerChar c = [c]

namespace CaseMap

/-- `str.lower` from a place on, with the text before it. -/
def lowerFrom (C : CaseMap) (before : Text) : Text → Text
  | [] => []
  | c :: t =>
    (if c = 'Σ' then [if C.finalSigma before t then 'ς' else 'σ'] else C.lowerChar c) ++
      C.lowerFrom (before ++ [c]) t

/-- `t.lower()`. -/
def lower (C : CaseMap) (t : Text) : Text := C.lowerFrom [] t

/-- The lower case of a character that is not looked at in its text. -/
def plain (C : CaseMap) (c : Char) : Text := if c = 'Σ' then ['σ'] else C.lowerChar c

section

variable {C : CaseMap} {p : Char → Bool}

/-- Which sigma it is makes no difference to words without sigmas. -/
theorem runs_lowerFrom (hσ : p 'σ' = false) (hς : p 'ς' = false) (before front t : Text) :
    runs p (front ++ C.lowerFrom before t) = runs p (front ++ t.flatMap C.plain) := by
  induction t generalizing before front with
  | nil => rfl
  | cons c t ih =>
    rw [lowerFrom, List.flatMap_cons, plain]
    split_ifs with hc hfinal
    · rw [List.singleton_append, List.singleton_append, runs_append_cons hς, runs_append_cons hσ]
      exact congrArg _ (ih (before ++ [c]) [])
    · rw [List.singleton_append, List.singleton_append, runs_append_cons hσ, runs_append_cons hσ]
      exact congrArg _ (ih (before ++ [c]) [])
    · rw [← List.append_assoc, ← List.append_assoc]
      exact ih (before ++ [c]) (front ++ C.lowerChar c)

theorem flatMap_plain_of_space {t : Text} (ht : ∀ c ∈ t, isSpace c = true) :
    t.flatMap C.plain = t := by
  induction t with
  | nil => rfl
  | cons c t ih =>
    have hc := ht c (List.mem_cons_self ..)
    have hne : c ≠ 'Σ' := by
      rintro rfl
      exact absurd hc (by decide)
    rw [List.flatMap_cons, plain, if_neg hne, C.space c hc,
      ih fun d hd => ht d (List.mem_cons_of_mem _ hd)]
    rfl

/-- **White space at the ends of a text** does not matter to the words of its lower case. -/
theorem runs_lower_strip (hσ : p 'σ' = false) (hς : p 'ς' = false)
    (hspace : ∀ c, isSpace c = true → p c = false) (t : Text) :
    runs p (C.lower (strip t)) = runs p (C.lower t) := by
  obtain ⟨x, y, heq, hx, hy⟩ := exists_strip t
  have hplain : ∀ t, runs p (C.lower t) = runs p (t.flatMap C.plain) := runs_lowerFrom hσ hς [] []
  rw [hplain, hplain]
  conv_rhs => rw [heq]
  rw [List.flatMap_append, List.flatMap_append, flatMap_plain_of_space hx,
    flatMap_plain_of_space hy,
    runs_append_right fun c hc => hspace c (hy c hc), runs_append_left fun c hc =>
      hspace c (hx c hc)]

/-- Lower-case characters of ASCII stay as they are. -/
theorem lower_eq_self {t : Text} (ht : ∀ c ∈ t, c.toNat < 128 ∧ c.toLower = c) : C.lower t = t := by
  have hgo : ∀ before, C.lowerFrom before t = t := by
    induction t with
    | nil => exact fun _ => rfl
    | cons c t ih =>
      intro before
      obtain ⟨hc, hlow⟩ := ht c (List.mem_cons_self ..)
      have hne : c ≠ 'Σ' := by
        rintro rfl
        exact absurd hc (by decide)
      rw [lowerFrom, if_neg hne, C.ascii c hc, hlow,
        ih fun d hd => ht d (List.mem_cons_of_mem _ hd)]
      rfl
  exact hgo []

end

end CaseMap

end Python
