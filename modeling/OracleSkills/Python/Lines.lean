import OracleSkills.Python.Text

/-!
# Lines that are joined again

`"\n".join(t.splitlines())` keeps the lines and puts a line feed for every line end: up to a last
line end it is `lfLines t` (`join_splitlines`). White space at the ends of a text does not matter to
`strip`, so that `strip (lfLines t)` is `lfLines (strip t)` (`strip_lfLines`), and lines that are
joined again are the same, stripped, exactly if there is no other line end inside.
-/

namespace Python

/-! ### `strip` and the ends of a text -/

section

variable {p : Char → Bool}

theorem stripBy_append_left {x : Text} (hx : ∀ c ∈ x, p c = true) (t : Text) :
    stripBy p (x ++ t) = stripBy p t := by
  rw [stripBy, stripBy, List.dropWhile_append_of_pos hx]

theorem rdropWhile_append_right {y : Text} (hy : ∀ c ∈ y, p c = true) (t : Text) :
    (t ++ y).rdropWhile p = t.rdropWhile p := by
  have hrev : ∀ c ∈ y.reverse, p c = true := fun c hc => hy c (List.mem_reverse.mp hc)
  rw [List.rdropWhile, List.rdropWhile, List.reverse_append, List.dropWhile_append_of_pos hrev]

theorem stripBy_append_right {y : Text} (hy : ∀ c ∈ y, p c = true) (t : Text) :
    stripBy p (t ++ y) = stripBy p t := by
  rw [stripBy, stripBy, List.dropWhile_append]
  split_ifs with hnil
  · have ht : t.dropWhile p = [] := by simpa using hnil
    rw [ht, ← List.nil_append (y.dropWhile p)]
    exact rdropWhile_append_right (fun c hc => hy c ((List.dropWhile_suffix _).subset hc)) []
  · exact rdropWhile_append_right hy _

/-- A text is what is stripped off on the left, what is left of it, and what is stripped off on the
right. -/
theorem exists_stripBy (p : Char → Bool) (t : Text) :
    ∃ x y, t = x ++ stripBy p t ++ y ∧ (∀ c ∈ x, p c = true) ∧ ∀ c ∈ y, p c = true := by
  refine ⟨t.takeWhile p, (t.dropWhile p).rtakeWhile p, ?_, fun c hc => List.mem_takeWhile_imp hc,
    fun c hc => ?_⟩
  · rw [stripBy, List.append_assoc, List.rdropWhile_append_rtakeWhile,
      List.takeWhile_append_dropWhile]
  · exact List.mem_rtakeWhile_imp hc

end

theorem strip_append_left {x : Text} (hx : ∀ c ∈ x, isSpace c = true) (t : Text) :
    strip (x ++ t) = strip t :=
  stripBy_append_left hx t

theorem strip_append_right {y : Text} (hy : ∀ c ∈ y, isSpace c = true) (t : Text) :
    strip (t ++ y) = strip t :=
  stripBy_append_right hy t

/-- A text is white space, what `strip` leaves, and white space. -/
theorem exists_strip (t : Text) :
    ∃ x y, t = x ++ strip t ++ y ∧ (∀ c ∈ x, isSpace c = true) ∧ ∀ c ∈ y, isSpace c = true :=
      exists_stripBy isSpace t

/-! ### Line feeds for line ends -/

/-- `t` with a line feed for every line end. -/
def lfLines : Text → Text
  | [] => []
  | '\r' :: '\n' :: t => '\n' :: lfLines t
  | c :: t => (if isLineEnd c then '\n' else c) :: lfLines t

theorem lfLines_cons {c : Char} {t : Text} (h : ¬ (c = '\r' ∧ t.head? = some '\n')) :
    lfLines (c :: t) = (if isLineEnd c then '\n' else c) :: lfLines t := by
  rw [lfLines]
  rintro t' rfl rfl
  exact h ⟨rfl, rfl⟩

theorem mem_lfLines {t : Text} {c : Char} (h : c ∈ lfLines t) :
    c = '\n' ∨ isLineEnd c = false ∧ c ∈ t := by
  induction t using lfLines.induct with
  | case1 => cases h
  | case2 t ih =>
    rw [lfLines, List.mem_cons] at h
    rcases h with rfl | h
    · exact Or.inl rfl
    · exact (ih h).imp_right fun h => ⟨h.1, List.mem_cons_of_mem _ (List.mem_cons_of_mem _ h.2)⟩
  | case3 d t hne ih =>
    rw [lfLines, List.mem_cons] at h
    · rcases h with rfl | h
      · split_ifs with hd
        · exact Or.inl rfl
        · exact Or.inr ⟨by simpa using hd, List.mem_cons_self ..⟩
      · exact (ih h).imp_right fun h => ⟨h.1, List.mem_cons_of_mem _ h.2⟩
    · exact hne

/-- The only line ends are line feeds. -/
def LfOnly (t : Text) : Prop := ∀ c ∈ t, isLineEnd c = true → c = '\n'

instance (t : Text) : Decidable (LfOnly t) := List.decidableBAll _ t

theorem lfOnly_lfLines (t : Text) : LfOnly (lfLines t) := by
  intro c hc hl
  rcases mem_lfLines hc with rfl | ⟨hno, -⟩
  · rfl
  · rw [hno] at hl
    cases hl

theorem lfLines_eq_self_iff {t : Text} : lfLines t = t ↔ LfOnly t := by
  refine ⟨fun h => h ▸ lfOnly_lfLines t, fun h => ?_⟩
  induction t with
  | nil => rfl
  | cons c t ih =>
    have hc : c ≠ '\r' := by
      rintro rfl
      exact absurd (h '\r' (List.mem_cons_self ..) (by decide)) (by decide)
    rw [lfLines_cons fun he => hc he.1, ih fun d hd => h d (List.mem_cons_of_mem _ hd)]
    split_ifs with hl
    · rw [h c (List.mem_cons_self ..) hl]
    · rfl

/-- Line ends are passed over one by one, unless `\r\n` is cut in two. -/
theorem lfLines_append {a b : Text} (h : ¬ (a.getLast? = some '\r' ∧ b.head? = some '\n')) :
    lfLines (a ++ b) = lfLines a ++ lfLines b := by
  induction a using lfLines.induct with
  | case1 => rfl
  | case2 a ih =>
    rw [List.cons_append, List.cons_append, lfLines, lfLines, ih, List.cons_append]
    rintro ⟨hlast, hhead⟩
    refine h ⟨?_, hhead⟩
    rw [List.getLast?_cons_cons, List.getLast?_cons, hlast]
    rfl
  | case3 c a hne ih =>
    have hcut : ¬ (c = '\r' ∧ (a ++ b).head? = some '\n') := by
      rintro ⟨rfl, hhead⟩
      cases a with
      | nil => exact h ⟨rfl, hhead⟩
      | cons d a =>
        rw [List.cons_append, List.head?_cons, Option.some.injEq] at hhead
        exact hne a rfl (congrArg (· :: a) hhead)
    have hcut' : ¬ (c = '\r' ∧ a.head? = some '\n') := by
      rintro ⟨rfl, hhead⟩
      refine hcut ⟨rfl, ?_⟩
      rw [List.head?_append, hhead]
      rfl
    rw [List.cons_append, lfLines_cons hcut, lfLines_cons hcut', ih, List.cons_append]
    rintro ⟨hlast, hhead⟩
    refine h ⟨?_, hhead⟩
    rw [List.getLast?_cons, hlast]
    rfl

/-- The lines are the same, -/
theorem splitlines_lfLines (t : Text) : splitlines (lfLines t) = splitlines t := by
  have hlf : ∀ s, splitlines ('\n' :: s) = [] :: splitlines s := fun s =>
    splitlines_append_newline (l := []) fun c hc => absurd hc List.not_mem_nil
  induction t using lfLines.induct with
  | case1 => rfl
  | case2 t ih => rw [lfLines, hlf, ih, splitlines]
  | case3 c t hne ih =>
    rw [lfLines]
    · split_ifs with hc
      · rw [hlf, ih, splitlines]
        · rw [if_pos hc]
        · exact hne
      · have hno : isLineEnd c = false := by simpa using hc
        rw [splitlines_cons_of_not_lineEnd hno, splitlines_cons_of_not_lineEnd hno, ih]
    · exact hne

/-- A text goes on the first line of what follows it. -/
theorem splitlines_append_of_oneLine {p t : Text} (hp : OneLine p) (ht : t ≠ []) :
    splitlines (p ++ t) = (p ++ (splitlines t).headD []) :: (splitlines t).tail := by
  induction p with
  | nil =>
    obtain ⟨l, ls, hl⟩ := List.exists_cons_of_ne_nil (splitlines_ne_nil ht)
    rw [List.nil_append, hl]
    rfl
  | cons c p ih =>
    rw [List.cons_append, splitlines_cons_of_not_lineEnd (hp c (List.mem_cons_self ..)),
      ih fun d hd => hp d (List.mem_cons_of_mem _ hd)]
    rfl

/-- A text that ends with a line end, and what goes on behind it. -/
theorem splitlines_append_of_lineEnd {a b : Text} (ha : ∀ c ∈ a.getLast?, isLineEnd c = true)
    (hb : b.head? ≠ some '\n') :
    splitlines (a ++ b) = splitlines a ++ splitlines b := by
  induction a using splitlines.induct with
  | case1 => rfl
  | case2 t ih =>
    have ht : ∀ c ∈ t.getLast?, isLineEnd c = true := by
      intro c hc
      rcases t with - | ⟨d, t⟩
      · cases hc
      · exact ha c (by simpa using hc)
    rw [List.cons_append, List.cons_append, splitlines, splitlines, ih ht, List.cons_append]
  | case3 c t hne hc ih =>
    have ht : ∀ d ∈ t.getLast?, isLineEnd d = true := by
      intro d hd
      rcases t with - | ⟨e, t⟩
      · cases hd
      · exact ha d (by simpa using hd)
    rw [List.cons_append, splitlines, if_pos hc, splitlines, if_pos hc, ih ht, List.cons_append]
    · exact hne
    · rintro t' rfl heq
      rcases t with - | ⟨e, t⟩
      · exact hb (by rw [← List.nil_append b, heq]; rfl)
      · obtain ⟨rfl, -⟩ := List.cons.inj heq
        exact hne t rfl rfl
  | case4 c t hne hc hnil ih =>
    rcases t with - | ⟨e, t⟩
    · exact absurd (ha c rfl) hc
    · exact absurd hnil (splitlines_ne_nil (List.cons_ne_nil e t))
  | case5 c t hne hc l ls hl ih =>
    rcases t with - | ⟨e, t⟩
    · cases hl
    · have ht : ∀ d ∈ (e :: t).getLast?, isLineEnd d = true := fun d hd => ha d (by simpa using hd)
      have hno : isLineEnd c = false := by simpa using hc
      rw [List.cons_append, splitlines_cons_of_not_lineEnd hno,
        splitlines_cons_of_not_lineEnd hno, ih ht, hl]
      rfl

/-- A text goes on with the first line of what follows it. -/
theorem splitlines_append_oneLine {p : Text} (hp : OneLine p) (hne : p ≠ []) (t : Text) :
    splitlines (p ++ t) = (p ++ (splitlines t).headD []) :: (splitlines t).tail := by
  rcases eq_or_ne t [] with rfl | ht
  · rw [List.append_nil, splitlines_oneLine hp hne]
    simp [splitlines]
  · exact splitlines_append_of_oneLine hp ht

/-- The text ends its lines, but for a rest. -/
theorem exists_lineStart (t : Text) :
    ∃ a p, t = a ++ p ∧ (∀ c ∈ a.getLast?, isLineEnd c = true) ∧ OneLine p := by
  refine ⟨t.rdropWhile (fun c => !isLineEnd c), t.rtakeWhile (fun c => !isLineEnd c),
    (List.rdropWhile_append_rtakeWhile).symm, ?_, ?_⟩
  · intro c hc
    have hne : t.rdropWhile (fun c => !isLineEnd c) ≠ [] :=
      List.ne_nil_of_mem (List.mem_of_getLast? hc)
    have hlast := List.rdropWhile_last_not (fun c => !isLineEnd c) t hne
    rw [List.getLast?_eq_some_getLast hne, Option.mem_some_iff] at hc
    rw [hc] at hlast
    simpa using hlast
  · intro c hc
    simpa using List.mem_rtakeWhile_imp hc

/-- A line feed at the end makes no further line. -/
theorem splitlines_concat_newline {t : Text} {c : Char} (hc : isLineEnd c = false) :
    splitlines (t ++ [c] ++ ['\n']) = splitlines (t ++ [c]) := by
  have hcr : c ≠ '\r' ∧ c ≠ '\n' := by
    constructor <;> (rintro rfl; exact absurd hc (by decide))
  have hlast : ∀ s, lfLines (t ++ c :: s) = lfLines t ++ lfLines (c :: s) := fun s =>
    lfLines_append fun h => hcr.2 (Option.some.inj h.2)
  have hone : lfLines [c] = [c] := lfLines_eq_self_iff.mpr fun d hd hend => by
    rw [List.mem_singleton.mp hd, hc] at hend
    cases hend
  have htwo : lfLines [c, '\n'] = [c] ++ ['\n'] := lfLines_eq_self_iff.mpr fun d hd hend => by
    rcases List.mem_cons.mp hd with rfl | hd
    · rw [hc] at hend
      cases hend
    · exact List.mem_singleton.mp hd
  obtain ⟨ls, l, heq, hls, hl⟩ := exists_unlines (lfOnly_lfLines t)
  have hlc : OneLine (l ++ [c]) := hl.append fun d hd => List.mem_singleton.mp hd ▸ hc
  have hend : splitlines (l ++ [c] ++ ['\n']) = [l ++ [c]] :=
    splitlines_append_newline (t := []) hlc
  rw [← splitlines_lfLines (t ++ [c]), ← splitlines_lfLines (t ++ [c] ++ ['\n']), List.append_assoc,
    List.singleton_append, hlast, hlast, hone, htwo, heq, List.append_assoc, List.append_assoc,
    ← List.append_assoc l, splitlines_unlines_append hls, splitlines_unlines_append hls, hend,
    splitlines_oneLine hlc (by simp)]

/-- A text behind the first of its lines. -/
theorem exists_unlines_append {t : Text} {xs ys : List Text} (h : LfOnly t)
    (hlines : splitlines t = xs ++ ys) (hys : ys ≠ []) :
    ∃ r, t = unlines xs ++ r ∧ splitlines r = ys := by
  obtain ⟨ls, l, rfl, hls, hl⟩ := exists_unlines h
  have hlast : (splitlines l).length ≤ 1 := by
    by_cases hnil : l = []
    · subst hnil
      exact Nat.zero_le 1
    · rw [splitlines_oneLine hl hnil]
      rfl
  rw [splitlines_unlines_append hls] at hlines
  obtain ⟨ms, rfl, hms⟩ : ∃ ms, ls = xs ++ ms ∧ ys = ms ++ splitlines l := by
    rcases List.append_eq_append_iff.mp hlines with ⟨ms, hxs, hrest⟩ | ⟨ms, hls', hys'⟩
    · have hlen := congrArg List.length hrest
      have hpos := List.length_pos_iff.mpr hys
      rw [List.length_append] at hlen
      have hms : ms = [] := List.length_eq_zero_iff.mp (by omega)
      subst hms
      exact ⟨[], by rw [hxs, List.append_nil, List.append_nil], by simpa using hrest.symm⟩
    · exact ⟨ms, hls', hys'⟩
  refine ⟨unlines ms ++ l, by rw [unlines_append, List.append_assoc], ?_⟩
  rw [splitlines_unlines_append fun m hm => hls m (List.mem_append_right _ hm), hms]

/-- A text without its last line feed. -/
def dropLf (t : Text) : Text := if t.getLast? = some '\n' then t.dropLast else t

/-- and joining them gives them back, up to the last line end. -/
theorem join_splitlines (t : Text) : join ['\n'] (splitlines t) = dropLf (lfLines t) := by
  obtain ⟨ls, l, heq, hls, hl⟩ := exists_unlines (lfOnly_lfLines t)
  rw [← splitlines_lfLines, heq, splitlines_unlines_append hls]
  by_cases hnil : l = []
  · subst hnil
    rw [List.append_nil, splitlines, List.append_nil, dropLf]
    by_cases hls' : ls = []
    · subst hls'
      rfl
    · rw [← join_append_newline hls', if_pos List.getLast?_concat, List.dropLast_concat]
  · have hlast : (unlines ls ++ l).getLast? ≠ some '\n' := by
      rw [List.getLast?_append, List.getLast?_eq_some_getLast hnil]
      intro he
      have hno := hl _ (List.getLast_mem hnil)
      rw [Option.some_or, Option.some.injEq] at he
      rw [he] at hno
      exact absurd hno (by decide)
    rw [splitlines_oneLine hl hnil, join_concat, dropLf, if_neg hlast]

theorem strip_dropLf (t : Text) : strip (dropLf t) = strip t := by
  rw [dropLf]
  split_ifs with h
  · obtain ⟨s, rfl⟩ : ∃ s, t = s ++ ['\n'] := ⟨_, (List.dropLast_append_getLast? _ h).symm⟩
    rw [List.dropLast_concat]
    exact (strip_append_right (fun c hc => by rw [List.mem_singleton.mp hc]; decide) s).symm
  · rfl

/-- White space stays white space. -/
theorem isSpace_of_mem_lfLines {t : Text} (h : ∀ c ∈ t, isSpace c = true) :
    ∀ c ∈ lfLines t, isSpace c = true := by
  intro c hc
  rcases mem_lfLines hc with rfl | ⟨-, hmem⟩
  · decide
  · exact h c hmem

/-- A text that is blank at neither end keeps its first and its last character. -/
theorem stripped_lfLines {t : Text} (h : Stripped t) : Stripped (lfLines t) := by
  have hno : ∀ c, isSpace c = false → isLineEnd c = false := by
    intro c hc
    by_contra hl
    rw [isSpace_of_isLineEnd (by simpa using hl)] at hc
    cases hc
  apply stripped_of_ends
  · intro c hc
    cases t with
    | nil => cases hc
    | cons d t =>
      have hd : isSpace d = false := stripBy_head (t := d :: t) (by rw [← strip, h]; rfl)
      have hr : d ≠ '\r' := by
        rintro rfl
        exact absurd hd (by decide)
      rw [lfLines_cons fun he => hr he.1, hno d hd, List.head?_cons, Option.some.injEq] at hc
      exact hc ▸ hd
  · intro c hc
    by_cases hnil : t = []
    · subst hnil
      cases hc
    · obtain ⟨q, d, rfl⟩ : ∃ q d, t = q ++ [d] := ⟨_, _, (List.dropLast_concat_getLast hnil).symm⟩
      have hd : isSpace d = false :=
        stripBy_getLast (t := q ++ [d]) (by rw [← strip, h, List.getLast?_concat])
      have hn : d ≠ '\n' := by
        rintro rfl
        exact absurd hd (by decide)
      have hone : lfLines [d] = [d] := by
        rw [lfLines_cons (by simp), hno d hd]
        rfl
      rw [lfLines_append (by simp [hn]), hone, List.getLast?_concat, Option.some.injEq] at hc
      exact hc ▸ hd

/-- **`strip` of the lines joined again** is `strip`, with a line feed for every line end inside. -/
theorem strip_lfLines (t : Text) : strip (lfLines t) = lfLines (strip t) := by
  obtain ⟨x, y, heq, hx, hy⟩ := exists_strip t
  by_cases hnil : strip t = []
  · have hall : ∀ c ∈ t, isSpace c = true := by
      intro c hc
      rw [heq, hnil, List.append_nil, List.mem_append] at hc
      exact hc.elim (hx c) (hy c)
    rw [hnil]
    exact strip_append_right (isSpace_of_mem_lfLines hall) []
  · have hhead : (strip t).head? ≠ some '\n' := fun he => absurd (stripBy_head he) (by decide)
    have hlast : (x ++ strip t).getLast? ≠ some '\r' := by
      rw [List.getLast?_append_of_ne_nil _ hnil]
      exact fun he => absurd (stripBy_getLast he) (by decide)
    have hcut : lfLines t = lfLines x ++ lfLines (strip t) ++ lfLines y := by
      conv_lhs => rw [heq]
      rw [lfLines_append fun he => hlast he.1, lfLines_append fun he => hhead he.2]
    rw [hcut, strip_append_right (isSpace_of_mem_lfLines hy),
      strip_append_left (isSpace_of_mem_lfLines hx)]
    exact stripped_lfLines (stripped_strip t)

end Python
