import OracleSkills.Python.Words
import OracleSkills.Tools.Collect
import OracleSkills.Writer.RoundTrip

/-!
# What the repairs make of an argument

`cmd_create` repairs its arguments before it checks them. `_kebab` makes of a name "a single
separator" for every run of other characters, so that no two words are welded: what it gives are the
words of the lower-cased text, joined by dashes (`kebab_eq_join`). A name or a category that is
accepted is one that `_bad_segment` of `collect_commit.py` and of `sync_skills.py` takes for a
directory's name. `_fit_desc` collapses white space and cuts "at a word boundary" what is longer
than `MAX_DESC`.

Both repairs are normal forms: what they give is not repaired again.
-/

namespace OracleSkills.Writer

open Python Frontmatter Tools

/-! ### Names -/

theorem isSlug_dash : isSlug '-' = false := by decide

/-- **`_kebab`** joins the words of the lower-cased text by dashes. -/
theorem kebab_eq_join (C : CaseMap) (s : Text) :
    kebab C.lower s = join ['-'] (runs isSlug (C.lower s)) := by
  rw [kebab, stripBy_collapse isSlug_dash, CaseMap.runs_lower_strip (by decide) (by decide)]
  intro c hc
  by_contra hslug
  rw [isSlug_not_space (by simpa using hslug)] at hc
  cases hc

theorem SlugText.lower_eq {t : Text} (h : SlugText t) (C : CaseMap) : C.lower t = t := by
  refine CaseMap.lower_eq_self fun c hc => ?_
  rcases h c hc with hs | rfl
  · simp only [isSlug, Bool.or_eq_true, Bool.and_eq_true, decide_eq_true_eq] at hs
    exact ⟨by omega, toLower_eq_self (by omega)⟩
  · decide

/-- What `_kebab` gives of a text: the words of the lower-cased text, joined by single dashes. It is
its own kebab. -/
structure Canonical (C : CaseMap) (s name : Text) : Prop where
  joined : name = join ['-'] (runs isSlug (C.lower s))
  words : ∀ w ∈ runs isSlug (C.lower s), w ≠ [] ∧ ∀ c ∈ w, isSlug c = true
  head : name.head? ≠ some '-'
  last : name.getLast? ≠ some '-'
  single : ¬ ['-', '-'] <:+: name
  again : kebab C.lower name = name

theorem kebab_canonical (C : CaseMap) (s : Text) : Canonical C s (kebab C.lower s) where
  joined := kebab_eq_join C s
  words _ hw := of_mem_runs hw
  head hc := absurd (stripBy_head hc) (by decide)
  last hc := absurd (stripBy_getLast hc) (by decide)
  single h := not_infix_collapse (p := fun c => !isSlug c) (r := '-') (by decide) _
    (h.trans (infix_stripBy _ _))
  again := by
    rw [kebab_eq_join C (kebab C.lower s), (kebab_slugText C.lower s).lower_eq C, kebab_eq_join C s,
      runs_join isSlug_dash fun _ hw => of_mem_runs hw]

/-! ### Names that become directories -/

theorem isAlphanum_of_isSlug {c : Char} (h : isSlug c = true) : c.isAlphanum = true := by
  simp only [isSlug, Bool.or_eq_true, Bool.and_eq_true, decide_eq_true_eq] at h
  rcases h with ⟨hle, hle'⟩ | ⟨hle, hle'⟩
  · have hlower : c.isLower = true :=
      Bool.and_eq_true_iff.mpr ⟨decide_eq_true (UInt32.le_iff_toNat_le.mpr hle),
        decide_eq_true (UInt32.le_iff_toNat_le.mpr hle')⟩
    show ((c.isUpper || c.isLower) || c.isDigit) = true
    rw [hlower, Bool.or_true, Bool.true_or]
  · have hdigit : c.isDigit = true :=
      Bool.and_eq_true_iff.mpr ⟨decide_eq_true (UInt32.le_iff_toNat_le.mpr hle),
        decide_eq_true (UInt32.le_iff_toNat_le.mpr hle')⟩
    show (c.isAlpha || c.isDigit) = true
    rw [hdigit, Bool.or_true]

/-- A slug text that one of the writer's patterns takes, is a segment of a path, -/
theorem matchesSegment_of_slug {lo hi : ℕ} (hhi : hi ≤ 63) {t : Text} (ht : SlugText t)
    (h : slugPattern lo hi t = true) :
    matchesSegment t = true := by
  have hlast : t.getLast? ≠ some '\n' :=
    fun hc => ht.notMem (by decide) (by decide) (List.mem_of_getLast? hc)
  cases t with
  | nil => cases h
  | cons c r =>
    simp only [slugPattern, Bool.and_eq_true, decide_eq_true_eq] at h
    obtain ⟨⟨⟨hc, -⟩, hlen⟩, -⟩ := h
    have hchar : ∀ d ∈ r, isSegmentChar d = true := by
      intro d hd
      rcases ht d (List.mem_cons_of_mem _ hd) with hs | rfl
      · simp [isSegmentChar, isAlphanum_of_isSlug hs]
      · decide
    rw [matchesSegment, if_neg hlast]
    simp only [isAlphanum_of_isSlug hc, Bool.true_and, Bool.and_eq_true, decide_eq_true_eq,
      List.all_eq_true]
    exact ⟨by omega, hchar⟩

/-- and is taken for a directory's name. -/
theorem badSegment_of_slug {lo hi : ℕ} (hhi : hi ≤ 63) {t : Text} (ht : SlugText t)
    (h : matchDollar (slugPattern lo hi) t = true) :
    badSegment t = none := by
  rw [ht.matchDollar_eq] at h
  have hdot : '.' ∉ t := ht.notMem (by decide) (by decide)
  have hslash : '/' ∉ t := ht.notMem (by decide) (by decide)
  rw [badSegment, if_neg, if_neg, if_neg (not_not.mpr (matchesSegment_of_slug hhi ht h))]
  · rintro (h | h | h | h)
    · exact hslash (List.mem_of_mem_head? h)
    · exact hslash h
    · exact ht.notMem (by decide) (by decide) h
    · exact ht.notMem (by decide) (by decide) h
  · rintro (rfl | rfl | rfl)
    · cases h
    · exact hdot (List.mem_cons_self ..)
    · exact hdot (List.mem_cons_self ..)

/-- **An accepted name** is a directory's name for `collect_commit.py` and for `sync_skills.py`, -/
theorem Accepted.badSegment_name {env : Env} {a : Args} {r : Request} (h : Accepted env a r) :
    badSegment r.name = none :=
  badSegment_of_slug (by decide) h.name_slug h.nameRe

/-- and the category, or the one that stands for none, is for `collect_commit.py`. -/
theorem Accepted.badSegment_category {env : Env} {a : Args} {r : Request} (h : Accepted env a r)
    (dir : Files.Path Text) :
    badSegment (Skill.category ⟨r.name, dir, r.fm env⟩) = none := by
  have hcat : Skill.category ⟨r.name, dir, r.fm env⟩ = if r.category = [] then
      "uncategorized".toList else r.category := rfl
  rw [hcat]
  split_ifs with hnil
  · decide
  · exact badSegment_of_slug (by decide) h.category_slug (h.catRe.resolve_left hnil)

/-- **Names are canonical and accepted downstream**: `_kebab` gives the words of the lower-cased
text, joined by dashes, and what `cmd_create` accepts as a name and as a category is a directory's
name. -/
theorem names_canonical :
    (∀ (C : CaseMap) (s : Text), Canonical C s (kebab C.lower s)) ∧
      ∀ (env : Env) (a : Args) (r : Request), prepare env a = .ok r →
        badSegment r.name = none ∧ ∀ dir,
            badSegment (Skill.category ⟨r.name, dir, r.fm env⟩) = none :=
  ⟨kebab_canonical, fun _ _ _ h =>
    ⟨(accepted_of_prepare h).badSegment_name, (accepted_of_prepare h).badSegment_category⟩⟩

/-! ### Descriptions -/

/-- `re.sub(r"\s+", " ", desc).strip()`. -/
def collapsed (desc : Text) : Text := strip (collapse isSpace ' ' desc)

/-- No white space but single blanks inside. -/
structure Spaced (t : Text) : Prop where
  blank : ∀ c ∈ t, c = ' ' ∨ isSpace c = false
  stripped : Stripped t
  single : ¬ [' ', ' '] <:+: t

theorem spaced_collapsed (desc : Text) : Spaced (collapsed desc) where
  blank _ hc := (mem_collapse ((infix_stripBy _ _).subset hc)).imp_right And.left
  stripped := stripped_strip _
  single h := not_infix_collapse (by decide) desc (h.trans (infix_stripBy _ _))

/-- What is spaced is not repaired, unless it is too long. -/
theorem Spaced.fitDesc_eq {t : Text} (h : Spaced t) (hlen : t.length ≤ maxDesc) :
    fitDesc t = (t, none) := by
  have heq : strip (collapse isSpace ' ' t) = t := by
    rw [collapse_eq_self (by decide) h.blank h.single]
    exact h.stripped
  simp only [fitDesc, heq, if_pos hlen]

theorem fitDesc_of_le {desc : Text} (h : (collapsed desc).length ≤ maxDesc) :
    fitDesc desc = (collapsed desc, none) := if_pos h

/-- `cut`, with the marks that are at its end. -/
def wordCut (d : Text) : Text :=
  match rfind ' ' (d.take (maxDesc - 1)) with
  | some sp => if 120 < sp then (d.take (maxDesc - 1)).take sp else d.take (maxDesc - 1)
  | none => d.take (maxDesc - 1)

theorem fitDesc_of_lt {desc : Text} (h : maxDesc < (collapsed desc).length) : fitDesc desc =
    ((wordCut (collapsed desc)).rdropWhile (" ,;:.-".toList.contains ·) ++ ['…'],
        some (collapsed desc).length) :=
  if_neg (not_le.mpr h)

/-- **The cut** is short of `maxDesc`, and comes before a blank if there is one behind the first 121
characters. -/
theorem wordCut_spec {d : Text} (h : maxDesc < d.length) :
    ∃ tail, d = wordCut d ++ tail ∧ (wordCut d).length < maxDesc ∧
    ((∃ i, 121 ≤ i ∧ i ≤ 198 ∧ d[i]? = some ' ') → tail.head? = some ' ') := by
  have hmax : maxDesc = 200 := rfl
  have htake : (d.take (maxDesc - 1)).length = 199 := by
    rw [List.length_take]
    omega
  have hwhole : d = d.take (maxDesc - 1) ++ d.drop (maxDesc - 1) := (List.take_append_drop _ _).symm
  have hmem : ∀ i, i ≤ 198 → d[i]? = some ' ' → ' ' ∈ d.take (maxDesc - 1) := fun i hi hd =>
    List.mem_of_getElem? (i := i) (by rw [List.getElem?_take_of_lt (by omega), hd])
  by_cases hspace : ' ' ∈ d.take (maxDesc - 1)
  · obtain ⟨a, b, heq, hb, hfind⟩ := exists_rfind hspace
    have ha : (d.take (maxDesc - 1)).take a.length = a := by rw [heq, List.take_left]
    rw [wordCut, hfind]
    simp only
    split_ifs with hfar
    · rw [ha]
      refine ⟨' ' :: b ++ d.drop (maxDesc - 1), ?_, ?_, fun _ => rfl⟩
      · rw [← List.append_assoc, ← heq]
        exact hwhole
      · rw [heq, List.length_append, List.length_cons] at htake
        omega
    · refine ⟨d.drop (maxDesc - 1), hwhole, by omega, ?_⟩
      -- the last blank comes too early, so that there is none behind it
      rintro ⟨i, hi, hi', hd⟩
      have hat : (a ++ ' ' :: b)[i]? = some ' ' := by
        rw [← heq, List.getElem?_take_of_lt (by omega), hd]
      rw [List.getElem?_append_right (by omega), List.getElem?_cons, if_neg (by omega)] at hat
      exact absurd (List.mem_of_getElem? hat) hb
  · have hfind : rfind ' ' (d.take (maxDesc - 1)) = none := by
      rw [rfind, List.findIdx?_eq_none_iff.mpr, Option.map_none]
      intro c hc
      exact decide_eq_false fun h => hspace (h ▸ List.mem_reverse.mp hc)
    rw [wordCut, hfind]
    refine ⟨d.drop (maxDesc - 1), hwhole, by simp only; omega, ?_⟩
    rintro ⟨i, -, hi, hd⟩
    exact absurd (hmem i hi hd) hspace

/-- What `_fit_desc` gives: a text within the cap, spaced, that is its own fit. -/
structure Fitted (desc used : Text) : Prop where
  length_le : used.length ≤ maxDesc
  spaced : Spaced used
  ne_nil : (∃ c ∈ desc, isSpace c = false) → used ≠ []
  again : fitDesc used = (used, none)
  kept : (collapsed desc).length ≤ maxDesc → used = collapsed desc
  /-- What is longer is cut, and where there is a blank to cut at, the rest begins with a blank or a
  mark. -/
  clipped : maxDesc < (collapsed desc).length → ∃ q rest, collapsed desc = q ++ rest ∧
    used = q ++ ['…'] ∧
    ((∃ i, 121 ≤ i ∧ i ≤ 198 ∧ (collapsed desc)[i]? = some ' ') →
      ∃ c ∈ " ,;:.-".toList, rest.head? = some c)

/-- A text with more than white space is not blank. -/
theorem collapsed_ne_nil {desc : Text} (h : ∃ c ∈ desc, isSpace c = false) :
    collapsed desc ≠ [] := by
  obtain ⟨c, hc, hspace⟩ := h
  have hmem : c ∈ collapse isSpace ' ' desc := mem_collapse_of hspace hc
  obtain ⟨x, y, heq, hx, hy⟩ := exists_strip (collapse isSpace ' ' desc)
  intro hnil
  have hnil' : strip (collapse isSpace ' ' desc) = [] := hnil
  rw [heq, hnil', List.append_nil, List.mem_append] at hmem
  rcases hmem with hmem | hmem
  · rw [hx c hmem] at hspace
    cases hspace
  · rw [hy c hmem] at hspace
    cases hspace

/-- **Description fitting is a bounded normal form.** -/
theorem fitDesc_fitted (desc : Text) : Fitted desc (fitDesc desc).1 := by
  rcases Nat.lt_or_ge maxDesc (collapsed desc).length with hlong | hfits
  · obtain ⟨tail, hcut, hlen, hblank⟩ := wordCut_spec hlong
    have hfirst : (wordCut (collapsed desc)).rdropWhile (" ,;:.-".toList.contains ·) <+:
        wordCut (collapsed desc) :=
      List.rdropWhile_prefix _ _
    have hstart : wordCut (collapsed desc) <+: collapsed desc := ⟨tail, hcut.symm⟩
    have hle : (fitDesc desc).1.length ≤ maxDesc := by
      rw [fitDesc_of_lt hlong, List.length_append, List.length_singleton]
      exact hfirst.length_le.trans_lt hlen
    have hsingle : ¬ [' ', ' '] <:+: (fitDesc desc).1 := by
      rw [fitDesc_of_lt hlong, infix_append_cons_iff (by decide) (by decide)]
      rintro (h | h)
      · exact (spaced_collapsed desc).single (h.trans (hfirst.trans hstart).isInfix)
      · exact absurd h (by decide)
    have hspaced : Spaced (fitDesc desc).1 :=
      ⟨fun _ hc => fitDesc_mem hc, fitDesc_stripped desc, hsingle⟩
    refine ⟨hle, hspaced, fun _ => ?_, hspaced.fitDesc_eq hle, fun h => absurd hlong (not_lt.mpr h),
      fun _ => ?_⟩
    · rw [fitDesc_of_lt hlong]
      simp
    · refine ⟨_, (wordCut (collapsed desc)).rtakeWhile (" ,;:.-".toList.contains ·) ++ tail, ?_,
        by rw [fitDesc_of_lt hlong], fun hi => ?_⟩
      · rw [← List.append_assoc, List.rdropWhile_append_rtakeWhile]
        exact hcut
      -- what was cut off begins with a mark that was taken off, or else with the blank
      · cases htake : (wordCut (collapsed desc)).rtakeWhile (" ,;:.-".toList.contains ·) with
        | nil => exact ⟨' ', by decide, hblank hi⟩
        | cons c cs =>
          have hc : " ,;:.-".toList.contains c = true :=
            List.mem_rtakeWhile_imp (htake ▸ List.mem_cons_self ..)
          exact ⟨c, by simpa using hc, rfl⟩
  · have heq := fitDesc_of_le hfits
    rw [heq]
    exact ⟨hfits, spaced_collapsed desc, collapsed_ne_nil, (spaced_collapsed desc).fitDesc_eq hfits,
      fun _ => rfl, fun h => absurd h (not_lt.mpr hfits)⟩

/-- The case map that knows no capital but those of ASCII. -/
def asciiCase : CaseMap where
  lowerChar c := [c.toLower]
  finalSigma _ _ := true
  ascii _ _ := rfl
  space c hc := by
    simp only [isSpace, spaceCodes, List.contains_eq_mem, List.mem_cons, List.not_mem_nil, or_false,
      decide_eq_true_eq] at hc
    rw [toLower_eq_self (by omega)]

/-- A name with a capital, and a request. -/
theorem names_canonical_sample :
    Canonical asciiCase "Bad Name!".toList "bad-name".toList ∧
      badSegment "deploy-x".toList = none ∧
        ∀ dir, badSegment (Skill.category ⟨"deploy-x".toList, dir,
        (sampleRequest "Deploy x: steps".toList).fm sampleEnv⟩) = none :=
  ⟨names_canonical.1 asciiCase "Bad Name!".toList, names_canonical.2 sampleEnv
    { name := "deploy-x".toList, desc := "Deploy x: steps".toList, body := "b".toList,
      source := "bob".toList }
    (sampleRequest "Deploy x: steps".toList) rfl⟩

end OracleSkills.Writer
