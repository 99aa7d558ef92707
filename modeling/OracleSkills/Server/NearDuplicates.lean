import Mathlib.Data.Finset.Card
import OracleSkills.Greedy.Fit
import OracleSkills.Regex.Backtrack
import OracleSkills.Server.History
import OracleSkills.Writer.Repairs

/-!
# Near duplicates

`auto_skill.py create` refuses a name that is taken; "it cannot catch the same procedure arriving
under a second name". For that it looks at the words of the names and the descriptions in the
directory, and reports the skills whose words are much the same. It looks for a description in the
text of a file, with a pattern of its own, and the description stands there in quotes.

`near_duplicates_exact`: after any history of the directory the report is about what the skills were
created with, however they were quoted, and patched since. It has the three next to the new one, the
nearest first.

The free text of the history is clean here too. Floating-point arithmetic is a parameter, of which
an order is all that is used (`DupHost`).
-/

namespace OracleSkills.Server

open Python Frontmatter Writer Regex

/-! ### `_near_duplicates` -/

/-- `DUP_STOPWORDS`. -/
def dupStopwords : List Text :=
  ("use when the a an and or to of for in on with this that it is are be as by " ++
    "from at not do into if then than so").toList.splitOn ' '

/-- `_dup_tokens`. -/
def dupTokens (C : CaseMap) (text : Text) : Finset Text :=
  ((runs isSlug (C.lower text)).filter fun w => 2 < w.length ∧ w ∉ dupStopwords).toFinset

/-- What `_near_duplicates` computes with. -/
structure DupHost (F : Type*) where
  case : CaseMap
  /-- `float` of a text: nothing for a `ValueError`, and no number for `nan`. -/
  float : Text → Option (Option F)
  /-- `DUP_THRESHOLD`. -/
  dupThreshold : F
  zero : F
  /-- `a / b` of two natural numbers. -/
  div : ℕ → ℕ → F
  /-- `round(x, 2)`. -/
  round2 : F → F

variable {F : Type*} [LinearOrder F]

/-- `float(os.environ.get("AUTO_SKILL_DUP_THRESHOLD") or DUP_THRESHOLD)`, or else
`DUP_THRESHOLD`. -/
def DupHost.threshold (H : DupHost F) : Option Text → Option F
  | none => some H.dupThreshold
  | some [] => some H.dupThreshold
  | some t => (H.float t).getD (some H.dupThreshold)

/-- A match of `^description:\s*(.+)$` in a line, by its group. -/
def descriptionHere (x : Place Char) : Option Text :=
  if x.before.head?.all (· = '\n') then
    exec (.seq (.lit "description:".toList) (.star (.one isSpace))) (fun y =>
      exec (.plus (.one (· ≠ '\n')))
        (fun z => if z.after.head?.all (· = '\n') then some (y.upTo z) else none) y) x
  else none

/-- `re.search(r"^description:\s*(.+)$", head, re.M)`. -/
def descriptionIn (head : Text) : Option Text := search descriptionHere [] head

/-- `name.replace("-", " ") + " " + desc`. -/
def spelled (name desc : Text) : Text := replaceChar '-' ' ' name ++ ' ' :: desc

/-- The words of a file under a name. -/
def theirTokens (C : CaseMap) (other text : Text) : Finset Text :=
  dupTokens C (spelled other (match descriptionIn ((universalNewlines text).take 2500) with
    | some d => stripBy ("\"'".toList.contains ·) (strip d)
    | none => []))

/-- `len(mine & theirs) / min(len(mine), len(theirs))`. -/
def DupHost.overlap (H : DupHost F) (mine theirs : Finset Text) : F :=
  H.div (mine ∩ theirs).card (min mine.card theirs.card)

/-- The hit of an entry, if it is one. -/
def dupHit (H : DupHost F) (threshold : Option F) (s : Dict Text (Option Text)) (name : Text)
    (mine : Finset Text) (other : Text) :
    Option (Text × F) :=
  if other = name ∨ ['.'].isPrefixOf other then none
  else
    match s.get? other with
    | some (some text) =>
      let theirs := theirTokens H.case other text
      if theirs = ∅ then none
      else if threshold.any (· ≤ H.overlap mine theirs) then
        some (other, H.round2 (H.overlap mine theirs))
      else none
    -- the file cannot be read
    | _ => none

/-- `_near_duplicates`, of a directory whose entries have a `SKILL.md` that can be read, or none. -/
def nearDuplicates (H : DupHost F) (var : Option Text)
    (skillsDir : Option (Dict Text (Option Text))) (name desc : Text) (limit : ℕ) :
    List (Text × F) :=
  let threshold := H.threshold var
  if threshold.any (· ≤ H.zero) then []
  else
    let mine := dupTokens H.case (spelled name desc)
    if mine = ∅ then []
    else
      match skillsDir with
      | none => []
      | some s => (Greedy.descending Prod.snd
        ((s.keys.mergeSort leText).filterMap (dupHit H threshold s name mine))).take limit

/-- The directory of a history, all of whose files can be read. -/
def Shelf.listed (s : Shelf) : Dict Text (Option Text) := s.map fun kv => (kv.1, some kv.2)

/-! ### What is to be reported -/

/-- The words of a request. -/
def vocabulary (C : CaseMap) (r : Request) : Finset Text := dupTokens C (spelled r.name r.desc)

/-- How near two requests are, if it is near enough. -/
def DupHost.near (H : DupHost F) (var : Option Text) (r r' : Request) : Option F :=
  let mine := vocabulary H.case r
  let theirs := vocabulary H.case r'
  if mine ≠ ∅ ∧ theirs ≠ ∅ ∧ ¬ (H.threshold var).any (· ≤ H.zero) ∧
      (H.threshold var).any (· ≤ H.overlap mine theirs) then
    some (H.round2 (H.overlap mine theirs))
  else none

/-- A hit before another one: it is nearer, or as near and before it by name. -/
def Nearer (x y : Text × F) : Prop := y.2 < x.2 ∨ y.2 = x.2 ∧ x.1 ≠ y.1 ∧ leText x.1 y.1 = true

/-- The report about a request: the skills next to it. -/
structure Reported (H : DupHost F) (var : Option Text) (m : Authors) (r : Request) (limit : ℕ)
    (hits : List (Text × F)) : Prop where
  near : ∀ x ∈ hits, x.1 ≠ r.name ∧ ∃ env' r', m.get? x.1 = some (env', r') ∧
    H.near var r r' = some x.2
  few : hits.length ≤ limit
  ordered : hits.Pairwise Nearer
  nearest : ∀ n env' r' v, n ≠ r.name → m.get? n = some (env', r') → H.near var r r' = some v →
    (n, v) ∈ hits ∨ hits.length = limit ∧ ∀ x ∈ hits, Nearer x (n, v)

/-! ### The pattern -/

variable {env : Env} {a : Args} {r : Request} {t rest l : Text} {hash : Digest}
  {kvs : List (Text × Text)} {before : Text}

theorem descriptionHere_inside {c : Char} (hc : c ≠ '\n') (after : Text) :
    descriptionHere ⟨c :: before, after⟩ = none :=
  if_neg (by simp [hc])

theorem descriptionHere_other (h : ¬ "description:".toList <+: rest) :
    descriptionHere ⟨before, rest⟩ = none := by
  rw [descriptionHere, exec, exec_lit_eq_none _ h, ite_self]

/-- Behind the beginning of a line there is no match in it. -/
theorem search_inside {c : Char} (hc : c ≠ '\n') (hl : '\n' ∉ l) (rest : Text) :
    search descriptionHere (c :: before) (l ++ '\n' :: rest) =
        search descriptionHere ('\n' :: (l.reverse ++ c :: before)) rest := by
  induction l generalizing c before with
  | nil => rw [List.nil_append, search, descriptionHere_inside hc, Option.none_or, List.reverse_nil,
    List.nil_append]
  | cons d l ih =>
    rw [List.mem_cons, not_or] at hl
    obtain ⟨hd, hl⟩ := hl
    rw [List.cons_append, search, descriptionHere_inside hc, Option.none_or, ih (Ne.symm hd) hl,
      List.reverse_cons, List.append_assoc, List.singleton_append]

/-- A line of something else is passed over. -/
theorem search_line {c : Char} (hl : '\n' ∉ c :: l)
    (h : ¬ "description:".toList <+: c :: l ++ '\n' :: rest) :
    search descriptionHere before (c :: l ++ '\n' :: rest) =
        search descriptionHere ('\n' :: ((c :: l).reverse ++ before)) rest := by
  rw [List.mem_cons, not_or] at hl
  obtain ⟨hc, hl⟩ := hl
  rw [List.cons_append] at h ⊢
  rw [search, descriptionHere_other h, Option.none_or, search_inside (Ne.symm hc) hl,
    List.reverse_cons, List.append_assoc, List.singleton_append]

/-- A line with a description. -/
theorem search_description {c : Char} (hspace : isSpace c = false) (hl : '\n' ∉ c :: l)
    (before : Text) :
    search descriptionHere ('\n' :: before) ("description: ".toList ++ (c :: l ++ '\n' :: rest)) =
        some (c :: l) := by
  have hend : ∀ b, exec (.plus (.one (· ≠ '\n'))) (fun z => if z.after.head?.all (· = '\n') then
      some ((⟨b, c :: l ++ '\n' :: rest⟩ : Place Char).upTo z) else none)
          ⟨b, c :: l ++ '\n' :: rest⟩ = some (c :: l) := by
    intro b
    have hall : ∀ d ∈ c :: l, decide (d ≠ '\n') = true :=
      fun d hd => decide_eq_true fun heq => hl (heq ▸ hd)
    have hrun : (c :: l ++ '\n' :: rest).takeWhile (fun d => decide (d ≠ '\n')) = c :: l := by
      rw [List.takeWhile_append_of_pos hall, List.takeWhile_cons_of_neg (by decide),
        List.append_nil]
    have hleft : (c :: l ++ '\n' :: rest).dropWhile (fun d => decide (d ≠ '\n')) =
        '\n' :: rest := by
      rw [List.dropWhile_append_of_pos hall, List.dropWhile_cons_of_neg (by decide)]
    have hfeed : (Place.skip (fun d => decide (d ≠ '\n'))
        ⟨b, c :: l ++ '\n' :: rest⟩).after.head?.all (· = '\n') = true := by
      rw [Place.skip, hleft]
      rfl
    rw [exec_plus_one]
    · rw [if_pos (by simpa using hall c (List.mem_cons_self ..)), if_pos hfeed, upTo_skip, hrun]
    · intro y d hd hne
      exact if_neg (by simpa [hd] using hne)
  have hskip : Place.skip isSpace ⟨' ' :: ("description:".toList.reverse ++ '\n' :: before),
      c :: l ++ '\n' :: rest⟩ =
      ⟨' ' :: ("description:".toList.reverse ++ '\n' :: before), c :: l ++ '\n' :: rest⟩ :=
        skip_cons_of_neg hspace
  have hhere : descriptionHere ⟨'\n' :: before,
      "description:".toList ++ (' ' :: (c :: l ++ '\n' :: rest))⟩ = some (c :: l) := by
    have hstart : (some '\n').all (· = '\n') = true := rfl
    rw [descriptionHere, List.head?_cons, if_pos hstart, exec, exec_lit, exec_star_one_of_isSome]
    · rw [skip_cons_of_pos (by decide), hskip, hend]
    · rw [skip_cons_of_pos (by decide), hskip, hend]
      rfl
  have htext : "description: ".toList ++ (c :: l ++ '\n' :: rest) =
      'd' :: ("escription:".toList ++ (' ' :: (c :: l ++ '\n' :: rest))) := rfl
  rw [htext, search]
  exact Option.or_eq_some_iff.mpr (Or.inl hhere)

/-! ### Names and descriptions through patches -/

/-- The two first fields of a skill. -/
def titles (r : Request) : List (Text × Text) :=
  [("name".toList, r.name), ("description".toList, yamlScalar r.desc)]

theorem setField_cons_of_ne {key k v w : Text} (hk : PlainKey k) (hkey : PlainKey key)
    (hne : key ≠ k) :
    setField ((k, w) :: kvs) key v = (k, w) :: setField kvs key v := by
  have hline : isKeyLine key (field k w) = false := isKeyLine_field_of_ne hk hkey hne w
  simp only [setField, List.map_cons, List.any_cons, hline, Bool.false_eq_true, if_false,
    Bool.false_or]
  split_ifs <;> rfl

/-- No stamp is a name or a description. -/
theorem stampFields_titles (penv : PatchEnv) (hash : Digest) (by' : Text) :
    stampFields penv (titles r ++ kvs) hash by' = titles r ++ stampFields penv kvs hash by' := by
  have hput : ∀ {key v : Text} {kvs}, key ∈ stampKeys →
      setField (titles r ++ kvs) key v = titles r ++ setField kvs key v := by
    intro key v kvs hkey
    have hplain : PlainKey key := (by decide : ∀ k ∈ stampKeys, PlainKey k) key hkey
    have hname : key ≠ "name".toList := (by decide : ∀ k ∈ stampKeys, k ≠ "name".toList) key hkey
    have hdesc : key ≠ "description".toList :=
      (by decide : ∀ k ∈ stampKeys, k ≠ "description".toList) key hkey
    show setField (("name".toList, r.name) :: ("description".toList, yamlScalar r.desc) :: kvs)
      key v = _
    rw [setField_cons_of_ne (by decide) hplain hname, setField_cons_of_ne (by decide) hplain hdesc]
    rfl
  rw [stampFields, hput (by decide), hput (by decide), hput (by decide), stampFields]

theorem Lineage.titled (hacc : Writer.Accepted env a r) (hc : Clean r) (h : Lineage env r t hash) :
    ∃ kvs rest, Heads env r t hash (titles r ++ kvs) rest := by
  induction h with
  | created => exact ⟨(r.header env).drop 2, _, heads_created hacc hc⟩
  | patched _ hp hclean ih =>
    obtain ⟨kvs, rest, hheads⟩ := ih
    have hpatched := hheads.patched hp hclean
    rw [stampFields_titles] at hpatched
    exact ⟨_, _, hpatched⟩

theorem length_doubleQuotes_le (s : Text) : (doubleQuotes s).length ≤ 2 * s.length := by
  induction s with
  | nil => exact Nat.le_refl _
  | cons c s ih =>
    by_cases hc : c = '\''
    · subst hc
      rw [doubleQuotes_quote, List.length_cons, List.length_cons, List.length_cons]
      omega
    · rw [doubleQuotes_cons hc, List.length_cons, List.length_cons]
      omega

theorem length_slugPattern_le {lo hi : ℕ} (h : slugPattern lo hi t = true) : t.length ≤ hi + 1 := by
  cases t with
  | nil => exact Nat.zero_le _
  | cons c t =>
    simp only [slugPattern, Bool.and_eq_true, decide_eq_true_eq] at h
    exact Nat.succ_le_succ h.1.2

/-- The text up to the end of the description is short. -/
theorem length_titles_le (hacc : Writer.Accepted env a r) :
    (unlines (fence :: fieldsOf (titles r))).length ≤ 2500 := by
  have hname : r.name.length ≤ 49 := by
    have hre : matchDollar (slugPattern 1 48) r.name = true := hacc.nameRe
    rw [hacc.name_slug.matchDollar_eq] at hre
    exact length_slugPattern_le hre
  have hdesc : r.desc.length ≤ 200 := hacc.desc_eq ▸ (fitDesc_fitted _).length_le
  have hscalar : (yamlScalar r.desc).length ≤ 402 := by
    have hdouble := length_doubleQuotes_le r.desc
    rw [yamlScalar, hacc.flatten_desc, List.length_cons, List.length_append, List.length_singleton]
    omega
  have hlength : (unlines (fence :: fieldsOf (titles r))).length = 25 + r.name.length +
      (yamlScalar r.desc).length := by
    simp [titles, fieldsOf, field, fence]
    omega
  omega

/-- **The pattern finds the description** that `create` has written, after any patches: it stands in
the first characters. -/
theorem descriptionIn_lineage (hacc : Writer.Accepted env a r) (hc : Clean r)
    (h : Lineage env r t hash) :
    descriptionIn ((universalNewlines t).take 2500) = some (yamlScalar r.desc) := by
  obtain ⟨kvs, rest, hheads⟩ := h.titled hacc hc
  have hname : '\n' ∉ field "name".toList r.name := fun hm =>
    absurd ((hheads.fields.line _
      (List.mem_map.mpr ⟨_, List.mem_append_left _ (List.mem_cons_self ..), rfl⟩)).1 _ hm)
      (by decide)
  have hscalar : '\n' ∉ yamlScalar r.desc := fun hm =>
    absurd ((hheads.fields.value _
      (List.mem_append_left _ (List.mem_cons_of_mem _ (List.mem_cons_self ..)))).1 _ hm) (by decide)
  have htext : universalNewlines t = unlines (fence :: fieldsOf (titles r)) ++
      (unlines (fieldsOf kvs) ++ (fence ++ '\n' :: universalNewlines rest)) := by
    rw [hheads.text, hheads.fields.universalNewlines, blockText, fieldsOf, List.map_append,
      unlines_append, unlines_cons]
    simp [fieldsOf]
  have hlines : ∀ more, unlines (fence :: fieldsOf (titles r)) ++ more = fence ++ '\n' ::
      (field "name".toList r.name ++
      '\n' :: ("description: ".toList ++ (yamlScalar r.desc ++ '\n' :: more))) := fun more => by
    simp [titles, fieldsOf, field]
  rw [htext, List.take_append, List.take_of_length_le (length_titles_le hacc), hlines]
  exact ((search_line (by decide) (by simp)).trans (search_line hname (by simp))).trans
    (search_description (by decide) hscalar _)

/-! ### Words in quotes -/

theorem runs_lower (C : CaseMap) (t : Text) :
    runs isSlug (C.lower t) = runs isSlug (t.flatMap C.plain) :=
  CaseMap.runs_lowerFrom (by decide) (by decide) [] [] t

/-- A character of ASCII that is no capital is in its lower case. -/
theorem plain_quote {C : CaseMap} {c : Char} (hc : c = '\'' ∨ c = '"') :
    C.plain c = [c] ∧ isSlug c = false := by
  rcases hc with rfl | rfl
  · exact ⟨(if_neg (by decide)).trans (C.ascii _ (by decide)), by decide⟩
  · exact ⟨(if_neg (by decide)).trans (C.ascii _ (by decide)), by decide⟩

theorem flatMap_plain_quotes {C : CaseMap} {x : Text} (hx : ∀ c ∈ x, c = '\'' ∨ c = '"') :
    x.flatMap C.plain = x := by
  induction x with
  | nil => rfl
  | cons c x ih =>
    obtain ⟨hc, hx⟩ := List.forall_mem_cons.mp hx
    rw [List.flatMap_cons, (plain_quote hc).1, ih hx, List.singleton_append]

/-- Quotes at the ends of a text do not matter to its words, -/
theorem runs_stripQuotes (C : CaseMap) (t : Text) :
    runs isSlug ((stripBy ("\"'".toList.contains ·) t).flatMap C.plain) =
        runs isSlug (t.flatMap C.plain) := by
  obtain ⟨x, y, heq, hx, hy⟩ := exists_stripBy ("\"'".toList.contains ·) t
  have hquote : ∀ {c : Char}, "\"'".toList.contains c = true → c = '\'' ∨ c = '"' := by
    intro c hc
    simpa [or_comm] using hc
  have hx : ∀ c ∈ x, c = '\'' ∨ c = '"' := fun c hc => hquote (hx c hc)
  have hy : ∀ c ∈ y, c = '\'' ∨ c = '"' := fun c hc => hquote (hy c hc)
  conv_rhs => rw [heq]
  rw [List.flatMap_append, List.flatMap_append, flatMap_plain_quotes hx, flatMap_plain_quotes hy,
    runs_append_right fun c hc => (plain_quote (C := C) (hy c hc)).2, runs_append_left fun c hc =>
      (plain_quote (C := C) (hx c hc)).2]

/-- nor do doubled ones in it. -/
theorem runs_doubleQuotes (C : CaseMap) (front t : Text) :
    runs isSlug (front ++ (doubleQuotes t).flatMap C.plain) =
        runs isSlug (front ++ t.flatMap C.plain) := by
  induction t generalizing front with
  | nil => rfl
  | cons c t ih =>
    by_cases hc : c = '\''
    · subst hc
      obtain ⟨hplain, hslug⟩ := plain_quote (C := C) (Or.inl rfl)
      have hrest : runs isSlug ((doubleQuotes t).flatMap C.plain) =
          runs isSlug (t.flatMap C.plain) := ih []
      simp only [doubleQuotes_quote, List.flatMap_cons, hplain, List.singleton_append]
      rw [runs_append_cons hslug, runs_append_cons hslug, runs_cons hslug, hrest]
    · rw [doubleQuotes_cons hc, List.flatMap_cons, List.flatMap_cons, ← List.append_assoc,
        ← List.append_assoc, ih]

/-- **The words of a description in quotes** are its words. -/
theorem dupTokens_yamlScalar (C : CaseMap) (n : Text) {d : Text} (hd : flatten d = d) :
    dupTokens C (spelled n (stripBy ("\"'".toList.contains ·) (yamlScalar d))) =
        dupTokens C (spelled n d) := by
  have hblank : C.plain ' ' = [' '] := (if_neg (by decide)).trans (C.space ' ' (by decide))
  obtain ⟨hplain, hslug⟩ := plain_quote (C := C) (Or.inl rfl)
  have hscalar : runs isSlug ((yamlScalar d).flatMap C.plain) =
      runs isSlug (d.flatMap C.plain) := by
    rw [yamlScalar, hd, List.flatMap_cons, List.flatMap_append, List.flatMap_singleton, hplain,
      List.singleton_append, runs_cons hslug, runs_append_cons hslug, runs_nil, List.append_nil]
    exact runs_doubleQuotes C [] d
  have hwords : ∀ d, runs isSlug (C.lower (spelled n d)) =
      runs isSlug ((replaceChar '-' ' ' n).flatMap C.plain) ++ runs isSlug (d.flatMap C.plain) := by
    intro d
    rw [runs_lower, spelled, List.flatMap_append, List.flatMap_cons, hblank, List.singleton_append,
      runs_append_cons (by decide)]
  rw [dupTokens, dupTokens, hwords, hwords, runs_stripQuotes, hscalar]

/-- **A file is compared by what its skill was created with.** -/
theorem theirTokens_lineage (C : CaseMap) (hacc : Writer.Accepted env a r) (hc : Clean r)
    (h : Lineage env r t hash) :
    theirTokens C r.name t = vocabulary C r := by
  rw [theirTokens, descriptionIn_lineage hacc hc h]
  simp only
  rw [show strip (yamlScalar r.desc) = yamlScalar r.desc from yamlScalar_stripped r.desc,
    dupTokens_yamlScalar C r.name hacc.flatten_desc, vocabulary]

/-! ### The report -/

theorem nodup_history {ds : List Deed} {x : Shelf × Authors} (h : x.2.keys.Nodup) :
    (history ds x).2.keys.Nodup := by
  induction ds generalizing x with
  | nil => exact h
  | cons d ds ih =>
    obtain ⟨s, m⟩ := x
    refine ih ?_
    cases d.author s with
    | none => exact h
    | some y => exact Dict.nodup_keys_set _ h

/-- The first items of a list in order: what is not among them comes after each of them. -/
theorem mem_take_or {α : Type*} {R : α → α → Prop} {l : List α} (h : l.Pairwise R) (k : ℕ) {x : α}
    (hx : x ∈ l) :
    x ∈ l.take k ∨ (l.take k).length = k ∧ ∀ y ∈ l.take k, R y x := by
  rw [← List.take_append_drop k l] at h hx
  rcases List.mem_append.mp hx with hx | hx
  · exact Or.inl hx
  · have hlt : k < l.length := by
      by_contra hle
      rw [List.drop_of_length_le (not_lt.mp hle)] at hx
      cases hx
    exact Or.inr ⟨List.length_take_of_le hlt.le,
      fun y hy => (List.pairwise_append.mp h).2.2 y hy x hx⟩

variable {H : DupHost F} {var : Option Text} {s : Shelf} {m : Authors} {env' : Env}
  {r' : Request} {n : Text}

/-- **A hit** is of a skill whose creation is near. -/
theorem dupHit_eq (h : Kept s m) (hvar : ¬ (H.threshold var).any (· ≤ H.zero) = true)
    (hmine : vocabulary H.case r ≠ ∅) (hget : m.get? n = some (env', r')) (hn : n ≠ r.name) :
    dupHit H (H.threshold var) s.listed r.name (vocabulary H.case r) n =
        (H.near var r r').map (Prod.mk n) := by
  obtain ⟨rfl, ⟨a', hp⟩, hc, t, hash, ht, hlineage⟩ := h.author n env' r' hget
  have hacc := accepted_of_prepare hp
  have hread : s.listed.get? r'.name = some (some t) := by
    rw [Shelf.listed, Dict.get?_map, ht]
    rfl
  have hentry : ¬ (r'.name = r.name ∨ ['.'].isPrefixOf r'.name = true) := by
    rw [name_not_hidden hacc]
    simpa using hn
  rw [dupHit, if_neg hentry, hread]
  simp only [theirTokens_lineage H.case hacc hc hlineage, DupHost.near]
  by_cases htheirs : vocabulary H.case r' = ∅
  · rw [if_pos htheirs, if_neg fun hall => hall.2.1 htheirs]
    rfl
  · rw [if_neg htheirs]
    by_cases hnear : (H.threshold var).any
      (· ≤ H.overlap (vocabulary H.case r) (vocabulary H.case r')) = true
    · rw [if_pos hnear, if_pos ⟨hmine, htheirs, hvar, hnear⟩]
      rfl
    · rw [if_neg hnear, if_neg fun hall => hnear hall.2.2.2]
      rfl

/-- The hits, in the order of their names. -/
theorem mem_dupHits_iff (h : Kept s m) (hvar : ¬ (H.threshold var).any (· ≤ H.zero) = true)
    (hmine : vocabulary H.case r ≠ ∅)
    {x : Text × F} : x ∈ (s.listed.keys.mergeSort leText).filterMap
        (dupHit H (H.threshold var) s.listed r.name (vocabulary H.case r)) ↔
      x.1 ≠ r.name ∧ ∃ env' r', m.get? x.1 = some (env', r') ∧ H.near var r r' = some x.2 := by
  have hkeys : s.listed.keys = m.keys := by
    rw [← h.keys, Shelf.listed, Dict.keys, List.map_map]
    rfl
  rw [List.mem_filterMap, hkeys]
  constructor
  · rintro ⟨n, hn, hhit⟩
    cases hget : m.get? n with
    | none => exact absurd (List.mem_mergeSort.mp hn) (Dict.get?_eq_none_iff.mp hget)
    | some y =>
      obtain ⟨env', r'⟩ := y
      by_cases hname : n = r.name
      · rw [dupHit, if_pos (Or.inl hname)] at hhit
        cases hhit
      · rw [dupHit_eq h hvar hmine hget hname] at hhit
        obtain ⟨v, hv, rfl⟩ := Option.map_eq_some_iff.mp hhit
        exact ⟨hname, env', r', hget, hv⟩
  · rintro ⟨hname, env', r', hget, hv⟩
    have hmem : x.1 ∈ m.keys := by
      by_contra hnot
      rw [Dict.get?_eq_none_iff.mpr hnot] at hget
      cases hget
    refine ⟨x.1, List.mem_mergeSort.mpr hmem, ?_⟩
    rw [dupHit_eq h hvar hmine hget hname, hv]
    rfl

/-- The names of a directory in order. -/
theorem pairwise_names {ns : List Text} (h : ns.Nodup) :
    (ns.mergeSort leText).Pairwise fun x y => x ≠ y ∧ leText x y = true := by
  have hnodup : (ns.mergeSort leText).Nodup := (List.mergeSort_perm ns leText).nodup_iff.mpr h
  have hle : (ns.mergeSort leText).Pairwise fun x y => leText x y = true :=
    @List.pairwise_mergeSort Text leText (fun _ _ _ => leText_trans) leText_total ns
  exact hnodup.and hle

theorem fst_dupHit {threshold : Option F} {dir : Dict Text (Option Text)} {name : Text}
    {mine : Finset Text} {x : Text × F}
    (h : dupHit H threshold dir name mine n = some x) : x.1 = n := by
  rw [dupHit] at h
  split_ifs at h
  split at h
  · simp only at h
    split_ifs at h
    exact (Option.some.inj h) ▸ rfl
  · cases h

/-- Where nothing is near, there is nothing to report. -/
theorem reported_nil {limit : ℕ} (h : ∀ r', H.near var r r' = none) :
    Reported H var m r limit [] where
  near _ hx := nomatch hx
  few := Nat.zero_le _
  ordered := List.Pairwise.nil
  nearest _ _ r' _ _ _ hv := by
    rw [h r'] at hv
    cases hv

/-- **The report** about a directory that is kept. -/
theorem Kept.reported (h : Kept s m) (hnodup : m.keys.Nodup) (r : Request) (limit : ℕ) :
    Reported H var m r limit (nearDuplicates H var (some s.listed) r.name r.desc limit) := by
  by_cases hvar : (H.threshold var).any (· ≤ H.zero) = true
  · rw [show nearDuplicates H var (some s.listed) r.name r.desc limit = [] from if_pos hvar]
    exact reported_nil fun r' => if_neg fun hall => hall.2.2.1 hvar
  by_cases hmine : vocabulary H.case r = ∅
  · rw [show nearDuplicates H var (some s.listed) r.name r.desc limit = [] from
      (if_neg hvar).trans (if_pos hmine)]
    exact reported_nil fun r' => if_neg fun hall => hall.1 hmine
  have hreport : nearDuplicates H var (some s.listed) r.name r.desc limit =
      (Greedy.descending Prod.snd ((s.listed.keys.mergeSort leText).filterMap
        (dupHit H (H.threshold var) s.listed r.name (vocabulary H.case r)))).take limit :=
          (if_neg hvar).trans (if_neg hmine)
  have hiff := fun x => mem_dupHits_iff (x := x) h hvar hmine
  generalize hhits : (s.listed.keys.mergeSort leText).filterMap
    (dupHit H (H.threshold var) s.listed r.name (vocabulary H.case r)) = hits at hiff
  have hkeys : s.listed.keys = m.keys := by
    rw [← h.keys, Shelf.listed, Dict.keys, List.map_map]
    rfl
  have hnames : hits.Pairwise fun x y => x.1 ≠ y.1 ∧ leText x.1 y.1 = true := by
    rw [← hhits, hkeys]
    refine (pairwise_names hnodup).filterMap _ fun n n' hn x hx y hy => ?_
    rw [fst_dupHit hx, fst_dupHit hy]
    exact hn
  have hordered : (Greedy.descending Prod.snd hits).Pairwise Nearer :=
    Greedy.pairwise_descending Prod.snd hnames
  have hmem : ∀ x, x ∈ Greedy.descending Prod.snd hits ↔ x ∈ hits :=
    fun x => (Greedy.descending_perm Prod.snd hits).mem_iff
  rw [hreport, hhits]
  exact {
    near := fun x hx => (hiff x).mp ((hmem x).mp (List.mem_of_mem_take hx))
    few := List.length_take_le _ _
    ordered := hordered.sublist (List.take_sublist _ _)
    nearest := fun n env' r' v hn hget hv =>
      mem_take_or hordered limit ((hmem _).mpr ((hiff (n, v)).mpr ⟨hn, env', r', hget, hv⟩)) }

/-- **The near duplicates** that `create` reports after any deeds in an empty directory, with skills
that were forced, quoted and patched on the way: the three nearest of what the other skills were
created with, the nearest first, and those that are as near by their names. A skill that is near and
is not in the report is not nearer than the three. -/
theorem near_duplicates_exact (H : DupHost F) (var : Option Text) (ds : List Deed)
    (hds : ∀ d ∈ ds, d.Plain) (r : Request) :
    Reported H var (history ds ([], [])).2 r 3
        (nearDuplicates H var (some (history ds ([], [])).1.listed) r.name r.desc 3) :=
  (kept_nil.history hds).reported (nodup_history List.nodup_nil) r 3

/-- A host that counts by hundredths. -/
def centHost : DupHost ℕ where
  case := asciiCase
  float _ := none
  dupThreshold := 40
  zero := 0
  div a b := 100 * a / b
  round2 x := x

/-- The procedure under a second name. -/
def twin : Request :=
  { sampleRequest "How to deploy x, in steps".toList with name := "ship-x".toList }

theorem near_duplicates_exact_sample :
    Reported centHost none (history sampleDeeds ([], [])).2 twin 3
      (nearDuplicates centHost none (some (history sampleDeeds ([], [])).1.listed) twin.name
          twin.desc 3) :=
  near_duplicates_exact centHost none sampleDeeds sampleDeeds_plain twin

example : nearDuplicates centHost none
    (some (history (sampleDeeds.take 2) ([], [])).1.listed) twin.name twin.desc 3 =
    [("deploy-x".toList, 100)] := by decide +kernel

end OracleSkills.Server
