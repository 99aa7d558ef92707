import OracleSkills.Writer.Create
import OracleSkills.Server.Frontmatter

/-!
# Reading back what `create` writes

The readers of a `SKILL.md` are `auto_skill.py::_read_frontmatter`,
`collect_commit.py::_fm`, `sync_skills.py::_fm` and the server's flat fallback. The
writer quotes its free text so that "a strict parser" and "naive line splitting"
agree on it, and `_yaml_scalar` calls what it emits single-line.

`readsBack_iff` says when every reader gives back exactly what was rendered. Two
things are in the way. The first three readers look for the fence as a substring,
`text.split("---", 2)`, so a `---` inside the description or the creator id ends the
block there. And all four cut lines with `splitlines`, which knows more line ends
than the line feed and the carriage return that `_yaml_scalar` replaces.
-/

namespace OracleSkills.Writer

open Python Frontmatter

/-! ### What the repairs give -/

theorem isSlug_not_space {c : Char} (h : isSlug c = true) : isSpace c = false := by
  simp only [isSlug, Bool.or_eq_true, Bool.and_eq_true, decide_eq_true_eq] at h
  simp only [isSpace, spaceCodes, List.contains_eq_mem, List.mem_cons, List.not_mem_nil, or_false,
    decide_eq_false_iff_not]
  omega

/-- A text of slug characters and dashes. -/
def SlugText (t : Text) : Prop := ∀ c ∈ t, isSlug c = true ∨ c = '-'

theorem SlugText.noSpace {t : Text} (h : SlugText t) : ∀ c ∈ t, isSpace c = false := by
  intro c hc
  rcases h c hc with hs | rfl
  · exact isSlug_not_space hs
  · decide

theorem kebab_slugText (lower : Text → Text) (s : Text) : SlugText (kebab lower s) := by
  intro c hc
  rcases mem_collapse ((infix_stripBy _ _).subset hc) with rfl | ⟨h, -⟩
  · exact Or.inr rfl
  · exact Or.inl (by simpa using h)

theorem kebab_noFence (lower : Text → Text) (s : Text) : NoFence (kebab lower s) := by
  intro h
  have hd : ['-', '-'] <:+: fence := by decide
  exact not_infix_collapse (p := fun c => !isSlug c) (r := '-') (by decide) _
    (hd.trans (h.trans (infix_stripBy _ _)))

theorem SlugText.notMem {t : Text} (h : SlugText t) {c : Char} (hslug : isSlug c = false)
    (hdash : c ≠ '-') : c ∉ t := by
  intro hc
  rcases h c hc with hs | hs
  · cases hslug.symm.trans hs
  · exact hdash hs

/-- No slug text ends with a line feed, before which `$` would match as well. -/
theorem SlugText.matchDollar_eq {t : Text} (h : SlugText t) (p : Text → Bool) :
    matchDollar p t = p t := by
  have hlast : t.getLast? ≠ some '\n' :=
    fun hc => h.notMem (by decide) (by decide) (List.mem_of_getLast? hc)
  rw [matchDollar, decide_eq_false hlast, Bool.false_and, Bool.or_false]

/-- A slug text is no quoted scalar. -/
theorem SlugText.unquote_eq {t : Text} (h : SlugText t) : unquote t = t := by
  refine unquote_of_head ?_ ?_ <;>
  · intro hh
    exact h.notMem (by decide) (by decide) (List.mem_of_mem_head? hh)

theorem fitDesc_mem {desc : Text} {c : Char} (h : c ∈ (fitDesc desc).1) :
    c = ' ' ∨ isSpace c = false := by
  have hd : ∀ c ∈ strip (collapse isSpace ' ' desc), c = ' ' ∨ isSpace c = false := fun c hc =>
    (mem_collapse ((infix_stripBy _ _).subset hc)).imp_right And.left
  simp only [fitDesc] at h
  split_ifs at h with hl
  · exact hd c h
  · rw [List.mem_append] at h
    rcases h with h | h
    · have h' := (List.rdropWhile_prefix _ _).subset h
      apply hd c
      split at h'
      · split_ifs at h'
        · exact List.mem_of_mem_take (List.mem_of_mem_take h')
        · exact List.mem_of_mem_take h'
      · exact List.mem_of_mem_take h'
    · rw [List.mem_singleton] at h
      subst h
      exact Or.inr (by decide)

theorem fitDesc_oneLine (desc : Text) : OneLine (fitDesc desc).1 := by
  intro c hc
  rcases fitDesc_mem hc with rfl | h
  · decide
  · by_contra hl
    have hs := isSpace_of_isLineEnd (c := c) (by simpa using hl)
    rw [h] at hs
    cases hs

/-- The first character of an initial part is the first character of the whole. -/
theorem head?_of_initial {a b : Text} {c : Char} (h : a <+: b) (hc : a.head? = some c) :
    b.head? = some c := by
  obtain ⟨s, rfl⟩ := h
  rw [List.head?_append, hc]
  rfl

theorem fitDesc_stripped (desc : Text) : Stripped (fitDesc desc).1 := by
  simp only [fitDesc]
  split_ifs with hl
  · exact stripped_strip _
  · apply stripped_of_ends
    · intro c hc
      rw [List.head?_append] at hc
      cases hh : List.head? (List.rdropWhile (" ,;:.-".toList.contains ·) _) with
      | none =>
        rw [hh] at hc
        simp only [Option.none_or, List.head?_cons, Option.some.injEq] at hc
        rw [← hc]
        decide
      | some d =>
        rw [hh] at hc
        simp only [Option.some_or, Option.some.injEq] at hc
        subst hc
        refine stripBy_head (p := isSpace) (t := collapse isSpace ' ' desc) (head?_of_initial ?_ hh)
        apply (List.rdropWhile_prefix _ _).trans
        split
        · split_ifs
          · exact (List.take_prefix _ _).trans (List.take_prefix _ _)
          · exact List.take_prefix _ _
        · exact List.take_prefix _ _
    · intro c hc
      rw [List.getLast?_concat, Option.some.injEq] at hc
      rw [← hc]
      decide

/-! ### The header's keys and values -/

/-- The keys `_render` writes, in order. -/
def headerKeys : List Text :=
  ["name".toList, "description".toList, "installer".toList, "created_at".toList,
    "created_session".toList,
    "trigger".toList, "created_by".toList, "category".toList, "content_hash".toList]

theorem header_keys (env : Env) (r : Request) : (r.header env).map Prod.fst = headerKeys := rfl

theorem headerKeys_plain : ∀ k ∈ headerKeys, PlainKey k := by decide

theorem headerKeys_nodup : headerKeys.Nodup := by decide

theorem headerKeys_line : ∀ k ∈ headerKeys, OneLine k ∧ NoFence k := by decide

theorem header_key_mem {env : Env} {r : Request} {kv : Text × Text} (h : kv ∈ r.header env) :
    kv.1 ∈ headerKeys := by
  rw [← header_keys env r]
  exact List.mem_map_of_mem h

/-- What the readers should give: every field as rendered. -/
def Request.fm (env : Env) (r : Request) : Dict Text Text :=
  [("name".toList, r.name),
    ("description".toList, r.desc),
    ("installer".toList, installer),
    ("created_at".toList, env.now.text),
    ("created_session".toList, unquote (strip env.session.text)),
    ("trigger".toList, r.trigger),
    ("created_by".toList, flatten r.source),
    ("category".toList, r.category),
    ("content_hash".toList, r.newHash env)]

theorem isHex_not_space {c : Char} (h : isHex c = true) :
    isSpace c = false ∧ c ≠ '-' ∧ c ≠ '"' ∧ c ≠ '\'' := by
  refine ⟨?_, ?_, ?_, ?_⟩
  · simp only [isHex, Bool.or_eq_true, Bool.and_eq_true, decide_eq_true_eq] at h
    simp only [isSpace, spaceCodes, List.contains_eq_mem, List.mem_cons, List.not_mem_nil, or_false,
      decide_eq_false_iff_not]
    omega
  all_goals rintro rfl; exact absurd h (by decide)

theorem isStampChar_not_space {c : Char} (h : isStampChar c = true) :
    isSpace c = false ∧ c ≠ '"' ∧ c ≠ '\'' := by
  refine ⟨?_, ?_, ?_⟩
  · simp only [isStampChar, Bool.or_eq_true, Bool.and_eq_true, decide_eq_true_eq,
      List.contains_eq_mem] at h
    rcases h with h | h
    · simp only [isSpace, spaceCodes, List.contains_eq_mem, List.mem_cons, List.not_mem_nil,
        or_false, decide_eq_false_iff_not]
      omega
    · have hall : ∀ d ∈ "-:.+T".toList, (!isSpace d) = true := List.all_eq_true.mp (by decide)
      simpa using hall c h
  all_goals rintro rfl; exact absurd h (by decide)

theorem Digest.noSpace (d : Digest) :
    ∀ c ∈ d.text, isSpace c = false := fun c hc => (isHex_not_space (d.hex c hc)).1

theorem Digest.noFence (d : Digest) : NoFence d.text := by
  intro h
  have hm : '-' ∈ d.text := h.subset (by decide)
  exact (isHex_not_space (d.hex _ hm)).2.1 rfl

theorem Digest.unquote_eq (d : Digest) : unquote d.text = d.text :=
  unquote_of_head (fun h => (isHex_not_space (d.hex _ (List.mem_of_mem_head? h))).2.2.1 rfl)
    (fun h => (isHex_not_space (d.hex _ (List.mem_of_mem_head? h))).2.2.2 rfl)

theorem Stamp.noSpace (n : Stamp) : ∀ c ∈ n.text, isSpace c = false := fun c hc =>
  (isStampChar_not_space (n.chars c hc)).1

theorem Stamp.unquote_eq (n : Stamp) : unquote n.text = n.text :=
  unquote_of_head (fun h => (isStampChar_not_space (n.chars _ (List.mem_of_mem_head? h))).2.1 rfl)
    (fun h => (isStampChar_not_space (n.chars _ (List.mem_of_mem_head? h))).2.2 rfl)

theorem validTriggers_plain : ∀ t ∈ validTriggers, OneLine t ∧ Stripped t ∧ NoFence t := by decide

section

variable {env : Env} {a : Args} {r : Request}

theorem Accepted.flatten_desc (h : Accepted env a r) : flatten r.desc = r.desc := by
  rw [h.desc_eq]
  exact flatten_eq_self (fitDesc_stripped _) (fitDesc_oneLine _)

theorem Accepted.flatten_trigger (h : Accepted env a r) : flatten r.trigger = r.trigger :=
  flatten_eq_self (validTriggers_plain _ h.trigger_mem).2.1 (validTriggers_plain _ h.trigger_mem).1

theorem Accepted.name_slug (h : Accepted env a r) :
    SlugText r.name := h.name_eq ▸ kebab_slugText _ _

theorem Accepted.category_slug (h : Accepted env a r) :
    SlugText r.category := h.category_eq ▸ kebab_slugText _ _

theorem Accepted.flatten_category (h : Accepted env a r) : flatten r.category = r.category :=
  flatten_eq_self (stripped_of_noSpace h.category_slug.noSpace)
    (oneLine_of_noSpace h.category_slug.noSpace)

/-- **The dictionary of the header**: read line by line, the rendered header gives back
the fields. -/
theorem Accepted.parseLines_lines (h : Accepted env a r) : parseLines (r.lines env) = r.fm env := by
  have hname : unquote (strip r.name) = r.name := by
    rw [stripped_of_noSpace h.name_slug.noSpace, h.name_slug.unquote_eq]
  have hinst : unquote (strip installer) = installer := by decide
  have hnow : unquote (strip env.now.text) = env.now.text := by
    rw [stripped_of_noSpace env.now.noSpace, env.now.unquote_eq]
  have hhash : unquote (strip (r.newHash env)) = r.newHash env := by
    rw [Request.newHash, stripped_of_noSpace (Digest.noSpace _), Digest.unquote_eq]
  have hq : ∀ v, unquote (strip (yamlScalar v)) = flatten v := fun v => by
    rw [yamlScalar_stripped, unquote_yamlScalar]
  rw [Request.lines, parseLines_fields (fun kv hkv => headerKeys_plain _ (header_key_mem hkv))
    (header_keys env r ▸ headerKeys_nodup)]
  show [("name".toList, unquote (strip r.name)),
    ("description".toList, unquote (strip (yamlScalar r.desc))),
    ("installer".toList, unquote (strip installer)),
      ("created_at".toList, unquote (strip env.now.text)),
    ("created_session".toList, unquote (strip env.session.text)),
    ("trigger".toList, unquote (strip (yamlScalar r.trigger))),
    ("created_by".toList, unquote (strip (yamlScalar r.source))),
    ("category".toList, unquote (strip (yamlScalar r.category))),
    ("content_hash".toList, unquote (strip (r.newHash env)))] = _
  rw [hname, hinst, hnow, hhash, hq, hq, hq, hq, h.flatten_desc, h.flatten_trigger,
    h.flatten_category]
  rfl

/-- Every value but the creator id is on one line. -/
theorem Accepted.header_oneLine (h : Accepted env a r) :
    ∀ kv ∈ r.header env, kv.1 ≠ "created_by".toList → OneLine kv.2 := by
  intro kv hkv hne
  simp only [Request.header, header, List.mem_cons, List.not_mem_nil, or_false] at hkv
  rcases hkv with rfl | rfl | rfl | rfl | rfl | rfl | rfl | rfl | rfl
  · exact oneLine_of_noSpace h.name_slug.noSpace
  · rw [oneLine_yamlScalar_iff, h.flatten_desc, h.desc_eq]
    exact fitDesc_oneLine _
  · decide
  · exact oneLine_of_noSpace env.now.noSpace
  · exact env.session.oneLine
  · rw [oneLine_yamlScalar_iff, h.flatten_trigger]
    exact (validTriggers_plain _ h.trigger_mem).1
  · exact absurd rfl hne
  · rw [oneLine_yamlScalar_iff, h.flatten_category]
    exact oneLine_of_noSpace h.category_slug.noSpace
  · exact oneLine_of_noSpace (Digest.noSpace _)

theorem Accepted.header_value (h : Accepted env a r) :
    ∀ kv ∈ r.header env, kv.2 = yamlScalar r.source ∨ OneLine kv.2 := by
  intro kv hkv
  by_cases hkey : kv.1 = "created_by".toList
  · have hvalue : ∀ x ∈ r.header env, x.1 = "created_by".toList → x.2 = yamlScalar r.source := by
      simp [Request.header, header]
    exact Or.inl (hvalue kv hkv hkey)
  · exact Or.inr (h.header_oneLine kv hkv hkey)

/-- With the creator id on one line, every value is. -/
theorem Accepted.header_line (h : Accepted env a r) (hs : OneLine (flatten r.source)) :
    ∀ kv ∈ r.header env, OneLine kv.2 := by
  intro kv hkv
  rcases h.header_value kv hkv with he | he
  · rwa [he, oneLine_yamlScalar_iff]
  · exact he

/-- With no fence in the description and the creator id, no value holds one. -/
theorem Accepted.header_fence (h : Accepted env a r) (hd : NoFence r.desc)
    (hs : NoFence (flatten r.source)) :
    ∀ kv ∈ r.header env, NoFence kv.2 := by
  intro kv hkv
  simp only [Request.header, header, List.mem_cons, List.not_mem_nil, or_false] at hkv
  rcases hkv with rfl | rfl | rfl | rfl | rfl | rfl | rfl | rfl | rfl
  · exact h.name_eq ▸ kebab_noFence _ _
  · rwa [noFence_yamlScalar_iff, h.flatten_desc]
  · decide
  · exact env.now.noFence
  · exact env.session.noFence
  · rw [noFence_yamlScalar_iff, h.flatten_trigger]
    exact (validTriggers_plain _ h.trigger_mem).2.2
  · rwa [noFence_yamlScalar_iff]
  · rw [noFence_yamlScalar_iff, h.flatten_category]
    exact h.category_eq ▸ kebab_noFence _ _
  · exact Digest.noFence _

/-- With the creator id on one line, the header's lines are one line each. -/
theorem Accepted.lines_oneLine (h : Accepted env a r) (hs : OneLine (flatten r.source)) :
    ∀ l ∈ r.lines env, OneLine l := by
  intro l hl
  obtain ⟨kv, hkv, rfl⟩ := List.mem_map.mp hl
  exact oneLine_field (headerKeys_line _ (header_key_mem hkv)).1 (h.header_line hs kv hkv)

/-- With no fence in the description and the creator id, the header's lines hold none. -/
theorem Accepted.lines_noFence (h : Accepted env a r) (hd : NoFence r.desc)
    (hs : NoFence (flatten r.source)) :
    ∀ l ∈ r.lines env, NoFence l := by
  intro l hl
  obtain ⟨kv, hkv, rfl⟩ := List.mem_map.mp hl
  exact noFence_field (headerKeys_line _ (header_key_mem hkv)).2 (h.header_fence hd hs kv hkv)

/-! ### When every reader gives the header back -/

/-- Every reader gives back what was rendered: exactly the header's keys, in order, with
their values. The server's fallback is what it uses when PyYAML is not there. -/
structure ReadsBack (env : Env) (r : Request) : Prop where
  writer : (readFrontmatter (r.rendered env)).1 = r.fm env
  collect : collectFm (r.rendered env) = r.fm env
  sync : syncFm (r.rendered env) = r.fm env
  server : ∃ body status,
    Server.splitFrontmatterEx none (r.rendered env) = .ok (Server.ofFlat (r.fm env), body, status)

/-- The free text of a request is clean: the creator id, as `_yaml_scalar` flattens it,
is on one line, and neither it nor the description holds a fence. -/
structure Clean (r : Request) : Prop where
  source_line : OneLine (flatten r.source)
  source_fence : NoFence (flatten r.source)
  desc_fence : NoFence r.desc

/-- The reader of the writer and the two tools on a clean request. -/
theorem Clean.readFrontmatter_eq (hc : Clean r) (h : Accepted env a r) :
    (readFrontmatter (r.rendered env)).1 = r.fm env := by
  have hlines := h.lines_oneLine hc.source_line
  have hsplit : splitlines (unlines (r.lines env)) = r.lines env := by
    simpa [splitlines] using splitlines_unlines_append hlines []
  rw [Request.rendered_eq, readFrontmatter,
    fenceSplit_unlines (h.lines_noFence hc.desc_fence hc.source_fence)]
  simp only
  rw [parseLines_splitlines_newline_cons, hsplit, h.parseLines_lines]

/-- The server's fallback on a clean request. -/
theorem Clean.splitFrontmatterEx_eq (hc : Clean r) (h : Accepted env a r) :
    ∃ body status, Server.splitFrontmatterEx none (r.rendered env) =
        .ok (Server.ofFlat (r.fm env), body, status) := by
  have hlines := h.lines_oneLine hc.source_line
  have hfence : ∀ l ∈ r.lines env, OneLine l ∧ strip l ≠ fence := fun l hl =>
    ⟨hlines l hl, fun he =>
      h.lines_noFence hc.desc_fence hc.source_fence l hl (he ▸ infix_stripBy isSpace l)⟩
  have hp : fence.isPrefixOf (r.rendered env) = true := by
    rw [Request.rendered_eq]
    exact List.isPrefixOf_iff_prefix.mpr (List.prefix_append _ _)
  have hjoin : splitlines (join ['\n'] (r.lines env)) = r.lines env := by
    refine Server.splitlines_join fun l hl => ⟨hlines l hl, ?_⟩
    obtain ⟨kv, -, rfl⟩ := List.mem_map.mp hl
    simp [field]
  rw [Server.splitFrontmatterEx, if_neg (by simp [hp]), Request.rendered_eq,
    Server.blockLines_unlines hfence]
  simp only [Server.flatFallback_eq, hjoin, h.parseLines_lines]
  exact ⟨_, _, rfl⟩

theorem Clean.readsBack (hc : Clean r) (h : Accepted env a r) : ReadsBack env r :=
  ⟨hc.readFrontmatter_eq h, (collectFm_eq _).trans (hc.readFrontmatter_eq h),
    (syncFm_eq _).trans (hc.readFrontmatter_eq h), hc.splitFrontmatterEx_eq h⟩

/-! ### Why nothing less will do -/

/-- Values come from lines, so a creator id that the readers give back is on one line. -/
theorem source_line_of_read (h : (readFrontmatter (r.rendered env)).1 = r.fm env) :
    OneLine (flatten r.source) := by
  rw [readFrontmatter] at h
  cases hf : fenceSplit (r.rendered env) with
  | none => rw [hf] at h; cases h
  | some ab =>
    obtain ⟨raw, body⟩ := ab
    rw [hf] at h
    simp only at h
    have hmem : ("created_by".toList, flatten r.source) ∈ parseLines (splitlines raw) := by
      rw [h]
      simp [Request.fm]
    exact oneLine_of_mem_parseLines (fun l hl => oneLine_of_mem_splitlines hl) hmem

/-- Of lines that are not all without a fence, the first that holds one. -/
theorem exists_first_fence : ∀ {ls : List Text}, ¬ (∀ l ∈ ls, NoFence l) →
    ∃ pre l post, ls = pre ++ l :: post ∧ (∀ m ∈ pre, NoFence m) ∧ ¬ NoFence l
  | [], h => absurd (by simp) h
  | l :: ls, h => by
    by_cases hl : NoFence l
    · have hls : ¬ ∀ m ∈ ls, NoFence m := fun hall => h fun m hm => by
        rcases List.mem_cons.mp hm with rfl | hm
        · exact hl
        · exact hall m hm
      obtain ⟨pre, m, post, rfl, hpre, hm⟩ := exists_first_fence hls
      refine ⟨l :: pre, m, post, rfl, ?_, hm⟩
      intro x hx
      rcases List.mem_cons.mp hx with rfl | hx
      · exact hl
      · exact hpre x hx
    · exact ⟨[], l, ls, rfl, by simp, hl⟩

/-- A fence in a line before the last one ends the block there, so that the reader gives
fewer items than there are lines. -/
theorem length_readFrontmatter_lt {pre post : List Text} {l t : Text}
    (hone : ∀ m ∈ pre ++ l :: post, OneLine m)
    (hpre : ∀ m ∈ pre, NoFence m) (hl : ¬ NoFence l) (hpost : post ≠ []) :
    (readFrontmatter (fence ++ '\n' :: (unlines (pre ++ l :: post) ++ t))).1.length <
        (pre ++ l :: post).length := by
  obtain ⟨⟨a, b⟩, hcut⟩ : ∃ ab, cut fence l = some ab := by
    rw [← Option.ne_none_iff_exists']
    exact fun hn => hl (cut_eq_none_iff.mp hn)
  have ha : OneLine a := (hone l (by simp)).of_subset fun c hc => by
    rw [cut_eq_append hcut]
    simp [hc]
  have hsplit : fenceSplit (fence ++ '\n' :: (unlines (pre ++ l :: post) ++ t)) =
      some ('\n' :: (unlines pre ++ a), b ++ '\n' :: (unlines post ++ t)) := by
    rw [unlines_append, unlines_cons, List.append_assoc, List.append_assoc, List.cons_append,
      fenceSplit_fence_append, cut_fence_unlines hpre, cut_append hcut]
    rfl
  have hlen : (splitlines a).length ≤ 1 := by
    by_cases hnil : a = []
    · rw [hnil]; decide
    · rw [splitlines_oneLine ha hnil]; rfl
  have hpost' : 0 < post.length := List.length_pos_iff.mpr hpost
  rw [readFrontmatter, hsplit]
  simp only
  rw [parseLines_splitlines_newline_cons,
    splitlines_unlines_append fun m hm => hone m (by simp [hm])]
  have := length_parseLines_le (pre ++ splitlines a)
  simp only [List.length_append, List.length_cons] at this ⊢
  omega

/-- A request that the writer's reader gives back is clean. -/
theorem clean_of_read (h : Accepted env a r)
    (hr : (readFrontmatter (r.rendered env)).1 = r.fm env) : Clean r := by
  have hline := source_line_of_read hr
  have hfence : ∀ l ∈ r.lines env, NoFence l := by
    by_contra hnot
    obtain ⟨pre, l, post, heq, hpre, hl⟩ := exists_first_fence hnot
    have hone : ∀ m ∈ pre ++ l :: post, OneLine m := heq ▸ h.lines_oneLine hline
    have hpost : post ≠ [] := by
      -- the last line is the hash, which holds no fence
      rintro rfl
      have hlast : (r.lines env).getLast? = some (field "content_hash".toList (r.newHash env)) :=
        rfl
      rw [heq, List.getLast?_concat, Option.some.injEq] at hlast
      exact hl (hlast ▸ noFence_field (by decide) (Digest.noFence _))
    have hlt := length_readFrontmatter_lt (t := fence ++ '\n' :: (rstrip r.fullBody ++ ['\n'])) hone
      hpre hl hpost
    rw [← heq, ← Request.rendered_eq, hr] at hlt
    exact absurd hlt (by simp [Request.fm, Request.lines, Request.header, header])
  have hvalue : ∀ kv ∈ r.header env, NoFence kv.2 := by
    intro kv hkv
    apply (hfence (field kv.1 kv.2) (List.mem_map_of_mem hkv)).mono
    exact ⟨kv.1 ++ [':', ' '], [], by simp [field]⟩
  refine ⟨hline, ?_, ?_⟩
  · exact (noFence_yamlScalar_iff _).mp
      (hvalue ("created_by".toList, _) (by simp [Request.header, header]; rfl))
  · rw [← h.flatten_desc]
    exact (noFence_yamlScalar_iff _).mp
      (hvalue ("description".toList, _) (by simp [Request.header, header]; rfl))

theorem readsBack_iff (h : Accepted env a r) : ReadsBack env r ↔ Clean r :=
  ⟨fun hr => clean_of_read h hr.writer, fun hc => hc.readsBack h⟩

end

/-! ### The claim, with a sample environment -/

/-- `str.lower` on ASCII. -/
def asciiLower (t : Text) : Text :=
  t.map fun c => if 65 ≤ c.toNat ∧ c.toNat ≤ 90 then Char.ofNat (c.toNat + 32) else c

/-- The SHA-256 digest of the one-character text `b`. -/
def digestB : Digest where
  text := "3e23e8160039594a33894f6564e1b1348bbd7a0088d42c4acb73eeaed59c009d".toList
  length_eq := by decide
  hex := List.all_eq_true.mp (by decide)

/-- An environment in which only the body `b` is hashed. -/
def sampleEnv : Env where
  now := ⟨"2026-08-20T00:00:00+07:00".toList, List.all_eq_true.mp (by decide), by decide⟩
  session := ⟨"0a1b2c3d".toList, by decide, by decide⟩
  autoSkillSource := []
  sha256 := fun _ => digestB
  lower := asciiLower
  repr := fun t => '\'' :: t ++ ['\'']

/-- `create --name deploy-x --desc <desc> --source bob --body b`, repaired. -/
def sampleRequest (desc : Text) : Request :=
  ⟨"deploy-x".toList, desc, [], "bob".toList, [], "b".toList, []⟩

/-- **Reading back what `create` writes**: for every accepted argument tuple, every
reader gives back exactly what was rendered if and only if the creator id is on one line
and neither it nor the description holds a fence. -/
theorem create_readsBack_iff (env : Env) (a : Args) (r : Request) (h : prepare env a = .ok r) :
    ReadsBack env r ↔ Clean r :=
  readsBack_iff (accepted_of_prepare h)

/-- An accepted request that is read back. -/
theorem create_readsBack_sample :
    ReadsBack sampleEnv (sampleRequest "Deploy x: steps".toList) ↔
        Clean (sampleRequest "Deploy x: steps".toList) :=
  create_readsBack_iff sampleEnv
    { name := "deploy-x".toList, desc := "Deploy x: steps".toList, body := "b".toList,
      source := "bob".toList } _ rfl

/-- A description with `---` in it is accepted and not read back. -/
theorem not_readsBack_fence :
    ¬ ∀ (env : Env) (a : Args) (r : Request), prepare env a = .ok r → ReadsBack env r := by
  intro hall
  have hp : prepare sampleEnv
      { name := "deploy-x".toList, desc := "Use --- here".toList, body := "b".toList,
        source := "bob".toList } =
      .ok (sampleRequest "Use --- here".toList) := rfl
  have hc : Clean (sampleRequest "Use --- here".toList) :=
    (readsBack_iff (accepted_of_prepare hp)).mp (hall _ _ _ hp)
  exact absurd hc.desc_fence (by decide)

end OracleSkills.Writer
