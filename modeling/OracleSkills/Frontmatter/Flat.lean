import OracleSkills.Python.Text
import OracleSkills.Python.Dict

/-!
# Flat frontmatter

A `SKILL.md` begins with a frontmatter block between two `---` fences, one
`key: value` to a line. `auto_skill.py`, `collect_commit.py` and `sync_skills.py`
each carry a copy of the same reader of it: cut the text at the first two
occurrences of `---`, go through the lines of what is between, skip blank and
indented lines ("top-level keys only"), split the others at their first colon and
take the quotes off the value. The reader is modelled here once, as `parseLines`
over `fenceSplit`, and each program's own function is an instance.

`readLine_field` says what the reader makes of a line `key: value`, and
`fenceSplit_unlines` where it finds the closing fence of a text built from lines.
-/

namespace OracleSkills.Frontmatter

open Python

/-- The fence `---`. -/
def fence : Text := ['-', '-', '-']

/-- No fence inside `t`. -/
def NoFence (t : Text) : Prop := ¬ fence <:+: t

instance (t : Text) : Decidable (NoFence t) := inferInstanceAs (Decidable (¬ fence <:+: t))

theorem NoFence.mono {a b : Text} (hb : NoFence b) (h : a <:+: b) : NoFence a :=
  fun ha => hb (ha.trans h)

/-- `_unquote`: take a YAML single- or double-quoted scalar out of its quotes. -/
def unquote (v : Text) : Text :=
  if 2 ≤ v.length ∧ v.head? = v.getLast? ∧ (v.head? = some '"' ∨ v.head? = some '\'') then
    if v.head? = some '\'' then replaceAll ['\'', '\''] ['\''] v.tail.dropLast else v.tail.dropLast
  else v

/-- A value that does not begin with a quote is left as it is. -/
theorem unquote_of_head {v : Text} (h : v.head? ≠ some '"') (h' : v.head? ≠ some '\'') :
    unquote v = v := by
  simp [unquote, h, h']

/-- One turn of the reader's loop: `line` added to the dictionary `fm`. -/
def readLine (fm : Dict Text Text) (line : Text) : Dict Text Text :=
  if strip line = [] ∨ lstrip line ≠ line then fm
  else
    match cut [':'] line with
    | none => fm
    | some (k, v) => fm.set (strip k) (unquote (strip v))

/-- The reader's loop over the lines of a block. -/
def parseLines (lines : List Text) : Dict Text Text := lines.foldl readLine []

/-- `text.split("---", 2)` of a text that starts with a fence, as its second and third
part: the block and what follows it. -/
def fenceSplit (text : Text) : Option (Text × Text) :=
  if fence.isPrefixOf text then
    match splitAt fence 2 text with
    | [_, raw, body] => some (raw, body)
    | _ => none
  else none

/-- `auto_skill.py::_read_frontmatter`: the dictionary and the body. -/
def readFrontmatter (text : Text) : Dict Text Text × Text :=
  match fenceSplit text with
  | none => ([], text)
  | some (raw, body) => (parseLines (splitlines raw), body.dropWhile (· = '\n'))

/-- `collect_commit.py::_fm`. -/
def collectFm (text : Text) : Dict Text Text :=
  match fenceSplit text with
  | none => []
  | some (raw, _) => parseLines (splitlines raw)

/-- `sync_skills.py::_fm`. -/
def syncFm (text : Text) : Dict Text Text :=
  match fenceSplit text with
  | none => []
  | some (raw, _) => parseLines (splitlines raw)

theorem collectFm_eq (text : Text) : collectFm text = (readFrontmatter text).1 := by
  rw [collectFm, readFrontmatter]
  cases fenceSplit text <;> rfl

theorem syncFm_eq (text : Text) : syncFm text = (readFrontmatter text).1 := collectFm_eq text

/-! ### What the reader makes of a line -/

/-- A frontmatter key: it is not empty, is blank at neither end, and has no colon. -/
structure PlainKey (k : Text) : Prop where
  ne_nil : k ≠ []
  stripped : Stripped k
  noColon : ':' ∉ k

instance (k : Text) : Decidable (PlainKey k) :=
  decidable_of_iff (k ≠ [] ∧ Stripped k ∧ ':' ∉ k) ⟨fun h => ⟨h.1, h.2.1, h.2.2⟩,
    fun h => ⟨h.1, h.2, h.3⟩⟩

/-- A frontmatter line, `f"{key}: {value}"`. -/
def field (k v : Text) : Text := k ++ ':' :: ' ' :: v

theorem oneLine_field {k v : Text} (hk : OneLine k) (hv : OneLine v) : OneLine (field k v) := by
  have hsep : OneLine [':', ' '] := by decide
  exact hk.append (hsep.append hv)

/-- A field holds a fence only in its key or its value. -/
theorem noFence_field {k v : Text} (hk : NoFence k) (hv : NoFence v) : NoFence (field k v) := by
  have hnil : ¬ fence <:+: [] := by decide
  intro h
  rcases (infix_append_cons_iff (by decide) (by decide)).mp h with h | h
  · exact hk h
  · rcases (infix_append_cons_iff (x := []) (by decide) (by decide)).mp h with h | h
    · exact hnil h
    · exact hv h

/-- The item that the reader takes from a line. -/
def lineItem (line : Text) : Option (Text × Text) :=
  if strip line = [] ∨ lstrip line ≠ line then none
  else (cut [':'] line).map fun kv => (strip kv.1, unquote (strip kv.2))

theorem readLine_eq (fm : Dict Text Text) (line : Text) :
    readLine fm line = (lineItem line).elim fm fun kv => fm.set kv.1 kv.2 := by
  rw [readLine, lineItem]
  split_ifs
  · rfl
  · cases cut [':'] line <;> rfl

/-- The value that a line gives to a key. -/
def lineValue (k line : Text) : Option Text :=
  (lineItem line).bind fun kv => if kv.1 = k then some kv.2 else none

/-- The values that lines give to a key, one behind the other. -/
def values (k : Text) (lines : List Text) : List Text := lines.filterMap (lineValue k)

theorem values_append (k : Text) (ls ms : List Text) :
    values k (ls ++ ms) = values k ls ++ values k ms :=
  List.filterMap_append

theorem get?_readLine (fm : Dict Text Text) (line k : Text) :
    (readLine fm line).get? k = (lineValue k line).or (fm.get? k) := by
  rw [readLine_eq, lineValue]
  cases lineItem line with
  | none => rfl
  | some kv =>
    rw [Option.elim_some, Dict.get?_set, Option.bind_some]
    by_cases hk : kv.1 = k
    · simp [hk]
    · simp [hk, Ne.symm hk]

/-- **The reader gives a key its last value.** -/
theorem get?_parseLines (k : Text) (lines : List Text) :
    (parseLines lines).get? k = (values k lines).getLast? := by
  have hrun : ∀ (ls : List Text) (fm : Dict Text Text),
      (ls.foldl readLine fm).get? k = ((values k ls).getLast?).or (fm.get? k) := by
    intro ls
    induction ls with
    | nil => exact fun fm => rfl
    | cons l ls ih =>
      intro fm
      have hcons : values k (l :: ls) = (lineValue k l).toList ++ values k ls := by
        rw [values, List.filterMap_cons]
        cases lineValue k l <;> rfl
      rw [List.foldl_cons, ih, get?_readLine, hcons, List.getLast?_append]
      cases lineValue k l <;> cases (values k ls).getLast? <;> rfl
  have h := hrun lines []
  rwa [show Dict.get? k ([] : Dict Text Text) = none from rfl, Option.or_none] at h

/-- The reader takes `key: value` for the key and the value, stripped and unquoted. -/
theorem lineItem_field {k : Text} (hk : PlainKey k) (v : Text) :
    lineItem (field k v) = some (k, unquote (strip v)) := by
  obtain ⟨c, r, rfl⟩ := List.exists_cons_of_ne_nil hk.ne_nil
  have hs : strip (c :: r) = c :: r := hk.stripped
  have hc : isSpace c = false := stripBy_head (t := c :: r) (by rw [← strip, hs]; rfl)
  have h1 : strip (field (c :: r) v) ≠ [] := strip_cons_ne_nil hc _
  have h2 : lstrip (field (c :: r) v) = field (c :: r) v := lstrip_cons_of_not_space hc _
  rw [lineItem, if_neg (by simp [h1, h2]), field, cut_singleton hk.noColon]
  simp only [Option.map_some, hs, strip_blank_cons]

theorem readLine_field {k : Text} (hk : PlainKey k) (fm : Dict Text Text) (v : Text) :
    readLine fm (field k v) = fm.set k (unquote (strip v)) := by
  rw [readLine_eq, lineItem_field hk]
  rfl

theorem plainKey_name : PlainKey "name".toList := by decide

/-- **The dictionary of a block of fields**: with plain keys, all different, the reader
gives back every key with its value stripped and unquoted, in order. -/
theorem parseLines_fields {kvs : List (Text × Text)} (hk : ∀ kv ∈ kvs, PlainKey kv.1)
    (hd : (kvs.map Prod.fst).Nodup) :
    parseLines (kvs.map fun kv => field kv.1 kv.2) = kvs.map fun kv =>
        (kv.1, unquote (strip kv.2)) := by
  have h : ∀ (kvs : List (Text × Text)) (fm : Dict Text Text), (∀ kv ∈ kvs, PlainKey kv.1) →
      (kvs.map Prod.fst).Nodup → (∀ kv ∈ kvs, kv.1 ∉ fm.keys) →
      (kvs.map fun kv => field kv.1 kv.2).foldl readLine fm = fm ++ kvs.map fun kv =>
          (kv.1, unquote (strip kv.2)) := by
    intro kvs
    induction kvs with
    | nil => intro fm _ _ _; simp
    | cons kv kvs ih =>
      intro fm hk hd hf
      rw [List.map_cons, List.nodup_cons] at hd
      have hnew : kv.1 ∉ fm.keys := hf kv (List.mem_cons_self ..)
      rw [List.map_cons, List.foldl_cons, readLine_field (hk kv (List.mem_cons_self ..)),
        Dict.set_of_not_mem _ hnew, ih _ (fun x hx => hk x (List.mem_cons_of_mem _ hx)) hd.2]
      · simp
      · intro x hx hmem
        rw [Dict.keys, List.map_append, List.mem_append] at hmem
        rcases hmem with hmem | hmem
        · exact hf x (List.mem_cons_of_mem _ hx) hmem
        · rw [List.map_cons, List.map_nil, List.mem_singleton] at hmem
          exact hd.1 (hmem ▸ List.mem_map_of_mem hx)
  simpa [parseLines] using h kvs [] hk hd (by simp [Dict.keys])

theorem length_readLine_le (fm : Dict Text Text) (line : Text) :
    (readLine fm line).length ≤ fm.length + 1 := by
  rw [readLine]
  split_ifs
  · omega
  · split
    · omega
    · exact Dict.length_set_le _ _ _

/-- The reader keeps at most one item for each line. -/
theorem length_parseLines_le (lines : List Text) : (parseLines lines).length ≤ lines.length := by
  have h : ∀ (ls : List Text) (fm : Dict Text Text), (ls.foldl readLine fm).length ≤ fm.length +
      ls.length := by
    intro ls
    induction ls with
    | nil => intro fm; simp
    | cons l ls ih =>
      intro fm
      have := ih (readLine fm l)
      have := length_readLine_le fm l
      simp only [List.foldl_cons, List.length_cons]
      omega
  simpa [parseLines] using h lines []

/-! ### Where the reader finds the closing fence -/

theorem fenceSplit_eq_some_iff {text raw body : Text} :
    fenceSplit text = some (raw, body) ↔ text = fence ++ (raw ++ (fence ++ body)) ∧
        NoFence (raw ++ ['-', '-']) := by
  have hne : fence ≠ [] := by decide
  unfold fenceSplit
  split_ifs with hp
  · obtain ⟨t, rfl⟩ := List.isPrefixOf_iff_prefix.mp hp
    have hcut : cut fence t = some (raw, body) ↔ t = raw ++ (fence ++ body) ∧
        NoFence (raw ++ ['-', '-']) := by
      rw [cut_eq_some_iff hne, List.append_assoc]
      rfl
    rw [List.append_cancel_left_eq, ← hcut, splitAt, cut_append_self hne]
    simp only [splitAt]
    cases cut fence t with
    | none => simp
    | some ab => simp [Prod.ext_iff]
  · refine iff_of_false (by simp) ?_
    rintro ⟨rfl, -⟩
    exact hp (List.isPrefixOf_iff_prefix.mpr (List.prefix_append _ _))

/-- The cut at the fence passes over lines that hold none. -/
theorem cut_fence_unlines {ls : List Text} (h : ∀ l ∈ ls, NoFence l) (t : Text) :
    cut fence (unlines ls ++ t) = (cut fence t).map fun ab => (unlines ls ++ ab.1, ab.2) := by
  induction ls with
  | nil => simp
  | cons l ls ih =>
    have hl : NoFence l := h l (List.mem_cons_self ..)
    rw [unlines_cons, List.append_assoc, List.cons_append,
      cut_append_cons (by decide) (by decide) hl,
      ih fun m hm => h m (List.mem_cons_of_mem _ hm), Option.map_map]
    simp [Function.comp_def]

/-- `fenceSplit` of a text that begins with a fence line. -/
theorem fenceSplit_fence_append {t : Text} :
    fenceSplit (fence ++ '\n' :: t) = (cut fence t).map fun ab => ('\n' :: ab.1, ab.2) := by
  have hp : fence.isPrefixOf (fence ++ '\n' :: t) = true :=
    List.isPrefixOf_iff_prefix.mpr (List.prefix_append _ _)
  have hn : cut fence ('\n' :: t) = (cut fence t).map fun ab => ('\n' :: ab.1, ab.2) := by
    simpa using cut_append_cons (y := t) (c := '\n') (by decide) (show fence ≠ [] by decide)
      (show ¬ fence <:+: [] by decide)
  rw [fenceSplit, if_pos hp, splitAt, cut_append_self (by decide)]
  simp only [splitAt, hn]
  cases cut fence t <;> rfl

/-- **The block of a text built from lines**: with no fence in the lines, the reader
finds the fence that closes them. -/
theorem fenceSplit_unlines {ls : List Text} (h : ∀ l ∈ ls, NoFence l) (t : Text) :
    fenceSplit (fence ++ '\n' :: (unlines ls ++ (fence ++ t))) = some ('\n' :: unlines ls, t) := by
  rw [fenceSplit_fence_append, cut_fence_unlines h, cut_append_self (by decide)]
  simp

/-- The reader ignores the line end after the opening fence. -/
theorem parseLines_splitlines_newline_cons (t : Text) :
    parseLines (splitlines ('\n' :: t)) = parseLines (splitlines t) := by
  have h := splitlines_append_newline (l := []) (t := t) (by intro c hc; cases hc)
  rw [List.nil_append] at h
  rw [h]
  rfl

/-! ### Values the reader gives -/

theorem oneLine_unquote {v : Text} (h : OneLine v) : OneLine (unquote v) := by
  have hin : OneLine v.tail.dropLast :=
    h.of_subset fun c hc => List.mem_of_mem_tail (List.mem_of_mem_dropLast hc)
  rw [unquote]
  split_ifs
  · exact oneLine_replaceAll (by decide) hin
  · exact hin
  · exact h

/-- Every value the reader gives stands on one line. -/
theorem oneLine_of_mem_parseLines {lines : List Text} (h : ∀ l ∈ lines, OneLine l) {k v : Text}
    (hv : (k, v) ∈ parseLines lines) : OneLine v := by
  have hstep : ∀ (fm : Dict Text Text) (l : Text), OneLine l → (∀ kv ∈ fm, OneLine kv.2) →
      ∀ kv ∈ readLine fm l, OneLine kv.2 := by
    intro fm l hl hfm kv hkv
    rw [readLine] at hkv
    split_ifs at hkv
    · exact hfm kv hkv
    · split at hkv
      · exact hfm kv hkv
      · rename_i a b hcut
        rcases Dict.mem_of_mem_set hkv with rfl | hkv
        · have hb : OneLine b := hl.of_subset fun c hc => by
            rw [cut_eq_append hcut]; exact List.mem_append_right _ hc
          exact oneLine_unquote (hb.of_subset (infix_stripBy isSpace b).subset)
        · exact hfm kv hkv
  have hrun : ∀ (ls : List Text) (fm : Dict Text Text), (∀ l ∈ ls, OneLine l) →
      (∀ kv ∈ fm, OneLine kv.2) →
      ∀ kv ∈ ls.foldl readLine fm, OneLine kv.2 := by
    intro ls
    induction ls with
    | nil => intro fm _ hfm; exact hfm
    | cons l ls ih =>
      intro fm hls hfm
      exact ih _ (fun m hm => hls m (List.mem_cons_of_mem _ hm))
        (hstep fm l (hls l (List.mem_cons_self ..)) hfm)
  exact hrun lines [] h (by simp) (k, v) hv

end OracleSkills.Frontmatter
