import OracleSkills.Server.Frontmatter
import OracleSkills.Writer.RoundTrip

/-!
# `skill_patch`

"Targeted in-place edit of a skill body + re-stamp provenance." The tool reads the
`SKILL.md`, replaces the one place of the body where `old_string` stands, puts the hash of
the new body, the time and the editor into the frontmatter, and writes the file anew.

`patch` is all of it between the read and the write. `Patched.stamped` says that what it
writes carries the hash of the body it writes, and `rawFrontmatter_text` that a plain body is
read back as it was written. What two calls do to one file is in
`OracleSkills.Server.PatchRace`.
-/

namespace OracleSkills.Server

open Python Frontmatter Writer

/-! ### The tool -/

/-- What `skill_patch` uses besides its arguments and the file. -/
structure PatchEnv where
  yaml : Yaml
  /-- `_now_iso()`. -/
  now : Stamp
  /-- `$AUTO_SKILL_SOURCE`, empty when it is not set. -/
  autoSkillSource : Text
  /-- SHA-256 of the UTF-8 encoding of a text, in hexadecimal. -/
  sha256 : Text → Digest

/-- The arguments that are texts; `none` is an argument that is not given. -/
structure PatchArgs where
  name : Text
  oldString : Option Text
  newString : Option Text
  editedBy : Text := []

/-- A patched file: its text, and the frontmatter lines and the body it was made of. -/
structure Patched where
  text : Text
  lines : List Text
  body : Text
  editedBy : Text

/-- `MAX_FILE_BYTES`. -/
def maxFileBytes : ℕ := 1000000

/-- The length of a text in UTF-8. -/
def utf8Length (t : Text) : ℕ := t.foldl (fun n c => n + c.utf8Size) 0

/-- The checks before the file is read: the strings to replace, or what is wrong. -/
def PatchArgs.check (args : PatchArgs) : Except Raised (Text × Text) :=
  let old := args.oldString.getD []
  if strip args.name = [] then .error (.valueError "skill_patch requires 'name'".toList)
  else if old = [] then .error (.valueError "skill_patch requires a non-empty 'old_string'".toList)
  else
    match args.newString with
    | none => .error (.valueError "skill_patch requires 'new_string'".toList)
    | some new =>
      if old = new then .error (.valueError "old_string and new_string are identical".toList)
      else .ok (old, new)

/-- `_read_text_capped` of a file that cannot be opened or read (`none`), or of one with a
size in bytes and a text, in which undecodable bytes are replaced. -/
def readTextCapped : Option (ℕ × Text) → Except Raised Text
  | none => .error (.valueError "could not read the requested file".toList)
  | some (size, text) =>
    if maxFileBytes < size then
      .error (.valueError
        ("file too large (".toList ++ (Nat.repr size).toList ++ " bytes; cap is ".toList ++
        (Nat.repr maxFileBytes).toList ++ ")".toList))
    else .ok text

/-- `_body_hash`. -/
def PatchEnv.bodyHash (env : PatchEnv) (body : Text) : Digest := env.sha256 (strip body)

/-- `source` in `tool_skill_patch`: who edits, on a single line. -/
def editor (env : PatchEnv) (args : PatchArgs) : Text :=
  let given := if args.editedBy ≠ [] then args.editedBy else env.autoSkillSource
  let source := strip (if given ≠ [] then given else "skills-mcp".toList)
  let first := match splitlines source with
    | [] => []
    | l :: _ => strip l
  if first ≠ [] then first else "skills-mcp".toList

/-- The frontmatter lines with the new provenance. -/
def restamp (env : PatchEnv) (lines : List Text) (hash : Digest) (source : Text) : List Text :=
  setFmKey (setFmKey (setFmKey lines "content_hash".toList hash.text false) "edited_at".toList
    env.now.text false)
    "edited_by".toList source true

/-- `new_text` in `tool_skill_patch`. -/
def patchText (lines : List Text) (body : Text) : Text :=
  let text :=
    if lines ≠ [] then "---\n".toList ++ join ['\n'] lines ++ "\n---\n".toList ++ body else body
  if text.getLast? = some '\n' then text else text ++ ['\n']

/-- The new file: the body with its replacement, under its stamp. -/
def edited (env : PatchEnv) (args : PatchArgs) (old new original : Text) : Patched :=
  let (lines, body) := rawFrontmatter original
  let newBody := replaceFirst old new body
  let source := editor env args
  let newLines := restamp env lines (env.bodyHash newBody) source
  ⟨patchText newLines newBody, newLines, newBody, source⟩

/-- `tool_skill_patch` from the text it read to the text it writes. -/
def patchRead (env : PatchEnv) (args : PatchArgs) (old new original : Text) :
    Except Raised Patched := do
  let (_, _, preStatus) ← splitFrontmatterEx env.yaml original
  let n := count old (rawFrontmatter original).2
  if n = 0 then
    .error (.valueError "old_string not found in skill body (patch edits the body only)".toList)
  else if 1 < n then
    .error (.valueError ("old_string matches ".toList ++ (Nat.repr n).toList ++
      " places; add surrounding context to make it unique".toList))
  else
    let r := edited env args old new original
    let (_, _, postStatus) ← splitFrontmatterEx env.yaml r.text
    match postStatus, preStatus with
    | some status, none =>
      -- "never hand back patched:true over a file we just made unparseable"
      .error (.valueError
        ("refusing to write: this patch would make the frontmatter unparseable (".toList ++
        status ++
        "). The body edit was NOT applied. Retry with a simpler 'edited_by' (no quotes or newlines).".toList))
    | _, _ => .ok r

/-- `tool_skill_patch` on a skill whose `SKILL.md` has the text `file`, up to the write. -/
def patch (env : PatchEnv) (args : PatchArgs) (file : Text) : Except Raised Patched := do
  let (old, new) ← args.check
  let original ← readTextCapped (some (utf8Length file, file))
  patchRead env args old new original

/-! ### What a patch that succeeds has done -/

/-- What is known of a patch of `file` that succeeds. -/
structure Succeeds (env : PatchEnv) (args : PatchArgs) (file : Text) (r : Patched)
    (old new : Text) : Prop where
  args_eq : args.oldString = some old ∧ args.newString = some new
  old_ne : old ≠ []
  eq : r = edited env args old new file

theorem check_eq_ok {args : PatchArgs} {old new : Text} (h : args.check = .ok (old, new)) :
    args.oldString = some old ∧ args.newString = some new ∧ old ≠ [] := by
  rw [PatchArgs.check] at h
  split_ifs at h with hname hold
  cases hn : args.newString with
  | none => rw [hn] at h; cases h
  | some n =>
    rw [hn] at h
    simp only at h
    split_ifs at h
    cases h
    cases ho : args.oldString with
    | none => exact absurd (by rw [ho]; rfl) hold
    | some o => exact ⟨by simp, rfl, by rwa [ho] at hold⟩

theorem check_ne {args : PatchArgs} {old new : Text} (h : args.check = .ok (old, new)) :
    old ≠ new := by
  rw [PatchArgs.check] at h
  split_ifs at h with hname hold
  split at h
  · cases h
  · split_ifs at h with hsame
    cases h
    exact hsame

theorem succeeds_of_patch {env : PatchEnv} {args : PatchArgs} {file : Text} {r : Patched}
    (h : patch env args file = .ok r) : ∃ old new, Succeeds env args file r old new := by
  obtain ⟨⟨old, new⟩, hc, h⟩ := bind_eq_ok.mp h
  obtain ⟨original, hr, h⟩ := bind_eq_ok.mp h
  rw [readTextCapped] at hr
  split_ifs at hr
  cases hr
  obtain ⟨ho, hn, hne⟩ := check_eq_ok hc
  refine ⟨old, new, ⟨ho, hn⟩, hne, ?_⟩
  obtain ⟨⟨fm, b, preStatus⟩, -, h⟩ := bind_eq_ok.mp h
  simp only at h
  split_ifs at h
  obtain ⟨⟨fm', b', postStatus⟩, -, h⟩ := bind_eq_ok.mp h
  simp only at h
  split at h
  · cases h
  · cases h
    rfl

/-- Without PyYAML every text can be split, and the status is not clean, -/
theorem splitFrontmatterEx_noYaml (text : Text) :
    ∃ fm body status, splitFrontmatterEx none text = .ok (fm, body, some status) := by
  rw [splitFrontmatterEx]
  split_ifs
  · split
    · exact ⟨_, _, _, rfl⟩
    · exact ⟨_, _, _, rfl⟩
  · exact ⟨_, _, _, rfl⟩

/-- so that no patch is refused for the status after it. -/
theorem patchRead_of_noYaml {env : PatchEnv} {file old : Text} (hyaml : env.yaml = none)
    (hcount : count old (rawFrontmatter file).2 = 1) (args : PatchArgs) (new : Text) :
    patchRead env args old new file = .ok (edited env args old new file) := by
  obtain ⟨fm, body, status, hpre⟩ := splitFrontmatterEx_noYaml file
  obtain ⟨fm', body', status', hpost⟩ :=
    splitFrontmatterEx_noYaml (edited env args old new file).text
  rw [patchRead, hyaml, hpre]
  show (if count old (rawFrontmatter file).2 = 0 then _ else _) = _
  rw [hcount, if_neg (by decide), if_neg (by decide)]
  show (splitFrontmatterEx none (edited env args old new file).text >>= _) = _
  rw [hpost]
  rfl

theorem patch_of_noYaml {env : PatchEnv} {args : PatchArgs} {file old new : Text}
    (hyaml : env.yaml = none)
    (hcheck : args.check = .ok (old, new)) (hlen : utf8Length file ≤ maxFileBytes)
    (hcount : count old (rawFrontmatter file).2 = 1) :
    patch env args file = .ok (edited env args old new file) := by
  have hread : readTextCapped (some (utf8Length file, file)) = .ok file := if_neg (by omega)
  rw [patch, hcheck]
  show (readTextCapped (some (utf8Length file, file)) >>= fun original =>
    patchRead env args old new original) = _
  rw [hread]
  exact patchRead_of_noYaml hyaml hcount args new

/-! ### The stamp -/

/-- The frontmatter carries the hash: there is a line with it, and every top-level
`content_hash` line is that line. -/
def Stamped (lines : List Text) (hash : Digest) : Prop :=
  field "content_hash".toList hash.text ∈ lines ∧
    ∀ l ∈ lines, isKeyLine "content_hash".toList l = true →
      l = field "content_hash".toList hash.text

theorem mem_setFmKey {lines : List Text} {key value l : Text} {quote : Bool}
    (h : l ∈ setFmKey lines key value quote) :
    l = field key (fmValue value quote) ∨ l ∈ lines ∧ isKeyLine key l = false := by
  have hmap : l ∈ lines.map (fun ln => if isKeyLine key ln then
      field key (fmValue value quote) else ln) →
      l = field key (fmValue value quote) ∨ l ∈ lines ∧ isKeyLine key l = false := by
    intro hm
    obtain ⟨ln, hln, rfl⟩ := List.mem_map.mp hm
    by_cases hk : isKeyLine key ln = true
    · exact Or.inl (if_pos hk)
    · rw [if_neg hk]
      exact Or.inr ⟨hln, by simpa using hk⟩
  simp only [setFmKey] at h
  split_ifs at h with hany
  · exact hmap h
  · rw [List.mem_append, List.mem_singleton] at h
    exact h.elim hmap Or.inl

theorem field_mem_setFmKey (lines : List Text) (key value : Text) (quote : Bool) :
    field key (fmValue value quote) ∈ setFmKey lines key value quote := by
  simp only [setFmKey]
  split_ifs with hany
  · obtain ⟨ln, hln, hk⟩ := List.any_eq_true.mp hany
    exact List.mem_map.mpr ⟨ln, hln, if_pos hk⟩
  · exact List.mem_append_right _ (List.mem_singleton_self _)

/-- A line of another key stays. -/
theorem mem_setFmKey_of_mem {lines : List Text} {key value l : Text} {quote : Bool} (hl : l ∈ lines)
    (hk : isKeyLine key l = false) : l ∈ setFmKey lines key value quote := by
  have hmap : l ∈ lines.map (fun ln => if isKeyLine key ln then
      field key (fmValue value quote) else ln) :=
    List.mem_map.mpr ⟨l, hl, by rw [hk]; rfl⟩
  simp only [setFmKey]
  split_ifs
  · exact hmap
  · exact List.mem_append_left _ hmap

theorem replaceChar_eq_self {a b : Char} {t : Text} (h : a ∉ t) : replaceChar a b t = t := by
  have hc : ∀ c ∈ t, (if c = a then b else c) = c := fun c hc => if_neg (by rintro rfl; exact h hc)
  rw [replaceChar, List.map_congr_left hc, List.map_id']

/-- A value without blanks, such as a hash or a time, is written as it is. -/
theorem fmValue_of_noSpace {t : Text} (h : ∀ c ∈ t, isSpace c = false) : fmValue t false = t := by
  have hn : ∀ c : Char, isSpace c = true → c ∉ t := fun c hc hm => by
    rw [h c hm] at hc
    cases hc
  rw [fmValue, if_neg (by decide), replaceChar_eq_self (hn '\n' (by decide)),
    replaceChar_eq_self (hn '\r' (by decide))]

theorem fmValue_digest (d : Digest) : fmValue d.text false = d.text := fmValue_of_noSpace d.noSpace

/-- A field of a plain key, stripped, is an initial part of it. -/
theorem strip_field_initial {key : Text} (hk : PlainKey key) (v : Text) :
    strip (field key v) <+: field key v := by
  obtain ⟨c, r, rfl⟩ := List.exists_cons_of_ne_nil hk.ne_nil
  have hs : strip (c :: r) = c :: r := hk.stripped
  have hc : isSpace c = false := stripBy_head (t := c :: r) (by rw [← strip, hs]; rfl)
  have hl : (field (c :: r) v).dropWhile isSpace = field (c :: r) v := lstrip_cons_of_not_space hc _
  rw [strip, stripBy, hl]
  exact List.rdropWhile_prefix _ _

/-- A field of one key is no line of another. -/
theorem isKeyLine_field_of_ne {key key' : Text} (hk : PlainKey key) (hk' : PlainKey key')
    (hne : key' ≠ key) (v : Text) :
    isKeyLine key' (field key v) = false := by
  have hnot : ¬ key' ++ [':'] <+: strip (field key v) := by
    rintro hp
    obtain ⟨z, hz⟩ := hp.trans (strip_field_initial hk v)
    rw [List.append_assoc, List.singleton_append] at hz
    have hcut := cut_singleton (y := z) hk'.noColon
    rw [hz, field, cut_singleton hk.noColon, Option.some.injEq, Prod.mk.injEq] at hcut
    exact hne hcut.1.symm
  rw [isKeyLine, isPrefixOf_eq_false hnot, Bool.and_false]

/-- A stamp stays when another key is set. -/
theorem Stamped.setFmKey {lines : List Text} {hash : Digest} (h : Stamped lines hash)
    {key value : Text} {quote : Bool}
    (hk : PlainKey key) (hne : key ≠ "content_hash".toList) :
    Stamped (setFmKey lines key value quote) hash := by
  have hc : PlainKey "content_hash".toList := by decide
  refine ⟨mem_setFmKey_of_mem h.1 (isKeyLine_field_of_ne hc hk hne _), fun l hl hkey => ?_⟩
  rcases mem_setFmKey hl with rfl | ⟨hl, -⟩
  · rw [isKeyLine_field_of_ne hk hc hne.symm] at hkey
    cases hkey
  · exact h.2 l hl hkey

/-- **The stamp**: the new frontmatter lines carry the hash they are given. -/
theorem stamped_restamp (env : PatchEnv) (lines : List Text) (hash : Digest) (source : Text) :
    Stamped (restamp env lines hash source) hash := by
  have hfirst : Stamped (Server.setFmKey lines "content_hash".toList hash.text false) hash := by
    have hmem := field_mem_setFmKey lines "content_hash".toList hash.text false
    rw [fmValue_digest] at hmem
    refine ⟨hmem, fun l hl hkey => ?_⟩
    rcases mem_setFmKey hl with rfl | ⟨-, hno⟩
    · rw [fmValue_digest]
    · rw [hno] at hkey
      cases hkey
  exact (hfirst.setFmKey (by decide) (by decide)).setFmKey (by decide) (by decide)

/-! ### Reading a patched file -/

/-- A frontmatter line: one line, and no fence. -/
def BlockLine (l : Text) : Prop := OneLine l ∧ strip l ≠ fence

theorem blockLine_field {key v : Text} (hk : PlainKey key) (hline : OneLine key)
    (hdash : key.head? ≠ some '-') (hv : OneLine v) : BlockLine (field key v) := by
  refine ⟨oneLine_field hline hv, fun he => hdash ?_⟩
  obtain ⟨c, r, rfl⟩ := List.exists_cons_of_ne_nil hk.ne_nil
  obtain ⟨z, hz⟩ := strip_field_initial hk v
  rw [he] at hz
  have hhead := congrArg List.head? hz
  exact hhead.symm

theorem blockLine_setFmKey {lines : List Text} (h : ∀ l ∈ lines, BlockLine l) {key value : Text}
    {quote : Bool} (hk : PlainKey key) (hline : OneLine key) (hdash : key.head? ≠ some '-')
    (hv : OneLine (fmValue value quote)) :
    ∀ l ∈ setFmKey lines key value quote, BlockLine l := by
  intro l hl
  rcases mem_setFmKey hl with rfl | ⟨hl, -⟩
  · exact blockLine_field hk hline hdash hv
  · exact h l hl

theorem blockLine_rawFrontmatter (text : Text) : ∀ l ∈ (rawFrontmatter text).1, BlockLine l := by
  intro l hl
  rw [rawFrontmatter] at hl
  split_ifs at hl
  · cases hb : blockLines text with
    | none => rw [hb] at hl; cases hl
    | some ab =>
      rw [hb] at hl
      obtain ⟨close, heq, -, hne⟩ := closeAt_spec hb
      have hmem : l ∈ (splitlines text).tail := heq ▸ List.mem_append_left _ hl
      exact ⟨oneLine_of_mem_splitlines (List.mem_of_mem_tail hmem), hne l hl⟩
  · cases hl

/-- The editor's name is on one line. -/
theorem oneLine_editor (env : PatchEnv) (args : PatchArgs) : OneLine (editor env args) := by
  have hfirst : ∀ t : Text, OneLine (match splitlines t with | [] => [] | l :: _ => strip l) := by
    intro t
    split
    · intro c hc
      cases hc
    · rename_i l ls heq
      have hl : OneLine l := oneLine_of_mem_splitlines (t := t) (heq ▸ List.mem_cons_self ..)
      exact hl.of_subset (infix_stripBy isSpace l).subset
  simp only [editor]
  split_ifs
  all_goals first | exact hfirst _ | decide

theorem blockLine_restamp (env : PatchEnv) {lines : List Text} (h : ∀ l ∈ lines, BlockLine l)
    (hash : Digest)
    (args : PatchArgs) : ∀ l ∈ restamp env lines hash (editor env args), BlockLine l := by
  have hhash : OneLine (fmValue hash.text false) := by
    rw [fmValue_digest]
    exact oneLine_of_noSpace hash.noSpace
  have hnow : OneLine (fmValue env.now.text false) := by
    rw [fmValue_of_noSpace env.now.noSpace]
    exact oneLine_of_noSpace env.now.noSpace
  have hsource : OneLine (fmValue (editor env args) true) := by
    rw [fmValue, if_pos rfl, oneLine_yamlScalar_iff]
    intro c hc
    rcases mem_flatten hc with rfl | ⟨hmem, -⟩
    · decide
    · exact oneLine_editor env args c hmem
  exact blockLine_setFmKey
    (blockLine_setFmKey (blockLine_setFmKey h (by decide) (by decide) (by decide) hhash)
      (by decide) (by decide)
      (by decide) hnow)
    (by decide) (by decide) (by decide) hsource

/-- The body as it is written: with a line end, if it is not empty. -/
def terminated (body : Text) : Text :=
  if body = [] ∨ body.getLast? = some '\n' then body else body ++ ['\n']

/-- The text of a patched file: a fence, the frontmatter lines, a fence, and the body. -/
theorem patchText_eq {lines : List Text} (hl : lines ≠ []) (body : Text) :
    patchText lines body = fence ++ '\n' ::
        (unlines lines ++ (fence ++ '\n' :: terminated body)) := by
  have htext : "---\n".toList ++ join ['\n'] lines ++ "\n---\n".toList ++ body =
      fence ++ '\n' :: (unlines lines ++ (fence ++ '\n' :: body)) := by
    have hj := join_append_newline hl
    have hsplit : "\n---\n".toList = ['\n'] ++ (fence ++ ['\n']) := rfl
    have hopen : "---\n".toList = fence ++ ['\n'] := rfl
    rw [hsplit, hopen, ← hj]
    simp
  have hlast : (fence ++ '\n' :: (unlines lines ++ (fence ++ '\n' :: body))).getLast? = some '\n' ↔
      body = [] ∨ body.getLast? = some '\n' := by
    by_cases hnil : body = []
    · subst hnil
      rw [show fence ++ '\n' :: (unlines lines ++ (fence ++ ['\n'])) =
        (fence ++ '\n' :: (unlines lines ++ fence)) ++ ['\n'] by simp, List.getLast?_concat]
      simp
    · obtain ⟨b, c, rfl⟩ : ∃ b c, body = b ++ [c] :=
        ⟨_, _, (List.dropLast_concat_getLast hnil).symm⟩
      rw [show fence ++ '\n' :: (unlines lines ++ (fence ++ '\n' :: (b ++ [c]))) =
        (fence ++ '\n' :: (unlines lines ++ (fence ++ '\n' :: b))) ++ [c] by
          simp, List.getLast?_concat,
        List.getLast?_concat]
      simp
  rw [patchText, terminated]
  simp only [if_pos hl, htext, hlast]
  split_ifs
  · rfl
  · simp

/-- **Reading back a patched file**: its frontmatter lines are read back as they were written, and
its body line by line. -/
theorem rawFrontmatter_patchText {lines : List Text} (hne : lines ≠ [])
    (hl : ∀ l ∈ lines, BlockLine l) (body : Text) :
    rawFrontmatter (patchText lines body) = (lines, bodyOf (splitlines (terminated body))) := by
  have hp : fence.isPrefixOf (patchText lines body) = true := by
    rw [patchText_eq hne]
    exact List.isPrefixOf_iff_prefix.mpr (List.prefix_append _ _)
  rw [rawFrontmatter, if_neg (by simp [hp]), patchText_eq hne, blockLines_unlines hl]

/-- A plain body is read back as it was written. -/
theorem bodyOf_plain {body : Text} (hb : Plain body) :
    bodyOf (splitlines (terminated body)) = body := by
  by_cases hnil : body = []
  · subst hnil
    rfl
  · obtain ⟨ls, hj, -, hs⟩ := hb.exists_lines hnil
    rw [terminated, if_neg (by simp [hnil, hb.last]), hs, bodyOf, ← hj]
    obtain ⟨c, t, rfl⟩ := List.exists_cons_of_ne_nil hnil
    have hc : c ≠ '\n' := fun hc => hb.head (by rw [hc]; rfl)
    simp [hc]

section

variable {env : PatchEnv} {args : PatchArgs} {file old new : Text} {r : Patched}

/-- A patch that succeeds writes a file that carries the hash of its body. -/
theorem Succeeds.stamped (h : Succeeds env args file r old new) :
    Stamped r.lines (env.bodyHash r.body) := by
  rw [h.eq]
  exact stamped_restamp _ _ _ _

theorem Succeeds.text_eq (h : Succeeds env args file r old new) :
    r.text = patchText r.lines r.body := by
  rw [h.eq]
  rfl

theorem Succeeds.body_eq (h : Succeeds env args file r old new) :
    r.body = replaceFirst old new (rawFrontmatter file).2 := by
  rw [h.eq]
  rfl

/-- The frontmatter lines of a patched file are read back, and its body line by line. -/
theorem Succeeds.read_lines (h : Succeeds env args file r old new) :
    rawFrontmatter r.text = (r.lines, bodyOf (splitlines (terminated r.body))) := by
  have hne : r.lines ≠ [] := List.ne_nil_of_mem h.stamped.1
  have hlines : ∀ l ∈ r.lines, BlockLine l := by
    rw [h.eq]
    exact blockLine_restamp env (blockLine_rawFrontmatter file) _ args
  rw [h.text_eq]
  exact rawFrontmatter_patchText hne hlines r.body

/-- A patch that succeeds with a plain body is read back. -/
theorem Succeeds.read_back (h : Succeeds env args file r old new) (hb : Plain r.body) :
    rawFrontmatter r.text = (r.lines, r.body) := by
  rw [h.read_lines, bodyOf_plain hb]

end

end OracleSkills.Server
