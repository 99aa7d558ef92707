import OracleSkills.Server.StampLines

/-!
# A skill after its patch

A call of `skill_patch` that succeeds writes the file that `build_index` reads next. The read side
has checks that the write side lacks: a cap on the size, and whatever the frontmatter makes of the
name and the platforms. `patch_survives_iff` says when the skill is still in the index, under its
name and with its description, category and trigger, and can be resolved and read. Without PyYAML
only the cap can take it away (`survives_noYaml_iff`).
-/

namespace OracleSkills.Server

open Python Frontmatter Writer

/-! ### What is to survive -/

/-- The entries list a skill in the same way. -/
structure SameListing (e e' : Entry) : Prop where
  name : e'.name = e.name
  path : e'.path = e.path
  description : e'.description = e.description
  category : e'.category = e.category
  trigger : e'.trigger = e.trigger

/-- The skill of the entry is still in the index, is resolved, and can be read. -/
structure Survives (W : World) (cache : Cache) (e : Entry) : Prop where
  listed : ∃ idx, (buildIndex W cache).1 = .ok idx ∧ ∃ e' ∈ idx.entries, SameListing e e'
  resolves : (skillDirOf W cache e.name).1 = .ok e.path.dir
  reads : ∃ text, readTextCapped (W.file e.path.path) = .ok text

/-- The files that `build_index` comes to before a file. -/
def earlier (W : World) (f : SkillMd) : List (Text × SkillMd) :=
  (iterSkillDirs W).takeWhile fun y => y.2.path ≠ f.path

/-- The frontmatter lists the skill in the same way, and gives its name to no earlier path of the
same file. -/
structure KeepsListing (W : World) (e : Entry) (aliases : List Text) (fm : Dict Text Value) :
    Prop where
  same : ∃ e', parseFm W e.path fm = .ok (.ok e') ∧ SameListing e e'
  alone : ∀ y ∈ earlier W e.path, y.2.path ∈ aliases → ∀ d, parseFm W y.2 fm = .ok (.ok d) →
    d.name ≠ e.name

/-- The files before a write and after it. -/
def beforeAfter (W W' : World) (after : Bool) : Files :=
  bif after then ⟨W'.glob, W'.stat, W'.file⟩ else ⟨W.glob, W.stat, W.file⟩

variable {W W' : World} {cache cache' : Cache} {e e' : Entry} {f g : SkillMd} {fm : Dict Text Value}
  {md text : Text} {x : Write}

/-! ### Parsing -/

/-- A frontmatter that makes an entry of one file can be parsed for any other. -/
theorem parseFm_ok_of_ok (h : parseFm W f fm = .ok (.ok e)) (g : SkillMd) :
    ∃ r, parseFm W g fm = .ok r := by
  obtain ⟨hname, hrest⟩ := parseFm_ok_iff.mp ⟨_, h⟩
  refine parseFm_ok_iff.mpr ⟨hname, fun _ => hrest fun hnil => ?_⟩
  obtain ⟨hn, hne, -⟩ := parseFm_entry h
  rw [hnil, Except.ok.injEq] at hn
  exact hne hn.symm

theorem parse_among (d : Files) (f : SkillMd) :
    parse (W.among d) f =
      match d.stat f.path with
      | none => .ok (.error "SKILL.md could not be stat'd".toList)
      | some _ => parseFresh (W.among d) f := rfl

/-- A path that is not written to is parsed as before, -/
theorem parse_write_of_not_mem (h : g.path ∉ md :: x.aliases) :
    parse (W.write md text x) g = parse W g := by
  have hbefore : parse W g = parse (W.among ⟨W.glob, W.stat, W.file⟩) g := rfl
  rw [World.write, hbefore, parse_among, parse_among, parseFresh_among, parseFresh_among]
  simp only [if_neg h]

/-- and one that is, as what is written. -/
theorem parse_write_of_mem (h : g.path ∈ md :: x.aliases) (hsize : utf8Length text ≤ maxFileBytes)
    {body : Text}
    {status : Option Text} (hsplit : splitFrontmatterEx W.yaml text = .ok (fm, body, status)) :
    parse (W.write md text x) g = parseFm W g fm := by
  have hread : readTextCapped (some (utf8Length text, text)) = .ok text := if_neg (by omega)
  rw [World.write, parse_among, parseFresh_among]
  simp only [if_pos h, hread, hsplit]
  rfl

/-! ### The index before and after -/

/-- An index that was built is the one of its parses. -/
theorem Recalls.indexSound {H : Bool → Files} (h : Recalls W H cache) (hH : Faithful H) (i : Bool)
    {idx : Index} (hb : (buildIndex (W.among (H i)) cache).1 = .ok idx) :
    IndexSound (W.among (H i)) idx ∧ ∀ y ∈ iterSkillDirs (W.among (H i)), ∃ r,
        parse (W.among (H i)) y.2 = .ok r := by
  rw [(h.buildIndex_eq hH i).1] at hb
  obtain ⟨rs, hrs⟩ := buildFresh_ok_iff.mp ⟨idx, hb⟩
  obtain ⟨idx', hb', hs⟩ := indexSound_of_parsed hrs
  rw [hb, Except.ok.injEq] at hb'
  exact ⟨hb' ▸ hs, parsed_iff.mp ⟨rs, hrs⟩⟩

/-- Where every file is parsed, the index is built. -/
theorem Recalls.exists_index {H : Bool → Files} (h : Recalls W H cache) (hH : Faithful H) (i : Bool)
    (hall : ∀ y ∈ iterSkillDirs (W.among (H i)), ∃ r, parse (W.among (H i)) y.2 = .ok r) :
    ∃ idx, (buildIndex (W.among (H i)) cache).1 = .ok idx ∧ IndexSound (W.among (H i)) idx := by
  obtain ⟨rs, hrs⟩ := parsed_iff.mpr hall
  obtain ⟨idx, hb, hs⟩ := indexSound_of_parsed hrs
  exact ⟨idx, (h.buildIndex_eq hH i).1.trans hb, hs⟩

theorem mem_of_mem_takeWhile_append {α : Type*} {p : α → Bool} {a b : List α} {x y : α}
    (h : y ∈ (a ++ x :: b).takeWhile p) (hx : p x = false) : y ∈ a := by
  induction a with
  | nil => simp [hx] at h
  | cons c a ih =>
    rw [List.cons_append, List.takeWhile_cons] at h
    split_ifs at h
    · rcases List.mem_cons.mp h with rfl | h
      · exact List.mem_cons_self ..
      · exact List.mem_cons_of_mem _ (ih h)
    · cases h

section

variable {idx : Index} {body : Text} {status : Option Text}

/-- What is known where a file of the index has been written. -/
structure Rewrites (W W' : World) (cache : Cache) (idx : Index) (e : Entry) (text : Text)
    (x : Write) (fm : Dict Text Value) :
    Prop where
  faithful : Faithful (beforeAfter W W')
  recalls : Recalls W (beforeAfter W W') cache
  built : (buildIndex W cache).1 = .ok idx
  mem : e ∈ idx.entries
  write : W' = W.write e.path.path text x
  split : ∃ body status, splitFrontmatterEx W.yaml text = .ok (fm, body, status)

/-- The entry is that of the first file with its name. -/
theorem Rewrites.first (h : Rewrites W W' cache idx e text x fm) :
    (∀ y ∈ iterSkillDirs W, ∃ r, parse W y.2 = .ok r) ∧ parse W e.path = .ok (.ok e) ∧
      ∃ pre y post, iterSkillDirs W = pre ++ y :: post ∧ y.2 = e.path ∧ (∀ z ∈ pre, z.2 ≠ e.path) ∧
        ∀ z ∈ pre, ∀ d, parse W z.2 = .ok (.ok d) → d.name ≠ e.name := by
  obtain ⟨hsound, hall⟩ := h.recalls.indexSound h.faithful false h.built
  obtain ⟨pre, y, post, hdirs, hy, hpre⟩ := (hsound.first e).mp h.mem
  have hpath : y.2 = e.path := (path_of_parse hy).symm
  have he : parse W e.path = .ok (.ok e) := hpath ▸ hy
  exact ⟨hall, he, pre, y, post, hdirs, hpath, fun z hz hsame => hpre z hz e (hsame ▸ he) rfl, hpre⟩

/-- A skill that survives has a file that can be read, and is still listed in the same way. -/
theorem Rewrites.of_survives (h : Rewrites W W' cache idx e text x fm)
    (hs : Survives W' (buildIndex W cache).2 e) :
    utf8Length text ≤ maxFileBytes ∧ KeepsListing W e x.aliases fm := by
  obtain ⟨hfaithful, hrecalls, -, -, rfl, body, status, hsplit⟩ := h
  obtain ⟨idx', hb', e', he', hsame⟩ := hs.listed
  obtain ⟨t, hread⟩ := hs.reads
  have hsize : utf8Length text ≤ maxFileBytes := by
    obtain ⟨size, hfile, hle⟩ := readTextCapped_ok hread
    rw [write_file, Option.some.injEq, Prod.mk.injEq] at hfile
    omega
  have hkept := (hrecalls.buildIndex_eq hfaithful false).2
  have hsound := (hkept.indexSound hfaithful true hb').1
  obtain ⟨pre, y, post, hdirs, hy, hpre⟩ := (hsound.first e').mp he'
  have hpath : y.2 = e.path := (path_of_parse hy).symm.trans hsame.path
  have hwritten : ∀ g : SkillMd, g.path ∈ e.path.path :: x.aliases →
      parse (W.write e.path.path text x) g = parseFm W g fm :=
        fun g hg => parse_write_of_mem hg hsize hsplit
  refine ⟨hsize, ⟨e', ?_, hsame⟩, fun z hz halias d hd => ?_⟩
  · have hy' : parse (W.write e.path.path text x) y.2 = .ok (.ok e') := hy
    rw [← hwritten e.path (List.mem_cons_self ..), ← hy', hpath]
  · have hzpre : z ∈ pre := by
      have hz' : z ∈ (pre ++ y :: post).takeWhile fun y => y.2.path ≠ e.path.path := hdirs ▸ hz
      exact mem_of_mem_takeWhile_append hz' (by simp [hpath])
    rw [← hsame.name]
    exact hpre z hzpre d ((hwritten z.2 (List.mem_cons_of_mem _ halias)).trans hd)

/-- **A skill that is listed in the same way survives**, if its file can be read. -/
theorem Rewrites.survives (h : Rewrites W W' cache idx e text x fm)
    (hsize : utf8Length text ≤ maxFileBytes)
    (hkeeps : KeepsListing W e x.aliases fm) : Survives W' (buildIndex W cache).2 e := by
  obtain ⟨hall, -, pre, y, post, hdirs, hy, hbefore, hpre⟩ := h.first
  obtain ⟨hfaithful, hrecalls, hb, he, rfl, body, status, hsplit⟩ := h
  obtain ⟨e', he', hsame⟩ := hkeeps.same
  have hwritten : ∀ g : SkillMd, g.path ∈ e.path.path :: x.aliases →
      parse (W.write e.path.path text x) g = parseFm W g fm :=
        fun g hg => parse_write_of_mem hg hsize hsplit
  have hparsed : ∀ z ∈ iterSkillDirs W, ∃ r, parse (W.write e.path.path text x) z.2 = .ok r := by
    intro z hz
    by_cases hmem : z.2.path ∈ e.path.path :: x.aliases
    · rw [hwritten z.2 hmem]
      exact parseFm_ok_of_ok he' z.2
    · rw [parse_write_of_not_mem hmem]
      exact hall z hz
  have hkept := (hrecalls.buildIndex_eq hfaithful false).2
  obtain ⟨idx', hb', hsound⟩ := hkept.exists_index hfaithful true hparsed
  have hparse : parse (W.write e.path.path text x) e.path = .ok (.ok e') :=
    (hwritten e.path (List.mem_cons_self ..)).trans he'
  have hmem' : e' ∈ idx'.entries := by
    refine (hsound.first e').mpr ⟨pre, y, post,
      hdirs, by rw [hy]; exact hparse, fun z hz d hd => ?_⟩
    rw [hsame.name]
    by_cases hmem : z.2.path ∈ e.path.path :: x.aliases
    · refine hkeeps.alone z ?_ ?_ d ((hwritten z.2 hmem).symm.trans hd)
      · rw [earlier, hdirs, List.takeWhile_append_of_pos]
        · exact List.mem_append_left _ hz
        · exact fun w hw => by simpa using fun hp => hbefore w hw (SkillMd.path_injective hp)
      · exact (List.mem_cons.mp hmem).resolve_left fun hp =>
          hbefore z hz (SkillMd.path_injective hp)
    · exact hpre z hz d ((parse_write_of_not_mem hmem).symm.trans hd)
  refine ⟨⟨idx', hb', e', hmem', hsame⟩, ?_, text, ?_⟩
  · have hdir := skillDirOf_of_mem hb' hsound.nodup hmem'
    rw [hsame.name, hsame.path] at hdir
    exact hdir
  · rw [write_file]
    exact if_neg (by omega)

end

/-! ### The call -/

/-- A call: the entry that its name is resolved to, what comes of the write, the text, and the
frontmatter that the server reads in it. -/
structure CallsOn (W : World) (env : PatchEnv) (written : Option Write) (cache : Cache)
    (args : PatchArgs) (e : Entry) (x : Write) (text : Text) (fm : Dict Text Value) : Prop where
  listed : ∃ idx, (buildIndex W cache).1 = .ok idx ∧ e ∈ idx.entries
  name : e.name = strip args.name
  written : written = some x
  writes : ∃ old new size original, args.oldString = some old ∧ args.newString = some new ∧
    W.file e.path.path = some (size, original) ∧ text = (edited env args old new original).text
  split : ∃ body status, splitFrontmatterEx W.yaml text = .ok (fm, body, status)

/-- **When a skill survives its patch**: after a call that succeeds, with a cache that recalls the
files, the skill is still listed in the same way, resolved and read, exactly if the new file is not
larger than the cap, and its frontmatter still gives the same name, description, category and
trigger, for this platform, and gives that name to no earlier path of the file. -/
theorem patch_survives_iff {env : PatchEnv} {written : Option Write} {args : PatchArgs}
    {reply : PatchReply} (h : toolSkillPatch W env written cache args = (.ok reply, W', cache'))
    (hfaithful : Faithful (beforeAfter W W'))
    (hcache : Recalls W (beforeAfter W W') cache) :
    ∃ e x text fm, CallsOn W env written cache args e x text fm ∧
      (Survives W' cache' e ↔ utf8Length text ≤ maxFileBytes ∧ KeepsListing W e x.aliases fm) := by
  obtain ⟨dir, x, r, old, new, original, hdir, hwritten, hacc, hwrite, -, -⟩ :=
    toolSkillPatch_patches h
  obtain ⟨size, hread, -⟩ := hacc.read
  obtain ⟨-, -, -, fm, body, status, -, hsplit, -⟩ := hacc.clean
  rw [skillPatchDir_eq ⟨_, hacc.check⟩] at hdir
  obtain ⟨idx, hb, rfl, e, he, hname, rfl⟩ := exists_entry_of_skillDirOf hdir
  have hrewrites : Rewrites W W' cache idx e r.text x fm :=
    ⟨hfaithful, hcache, hb, he, hwrite, body, status, hsplit⟩
  refine ⟨e, x, r.text, fm, ⟨⟨idx, hb, he⟩, hname, hwritten, ?_, body, status, hsplit⟩,
    hrewrites.of_survives, fun hcond => hrewrites.survives hcond.1 hcond.2⟩
  refine ⟨old, new, size, original, hacc.succeeds.args_eq.1, hacc.succeeds.args_eq.2, hread, ?_⟩
  rw [hacc.eq]
  rfl

/-! ### Without PyYAML -/

theorem get?_others {β : Type*} (fm : Dict Text β) {key : Text} (hkey : key ∉ stampKeys) :
    (others fm).get? key = fm.get? key := by
  induction fm with
  | nil => rfl
  | cons kv fm ih =>
    obtain ⟨k, v⟩ := kv
    rw [others, List.filter_cons]
    by_cases hk : k ∈ stampKeys
    · have hne : k ≠ key := fun he => hkey (he ▸ hk)
      rw [if_neg (by simpa using hk), Dict.get?, if_neg hne]
      exact ih
    · rw [if_pos (by simpa using hk), Dict.get?, Dict.get?]
      split_ifs
      · rfl
      · exact ih

/-- What a frontmatter is parsed into does not depend on the stamps. -/
theorem parseFm_congr {fm fm' : Dict Text Value} (h : others fm = others fm') (f : SkillMd) :
    parseFm W f fm = parseFm W f fm' := by
  have hget : ∀ key, key ∉ stampKeys → fm.get? key = fm'.get? key := fun key hkey => by
    rw [← get?_others fm hkey, ← get?_others fm' hkey, h]
  have hstr : ∀ key default, key ∉ stampKeys →
      strOr fm key default = strOr fm' key default := fun key default hkey => by
    rw [strOr, strOr, hget key hkey]
  simp only [parseFm, skillName, optText, hstr _ _ (show "name".toList ∉ stampKeys by decide),
    hstr _ _ (show "description".toList ∉ stampKeys by decide),
      hstr _ _ (show "category".toList ∉ stampKeys by decide),
    hstr _ _ (show "trigger".toList ∉ stampKeys by decide),
      hget _ (show "platforms".toList ∉ stampKeys by decide),
    hget _ (show "requires".toList ∉ stampKeys by decide)]

theorem split_noYaml {text : Text} {fm : Dict Text Value} {body : Text} {status : Option Text}
    (h : splitFrontmatterEx none text = .ok (fm, body, status)) : flatRead text = fm := by
  rw [flatRead, h]

/-- A file that can be read is parsed by the fallback. -/
theorem parse_noYaml {size : ℕ} {original : Text} (hyaml : W.yaml = none)
    (hstat : W.stat f.path ≠ none)
    (hfile : W.file f.path = some (size, original)) (hsize : size ≤ maxFileBytes) :
    parse W f = parseFm W f (flatRead original) := by
  obtain ⟨st, hst⟩ := Option.ne_none_iff_exists'.mp hstat
  obtain ⟨fm, body, status, hsplit⟩ := splitFrontmatterEx_noYaml original
  have hread : readTextCapped (some (size, original)) = .ok original := if_neg (by omega)
  rw [parse, hst]
  simp only [parseFresh, hfile, hread, hyaml, hsplit, split_noYaml hsplit]
  rfl

/-- **Without PyYAML only the cap takes a skill away**, if the other paths have led to the same file
before. -/
theorem Rewrites.survives_noYaml_iff {idx : Index} (h : Rewrites W W' cache idx e text x fm)
    (hyaml : W.yaml = none)
    {original : Text} {size : ℕ} (hfile : W.file e.path.path = some (size, original))
    (hstamps : StampsOnly original text)
    (haliases : ∀ p ∈ x.aliases, W.file p = W.file e.path.path ∧ W.stat p = W.stat e.path.path) :
    Survives W' (buildIndex W cache).2 e ↔ utf8Length text ≤ maxFileBytes := by
  refine ⟨fun hs => (h.of_survives hs).1, fun hsize => h.survives hsize ?_⟩
  obtain ⟨-, hparse, pre, y, post, hdirs, hy, -, hpre⟩ := h.first
  obtain ⟨body, status, hsplit⟩ := h.split
  rw [hyaml] at hsplit
  obtain ⟨hstat, t, -, hread, -⟩ := exists_of_parse hparse
  obtain ⟨size', hfile', hle⟩ := readTextCapped_ok hread
  rw [hfile, Option.some.injEq, Prod.mk.injEq] at hfile'
  obtain ⟨rfl, -⟩ := hfile'
  have hsame : ∀ f : SkillMd, W.file f.path = some (size, original) → W.stat f.path ≠ none →
      parseFm W f fm = parse W f := by
    intro f hf hst
    rw [parse_noYaml hyaml hst hf hle, ← split_noYaml hsplit]
    exact parseFm_congr hstamps.pairs f
  refine ⟨⟨e, (hsame e.path hfile hstat).trans hparse, rfl, rfl, rfl, rfl, rfl⟩,
    fun z hz halias d hd => ?_⟩
  obtain ⟨hzfile, hzstat⟩ := haliases _ halias
  rw [hsame z.2 (hzfile.trans hfile) (hzstat ▸ hstat)] at hd
  refine hpre z ?_ d hd
  have hz' : z ∈ (pre ++ y :: post).takeWhile fun y => y.2.path ≠ e.path.path := hdirs ▸ hz
  exact mem_of_mem_takeWhile_append hz' (by simp [hy])

/-! ### A body that is too long -/

theorem length_le_utf8Length (t : Text) : t.length ≤ utf8Length t := by
  have hgo : ∀ (t : Text) n, n + t.length ≤ t.foldl (fun n c => n + c.utf8Size) n := by
    intro t
    induction t with
    | nil => exact fun n => Nat.le_refl n
    | cons c t ih =>
      intro n
      have hc := Char.utf8Size_pos c
      have ht := ih (n + c.utf8Size)
      rw [List.length_cons, List.foldl_cons]
      omega
  simpa [utf8Length] using hgo t 0

theorem length_le_patchText (lines : List Text) (body : Text) :
    body.length ≤ (patchText lines body).length := by
  have hend : ∀ t : Text, body <:+ t →
      body.length ≤ (if t.getLast? = some '\n' then t else t ++ ['\n']).length := by
    intro t ht
    have hlen := ht.length_le
    split_ifs
    · exact hlen
    · rw [List.length_append]
      omega
  simp only [patchText]
  apply hend
  split_ifs
  · exact List.suffix_append ..
  · exact List.suffix_rfl

/-- The SHA-256 digest of a million and one `x`. -/
def longDigest (text : Text) : Digest :=
  if text.length = 1000001 then
    ⟨"85e4daf430380f612580d11ebf1ba489a0341266af0f6f5ed620852545a4655e".toList, by decide, List.all_eq_true.mp (by decide)⟩
  else digestB

theorem faithful_oneSkill (original text : Text) :
    Faithful (beforeAfter (oneSkill 17 original)
        ((oneSkill 17 original).write (skillMd rewrittenSkill.dir) text ⟨1, []⟩)) := by
  have hstat : ∀ path, ((oneSkill 17 original).write (skillMd rewrittenSkill.dir) text ⟨1, []⟩).stat
      path = some (0, 17) →
      ((oneSkill 17 original).write (skillMd rewrittenSkill.dir) text ⟨1, []⟩).file path =
          some (17, original) := by
    intro path h
    simp only [World.write, World.among] at h ⊢
    split_ifs at h ⊢ with hmem
    · cases h
    · rfl
  intro i j path st hi hj
  cases i <;> cases j
  · rfl
  · cases hi
    exact (hstat path hj).symm
  · cases hj
    exact hstat path hi
  · rfl

theorem recalls_oneSkill (text : Text) :
    Recalls (oneSkill 17 bodyA)
      (beforeAfter (oneSkill 17 bodyA)
        ((oneSkill 17 bodyA).write (skillMd rewrittenSkill.dir) text ⟨1, []⟩))
      (oneSkillCache 17) := by
  intro i g st e hst hget
  simp only [oneSkillCache, Dict.get?, Option.ite_none_right_eq_some, Option.some.injEq,
    Prod.mk.injEq] at hget
  obtain ⟨⟨hpath, rfl⟩, rfl⟩ := hget
  obtain rfl := SkillMd.path_injective hpath
  have hfile := faithful_oneSkill bodyA text i false rewrittenSkill.path (0, 17) hst rfl
  rw [parseFresh_among, hfile]
  rfl

/-- A new string for the whole body makes a file that is not shorter. -/
theorem length_le_edited_bodyA (sha256 : Text → Digest) (new : Text) :
    new.length ≤ utf8Length
        (edited (patchEnv sha256) (patchArgs ['a'] new) ['a'] new bodyA).text := by
  have hraw : (rawFrontmatter bodyA).2 = ['a'] := by decide
  have hbody : (edited (patchEnv sha256) (patchArgs ['a'] new) ['a'] new bodyA).body = new := by
    show replaceFirst ['a'] new (rawFrontmatter bodyA).2 = new
    rw [hraw]
    simp [replaceFirst, cut]
  calc new.length
      = (edited (patchEnv sha256) (patchArgs ['a'] new) ['a'] new bodyA).body.length := by
        rw [hbody]
    _ ≤ (edited (patchEnv sha256) (patchArgs ['a'] new) ['a'] new bodyA).text.length :=
      length_le_patchText _ _
    _ ≤ _ := length_le_utf8Length _

/-- The call that writes a million and one characters, or any others. -/
theorem patch_bodyA_long (new : Text) (hnew : ['a'] ≠ new) :
    toolSkillPatch (oneSkill 17 bodyA) (patchEnv longDigest) (some ⟨1, []⟩) (oneSkillCache 17)
      (patchArgs ['a'] new) =
      (.ok ((edited (patchEnv longDigest) (patchArgs ['a'] new) ['a'] new bodyA).reply
        (patchEnv longDigest) (patchArgs ['a'] new)),
        (oneSkill 17 bodyA).write (skillMd rewrittenSkill.dir)
          (edited (patchEnv longDigest) (patchArgs ['a'] new) ['a'] new bodyA).text ⟨1, []⟩,
              oneSkillCache 17) :=
  toolSkillPatch_oneSkill longDigest (by decide) hnew (by decide) (by decide)

theorem survives_sample :
    ∃ e x text fm, CallsOn (oneSkill 17 bodyA) (patchEnv longDigest) (some ⟨1, []⟩)
        (oneSkillCache 17) (patchArgs ['a'] ['b']) e x
        text fm ∧
      (Survives ((oneSkill 17 bodyA).write (skillMd rewrittenSkill.dir)
          (edited (patchEnv longDigest) (patchArgs ['a'] ['b']) ['a'] ['b'] bodyA).text ⟨1, []⟩)
            (oneSkillCache 17) e ↔
        utf8Length text ≤ maxFileBytes ∧ KeepsListing (oneSkill 17 bodyA) e x.aliases fm) :=
  patch_survives_iff (patch_bodyA_long ['b'] (by decide)) (faithful_oneSkill bodyA _)
    (recalls_oneSkill _)

/-- A patch that succeeds with a million and one characters takes its skill away. -/
theorem patch_takes_away :
    ¬ ∀ W env written cache args reply W' cache', toolSkillPatch W env written cache args =
      (.ok reply, W', cache') →
      Faithful (beforeAfter W W') → Recalls W (beforeAfter W W') cache →
      ∀ idx e, (buildIndex W cache).1 = .ok idx → e ∈ idx.entries → e.name = strip args.name →
          Survives W' cache' e := by
  intro hall
  have hnew : ['a'] ≠ List.replicate 1000001 'x' := by
    intro he
    have hlen := congrArg List.length he
    rw [List.length_replicate, List.length_singleton] at hlen
    omega
  have hs := hall _ _ _ _ _ _ _ _ (patch_bodyA_long _ hnew) (faithful_oneSkill bodyA _)
    (recalls_oneSkill _) _ _
    (congrArg Prod.fst (buildIndex_oneSkill 17 bodyA)) (List.mem_singleton_self _) rfl
  obtain ⟨t, hread⟩ := hs.reads
  obtain ⟨size, hfile, hsize⟩ := readTextCapped_ok hread
  rw [show rewrittenSkill.path = skillMd rewrittenSkill.dir from rfl, write_file, Option.some.injEq,
    Prod.mk.injEq] at hfile
  have hlong := length_le_edited_bodyA longDigest (List.replicate 1000001 'x')
  rw [List.length_replicate, hfile.1] at hlong
  have hcap : maxFileBytes = 1000000 := rfl
  omega

end OracleSkills.Server
