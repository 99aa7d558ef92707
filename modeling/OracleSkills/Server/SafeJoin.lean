import OracleSkills.Files.Links
import OracleSkills.Server.AllOrNothing
import OracleSkills.Server.IndexSound

/-!
# The reference files of a skill

`skill_view` with a `file_path` reads a file of the skill, and is "path-traversal safe":
`_safe_join` resolves the skill's directory and the file with `os.path.realpath`, compares the two
by `os.path.commonpath`, and takes only a regular file; the file is then opened with `O_NOFOLLOW`.

`view_contained`: whatever links the tree has, and whatever the path says, the content that is
returned is that of a regular file strictly below the place of the skill's directory. A path that is
blank asks for no file, but for the skill.

What is *not* formalized: a tree that changes between the check of a path and the opening of it.
-/

namespace OracleSkills.Server

open Python Frontmatter Links

/-! ### The disk -/

/-- The disk, which stays the same during a call, and the directory that the server runs in. -/
structure Disk where
  fs : Fs
  /-- `os.getcwd()`. -/
  cwd : Loc
  cwd_names : ∀ c ∈ cwd, IsName c
  cwd_dir : fs.node cwd = some .dir

namespace Disk

/-- `os.path.realpath(path)`. It looks at every component with `os.lstat`, which raises at a null
character. -/
def realpath (D : Disk) (path : Text) : Except Raised Text :=
  if '\x00' ∈ path then .error (.valueError "lstat: embedded null character in path".toList)
  else .ok (pathOf (D.fs.realpath D.cwd path))

/-- The place that a path leads to. -/
def resolve (D : Disk) (path : Text) : Option Loc := D.fs.resolve maxLinks D.cwd path

/-- `os.path.isfile(path)`. -/
def isfile (D : Disk) (path : Text) : Bool := D.fs.isfile maxLinks D.cwd path

/-- The size and the text of what is opened with `O_NOFOLLOW`, `none` where it cannot be opened or
read. -/
def readNoFollow (D : Disk) (path : Text) : Option (ℕ × Text) :=
  (D.fs.readNoFollow maxLinks D.cwd path).map fun bytes => (bytes.length, decode bytes)

/-- What `glob` finds is on the disk: "SKILL.md" is no pattern, and is looked for with
`os.path.lexists`. -/
def Holds (D : Disk) (W : World) : Prop :=
  ∀ root, ∀ f ∈ W.glob root, D.fs.lexists maxLinks D.cwd f.path = true

end Disk

/-! ### The tool -/

/-- `_safe_join`. -/
def safeJoin (D : Disk) (skillDir filePath : Text) : Except Raised (Option Text) := do
  let realRoot ← D.realpath skillDir
  if isabs filePath then .ok none
  else
    let candidate ← D.realpath (joinPath realRoot filePath)
    if candidate = realRoot then .ok none
    else
      match commonpath realRoot candidate with
      | none => .error (.valueError "Can't mix absolute and relative paths".toList)
      | some common =>
        if common ≠ realRoot then .ok none
        else if ¬ D.isfile candidate then .ok none
        else .ok (some candidate)

/-- The answer of `skill_view`: the skill, by its `content`, or one of its files. -/
inductive ViewReply where
  | skill (content : Text)
  | reference (name filePath content : Text)

/-- `tool_skill_view`. -/
def toolSkillView (W : World) (D : Disk) (cache : Cache) (name filePath : Text) :
    Except Raised ViewReply × Cache :=
  match skillViewDir W cache name with
  | (.error e, cache') => (.error e, cache')
  | (.ok dir, cache') =>
    let filePath := strip filePath
    if filePath ≠ [] then
      (do
        match ← safeJoin D dir filePath with
        | none =>
          .error (.valueError ("file_path ".toList ++ W.repr filePath ++
            " is invalid or escapes the skill directory".toList))
        | some resolved => do
          let content ← readTextCapped (D.readNoFollow resolved)
          .ok (.reference (strip name) filePath content), cache')
    else ((viewFile W.yaml (W.file (skillMd dir))).map .skill, cache')

/-! ### What is claimed -/

/-- The content is that of a regular file, whose place is strictly below that of the directory. -/
def Contained (D : Disk) (dir content : Text) : Prop :=
  ∃ root place bytes, D.resolve dir = some root ∧ D.resolve (pathOf place) = some place ∧
    D.fs.node place = some (.file bytes) ∧
    root <+: place ∧ place ≠ root ∧ content = decode bytes

/-- The cache keeps an entry under the path that it was parsed from, as every cache does that builds
have left. -/
def Keyed (cache : Cache) : Prop :=
  ∀ (f : SkillMd) (st : ℕ × ℕ) (e : Entry), cache.get? (f.path, st) = some e → e.path = f

section

variable {W : World} {D : Disk} {cache : Cache} {dir filePath resolved : Text}

/-! ### The files that are taken -/

/-- **What `_safe_join` lets through** is the path of a place strictly below that of the
directory. -/
theorem safeJoin_some {root : Loc} (hroot : D.resolve dir = some root)
    (h : safeJoin D dir filePath = .ok (some resolved)) :
    ∃ place, resolved = pathOf place ∧ D.fs.Clean place ∧ D.isfile resolved = true ∧
        root <+: place ∧ place ≠ root := by
  have hcwd : D.fs.Clean D.cwd := Fs.clean_of_dir D.cwd_names D.cwd_dir
  obtain ⟨realRoot, hreal, h⟩ := bind_eq_ok.mp h
  have hrealRoot : realRoot = pathOf root := by
    rw [Disk.realpath] at hreal
    split_ifs at hreal
    rw [← Except.ok.inj hreal, Fs.realpath_of_resolves hcwd (Fs.resolves_of_walk hroot)]
  by_cases habs : isabs filePath = true
  · rw [if_pos habs] at h
    cases h
  rw [if_neg habs] at h
  obtain ⟨candidate, hcandidate, h⟩ := bind_eq_ok.mp h
  obtain ⟨place, hplace, rfl⟩ : ∃ place, D.fs.Clean place ∧ candidate = pathOf place := by
    rw [Disk.realpath] at hcandidate
    split_ifs at hcandidate
    exact ⟨_, Fs.realpath_clean hcwd _, (Except.ok.inj hcandidate).symm⟩
  have hclean : D.fs.Clean root := by
    rw [← Fs.realpath_of_resolves hcwd (Fs.resolves_of_walk hroot)]
    exact Fs.realpath_clean hcwd dir
  obtain ⟨common, hcommon, hbelow⟩ := commonpath_pathOf hclean.names hplace.names
  rw [hrealRoot, hcommon] at h
  simp only at h
  split_ifs at h with hsame hout hfile
  · cases h
  · cases h
  · obtain rfl := Option.some.inj (Except.ok.inj h)
    exact ⟨place, rfl, hplace, hfile, hbelow.mp (not_not.mp hout),
      fun heq => hsame (congrArg pathOf heq)⟩
  · cases h

/-- **What is read of it** is a regular file strictly below the place of the directory. -/
theorem contained_of_read {root : Loc} {size : ℕ} {text : Text} (hroot : D.resolve dir = some root)
    (h : safeJoin D dir filePath = .ok (some resolved))
    (hread : D.readNoFollow resolved = some (size, text)) : Contained D dir text := by
  obtain ⟨place, rfl, hplace, hfile, hbelow, hne⟩ := safeJoin_some hroot h
  have hnil : place ≠ [] := by
    rintro rfl
    exact hne (List.prefix_nil.mp hbelow).symm
  obtain ⟨bytes, hbytes, heq⟩ := Option.map_eq_some_iff.mp hread
  cases heq
  refine ⟨root, place, bytes, hroot, ?_, Fs.readNoFollow_pathOf hplace hnil hbytes,
    hbelow, hne, rfl⟩
  rw [Disk.isfile, Fs.isfile] at hfile
  cases hresolve : D.fs.resolve maxLinks D.cwd (pathOf place) with
  | none =>
    rw [hresolve] at hfile
    cases hfile
  | some q => rw [Disk.resolve, hresolve, Fs.resolve_pathOf hplace hresolve]

/-! ### The skill -/

theorem keyed_nil : Keyed [] := by
  intro f st e h
  cases h

theorem Keyed.set (h : Keyed cache) {f : SkillMd} {e : Entry} (he : e.path = f) (st : ℕ × ℕ) :
    Keyed (Dict.set (f.path, st) e cache) := by
  intro g st' d hd
  rcases Dict.get?_of_get?_set hd with ⟨hkey, rfl⟩ | hd
  · rw [he]
    exact SkillMd.path_injective (Prod.mk.inj hkey).1.symm
  · exact h g st' d hd

theorem Keyed.parseEntry (h : Keyed cache) (f : SkillMd) :
    Keyed (parseEntry W cache f).2 ∧ ∀ e, (parseEntry W cache f).1 = .ok (.ok e) → e.path = f := by
  rw [Server.parseEntry]
  cases hst : W.stat f.path with
  | none => exact ⟨h, fun e he => by cases he⟩
  | some st =>
    simp only
    cases hget : cache.get? (f.path, st) with
    | some hit =>
      simp only
      refine ⟨h, fun e he => ?_⟩
      cases he
      exact h f st hit hget
    | none =>
      have hparse : parse W f = parseFresh W f := by rw [parse, hst]
      simp only
      cases hfresh : parseFresh W f with
      | error e => exact ⟨h, fun e he => by cases he⟩
      | ok r =>
        cases r with
        | error m => exact ⟨h, fun e he => by cases he⟩
        | ok e =>
          have hpath : e.path = f := path_of_parse (hparse.trans hfresh)
          refine ⟨Keyed.set ?_ hpath st, fun d hd => ?_⟩
          · split_ifs
            · exact keyed_nil
            · exact h
          · cases hd
            exact hpath

theorem mem_entries_add {idx : Index} {root : Text} {f : SkillMd}
    {r : Except Text Entry} {e : Entry}
    (h : e ∈ (idx.add root f r).entries) : e ∈ idx.entries ∨ r = .ok e := by
  cases r with
  | error reason => exact Or.inl h
  | ok d =>
    rw [Index.add] at h
    cases hseen : idx.seen.get? d.name with
    | some prevRoot =>
      simp only [hseen] at h
      exact Or.inl h
    | none =>
      simp only [hseen, List.mem_append, List.mem_singleton] at h
      rcases h with h | rfl
      · exact Or.inl h
      · exact Or.inr rfl

/-- **A build** lists files that were found, and leaves the cache keyed. -/
theorem Keyed.buildIndex (h : Keyed cache) :
    Keyed (buildIndex W cache).2 ∧ ∀ idx, (buildIndex W cache).1 = .ok idx →
        ∀ e ∈ idx.entries, ∃ root, e.path ∈ W.glob root := by
  have hloop : ∀ (fs : List (Text × SkillMd)) (idx : Index) (cache : Cache), Keyed cache →
      Keyed (buildLoop W fs idx cache).2 ∧
      ∀ idx', (buildLoop W fs idx cache).1 = .ok idx' → ∀ e ∈ idx'.entries, e ∈ idx.entries ∨
          ∃ x ∈ fs, x.2 = e.path := by
    intro fs
    induction fs with
    | nil =>
      intro idx cache h
      refine ⟨h, fun idx' hidx e he => ?_⟩
      cases hidx
      exact Or.inl he
    | cons x fs ih =>
      obtain ⟨root, f⟩ := x
      intro idx cache h
      obtain ⟨hkeyed, hpath⟩ := h.parseEntry (W := W) f
      rw [buildLoop]
      generalize Server.parseEntry W cache f = y at hkeyed hpath
      obtain ⟨r, cache'⟩ := y
      cases r with
      | error e => exact ⟨hkeyed, fun idx' hidx => by cases hidx⟩
      | ok r =>
        obtain ⟨hon, hentries⟩ := ih (idx.add root f r) cache' hkeyed
        refine ⟨hon, fun idx' hidx e he => ?_⟩
        rcases hentries idx' hidx e he with he | ⟨x, hx, hxe⟩
        · rcases mem_entries_add he with he | rfl
          · exact Or.inl he
          · exact Or.inr ⟨_, List.mem_cons_self .., (hpath e rfl).symm⟩
        · exact Or.inr ⟨x, List.mem_cons_of_mem _ hx, hxe⟩
  obtain ⟨hkeyed, hentries⟩ := hloop (iterSkillDirs W) ⟨[], [], []⟩ cache h
  refine ⟨hkeyed, fun idx hidx e he => ?_⟩
  rcases hentries idx hidx e he with he | ⟨x, hx, hpath⟩
  · cases he
  · exact ⟨x.1, hpath ▸ (mem_iterSkillDirs.mp hx).2⟩

/-- **A call that answers** has found the directory of the skill, and answers with the skill, or
with a file that `_safe_join` has let through. -/
theorem toolSkillView_ok {name : Text} {reply : ViewReply}
    (h : (toolSkillView W D cache name filePath).1 = .ok reply) :
    ∃ dir cache', skillDirOf W cache (strip name) = (.ok dir, cache') ∧
      ((strip filePath = [] ∧ ∃ content, reply = .skill content) ∨
        ∃ resolved size content, safeJoin D dir (strip filePath) = .ok (some resolved) ∧
          D.readNoFollow resolved = some (size, content) ∧
              reply = .reference (strip name) (strip filePath) content) := by
  rw [toolSkillView] at h
  rcases hview : skillViewDir W cache name with ⟨_ | dir, cache'⟩
  · rw [hview] at h
    cases h
  · rw [hview] at h
    have hdir : skillDirOf W cache (strip name) = (.ok dir, cache') := by
      rw [skillViewDir] at hview
      split_ifs at hview
      · cases hview
      · exact hview
    refine ⟨dir, cache', hdir, ?_⟩
    simp only at h
    split_ifs at h with hfile
    · obtain ⟨answer, hjoin, h⟩ := bind_eq_ok.mp h
      cases answer with
      | none => cases h
      | some resolved =>
        obtain ⟨text, hread, h⟩ := bind_eq_ok.mp h
        cases h
        obtain ⟨size, hfound, -⟩ := readTextCapped_ok hread
        exact Or.inr ⟨resolved, size, text, hjoin, hfound, rfl⟩
    · cases hskill : viewFile W.yaml (W.file (skillMd dir)) with
      | error x =>
        rw [hskill] at h
        cases h
      | ok text =>
        rw [hskill] at h
        cases h
        exact Or.inl ⟨not_not.mp hfile, text, rfl⟩

end

/-- **Reference files cannot escape the skill**: whatever the tree and the path are, what
`skill_view` returns is the skill itself, for a path that is blank, or the content of a regular file
strictly below the directory of the skill of that name in the index. -/
theorem view_contained (W : World) (D : Disk) (cache : Cache) (name filePath : Text)
    (reply : ViewReply) (hdisk : D.Holds W)
    (hcache : Keyed cache) (h : (toolSkillView W D cache name filePath).1 = .ok reply) :
    (strip filePath = [] ∧ ∃ content, reply = .skill content) ∨
      ∃ content, reply = .reference (strip name) (strip filePath) content ∧
        ∃ idx, (buildIndex W cache).1 = .ok idx ∧
        ∃ e ∈ idx.entries, e.name = strip name ∧ Contained D e.path.dir content := by
  obtain ⟨dir, cache', hdir, hreply⟩ := toolSkillView_ok h
  rcases hreply with hskill | ⟨resolved, size, content, hjoin, hread, rfl⟩
  · exact Or.inl hskill
  · obtain ⟨idx, hbuild, -, e, he, hname, rfl⟩ := exists_entry_of_skillDirOf hdir
    obtain ⟨root, hglob⟩ := (hcache.buildIndex (W := W)).2 idx hbuild e he
    obtain ⟨place, hplace⟩ : ∃ place, D.resolve e.path.dir = some place :=
      Fs.exists_resolve_of_lexists (by simp [SkillMd.dir]) (by decide) (hdisk root e.path hglob)
    exact Or.inr ⟨content, rfl, idx, hbuild, e, he, hname, contained_of_read hplace hjoin hread⟩

/-! ### A skill behind a link -/

/-- The directory of the skill `s` is a link to one beside the root, with a file in it. -/
def linkedDisk : Disk where
  fs :=
    { entries :=
        [(["home".toList], .dir), (["home".toList, "skills".toList], .dir),
          (["home".toList, "skills".toList, "s".toList], .link "../src/s".toList),
          (["home".toList, "src".toList], .dir), (["home".toList, "src".toList, "s".toList], .dir),
          (["home".toList, "src".toList, "s".toList, "SKILL.md".toList], .file (encode bodyA)),
          (["home".toList, "src".toList, "s".toList, "notes".toList], .dir),
          (["home".toList, "src".toList, "s".toList, "notes".toList, "a.md".toList],
            .file [104, 105])]
      parent := by decide }
  cwd := ["home".toList]
  cwd_names c hc := by
    obtain rfl := List.mem_singleton.mp hc
    exact ⟨by decide, by decide, by decide, by decide⟩
  cwd_dir := by decide

theorem linkedDisk_view :
    (toolSkillView (oneSkill 17 bodyA) linkedDisk (oneSkillCache 17) "s".toList
    "notes/../notes//./a.md".toList).1 =
    .ok (.reference "s".toList "notes/../notes//./a.md".toList "hi".toList) := by
  have hdir : skillViewDir (oneSkill 17 bodyA) (oneSkillCache 17) "s".toList =
      (.ok rewrittenSkill.dir, oneSkillCache 17) := by
    rw [skillViewDir]
    simp only [skillDirOf, resolveSkillDir, buildIndex_oneSkill]
    rfl
  have hjoin : safeJoin linkedDisk rewrittenSkill.dir "notes/../notes//./a.md".toList =
      .ok (some "/home/src/s/notes/a.md".toList) := by
    have hsome : (safeJoin linkedDisk rewrittenSkill.dir "notes/../notes//./a.md".toList).toOption =
        some (some "/home/src/s/notes/a.md".toList) := by decide +kernel
    cases hresult : safeJoin linkedDisk rewrittenSkill.dir "notes/../notes//./a.md".toList with
    | error e =>
      rw [hresult] at hsome
      cases hsome
    | ok resolved =>
      rw [hresult] at hsome
      exact congrArg _ (Option.some.inj hsome)
  have hstrip : strip "notes/../notes//./a.md".toList = "notes/../notes//./a.md".toList := by decide
  have hne : "notes/../notes//./a.md".toList ≠ [] := by decide
  rw [toolSkillView, hdir]
  simp only [hstrip, if_pos hne, hjoin]
  rfl

/-- A file of the skill `s`, by a path that goes up and down. -/
theorem view_contained_sample :
    (strip "notes/../notes//./a.md".toList = [] ∧ ∃ content,
      ViewReply.reference "s".toList "notes/../notes//./a.md".toList "hi".toList =
      .skill content) ∨
      ∃ content, ViewReply.reference "s".toList "notes/../notes//./a.md".toList "hi".toList =
        .reference (strip "s".toList) (strip "notes/../notes//./a.md".toList) content ∧
        ∃ idx, (buildIndex (oneSkill 17 bodyA) (oneSkillCache 17)).1 = .ok idx ∧
          ∃ e ∈ idx.entries, e.name = strip "s".toList ∧
              Contained linkedDisk e.path.dir content := by
  have hdisk : linkedDisk.Holds (oneSkill 17 bodyA) := by
    intro root f hf
    obtain rfl := List.mem_singleton.mp hf
    decide +kernel
  have hpath : (Entry.mk "s".toList none none none [] rewrittenSkill).path = rewrittenSkill := rfl
  have hcache : Keyed (oneSkillCache 17) := keyed_nil.set hpath (0, 17)
  exact view_contained _ linkedDisk _ _ _ _ hdisk hcache linkedDisk_view

end OracleSkills.Server
