import OracleSkills.Catalog.FirstWins
import OracleSkills.Server.Patch

/-!
# The server's index of skills

`build_index` goes through every `SKILL.md` below the skill roots, in the order of the
roots and within a root in the order of the paths, and parses it into an entry or a reason
to exclude it. Of the entries of one name the first is kept, "an earlier root shadows a
later one". `skills_list`, `skill_view` and `skill_patch` all build this index anew and look a
name up in it, "so `skill_view` can never land on a skill the catalog excluded".

`_parse_entry` says of itself that it "never raises: a broken skill must not take the
session down". It does raise where `str()` of a frontmatter value does, or where a
YAML error has no message, and then no tool has an index. `index_agrees_iff` says when the
index is what it should be: exactly if the frontmatter of every `SKILL.md` `Shows`.

What is *not* formalized: the decoding of a `SKILL.md`, which replaces what is no UTF-8.
`World.file` is the text that comes out.
-/

namespace OracleSkills.Server

open Python Frontmatter

/-! ### Files -/

/-- A `SKILL.md` that `glob` found, in the directory `base` of `parent`. -/
structure SkillMd where
  parent : Text
  base : Text
  base_ne : base ≠ []
  base_plain : '/' ∉ base

/-- The directory of a `SKILL.md`, its `os.path.dirname`. -/
def SkillMd.dir (f : SkillMd) : Text := f.parent ++ '/' :: f.base

/-- The path of a `SKILL.md`. -/
def SkillMd.path (f : SkillMd) : Text := f.dir ++ "/SKILL.md".toList

/-- What the server finds around it: its configuration, the files, and the functions of
Python that the index uses. -/
structure World where
  /-- `SKILL_ROOTS`. -/
  roots : List Text
  /-- `glob.glob(os.path.join(root, "*", "SKILL.md"))`. -/
  glob : Text → List SkillMd
  /-- `st_mtime_ns` and `st_size` of a path, `none` where `os.stat` fails. -/
  stat : Text → Option (ℕ × ℕ)
  /-- The size and the text of a file, `none` where it cannot be opened or read. -/
  file : Text → Option (ℕ × Text)
  yaml : Yaml
  /-- `str.lower`. -/
  lower : Text → Text
  /-- `repr` of a text. -/
  repr : Text → Text
  /-- `sys.platform`. -/
  platform : Text

/-- `_iter_skill_dirs`: "yield (root, skill_dir, skill_md) across every configured root, in
precedence order", and within a root in the order of the paths. -/
def iterSkillDirs (W : World) : List (Text × SkillMd) :=
  W.roots.flatMap fun root =>
    ((W.glob root).mergeSort fun f g => leText f.path g.path).map fun f => (root, f)

/-! ### Parsing one file -/

/-- `_PLATFORM_ALIASES.get(p, p)`. -/
def platformAlias (p : Text) : Text :=
  if p = "darwin".toList ∨ p = "osx".toList ∨ p = "mac".toList ∨ p = "macos".toList then
    "macos".toList
  else if p = "win32".toList ∨ p = "windows".toList then "windows".toList
  else p

/-- `_os_tag`. -/
def osTag (platform : Text) : Text :=
  if "linux".toList.isPrefixOf platform then "linux".toList
  else if platform = "darwin".toList then "macos".toList
  else if "win".toList.isPrefixOf platform then "windows".toList
  else platform

/-- `_as_list`. -/
def asList : Option Value → List Value
  | none => []
  | some .none => []
  | some (.list xs _) => xs
  | some v => [v]

/-- `_as_dict`. -/
def asDict : Option Value → List (Value × Value)
  | some (.dict kvs _) => kvs
  | _ => []

/-- `str(fm.get(key) or default).strip()`. -/
def strOr (fm : Dict Text Value) (key default : Text) : Except Raised Text :=
  match fm.get? key with
  | none => .ok (strip default)
  | some v => if v.truth then (fun t => strip t) <$> v.toStr else .ok (strip default)

/-- `str(fm.get(key) or "").strip() or None`. -/
def optText (fm : Dict Text Value) (key : Text) : Except Raised (Option Text) :=
  (fun t => if t = [] then none else some t) <$> strOr fm key []

/-- `_skill_name`: "the SAME rule `load_catalog` advertises". -/
def skillName (fm : Dict Text Value) (dirName : Text) : Except Raised Text :=
  strOr fm "name".toList dirName

/-- The declared platforms, as the gate compares them. -/
def platforms (W : World) : List Value → Except Raised (List Text)
  | [] => .ok []
  | p :: ps => do
    let t ← p.toStr
    let ts ← platforms W ps
    .ok (platformAlias (W.lower (strip t)) :: ts)

/-- An index entry. -/
structure Entry where
  name : Text
  description : Option Text
  category : Option Text
  trigger : Option Text
  requires : List (Value × Value)
  /-- `_path`. -/
  path : SkillMd

/-- The end of `_parse_entry`, from the frontmatter on: an entry, or the reason why there is
none. -/
def parseFm (W : World) (f : SkillMd) (fm : Dict Text Value) : Except Raised
    (Except Text Entry) := do
  let name ← skillName fm f.base
  if name = [] then .ok (.error "missing 'name' and no usable directory name".toList)
  else
    let desc ← optText fm "description".toList
    let plats ← platforms W (asList (fm.get? "platforms".toList))
    if plats ≠ [] ∧ osTag W.platform ∉ plats then
      .ok (.error ("platform gate: declares ".toList ++ join ['/'] plats ++ ", host is ".toList ++
        osTag W.platform))
    else
      let category ← optText fm "category".toList
      let trigger ← optText fm "trigger".toList
      .ok (.ok ⟨name, desc, category, trigger, asDict (fm.get? "requires".toList), f⟩)

/-- `_parse_entry` of a file that is not in the cache. -/
def parseFresh (W : World) (f : SkillMd) : Except Raised (Except Text Entry) :=
  match readTextCapped (W.file f.path) with
  | .error (.valueError m) => .ok (.error m)
  | .error e => .error e
  | .ok text => do
    let (fm, _, _) ← splitFrontmatterEx W.yaml text
    parseFm W f fm

/-- `_ENTRY_CACHE`: a memo of entries by path, modification time and size. -/
abbrev Cache := Dict (Text × ℕ × ℕ) Entry

/-- `_ENTRY_CACHE_MAX`. -/
def cacheMax : ℕ := 2000

/-- `_parse_entry`. -/
def parseEntry (W : World) (cache : Cache) (f : SkillMd) : Except Raised
    (Except Text Entry) × Cache :=
  match W.stat f.path with
  | none => (.ok (.error "SKILL.md could not be stat'd".toList), cache)
  | some st =>
    match cache.get? (f.path, st) with
    | some hit => (.ok (.ok hit), cache)
    | none =>
      match parseFresh W f with
      | .ok (.ok e) =>
        (.ok (.ok e), Dict.set (f.path, st) e (if cacheMax < cache.length then [] else cache))
      | r => (r, cache)

/-! ### Building the index -/

/-- A skill that is not in the index. -/
structure Excluded where
  skill : Text
  root : Text
  reason : Text

/-- The lists of `build_index`, and `seen`. -/
structure Index where
  entries : List Entry
  excluded : List Excluded
  seen : Dict Text Text

/-- One turn of `build_index`'s loop. -/
def Index.add (idx : Index) (root : Text) (f : SkillMd) : Except Text Entry → Index
  | .error reason => { idx with excluded := idx.excluded ++ [⟨f.base, root, reason⟩] }
  | .ok e =>
    match idx.seen.get? e.name with
    | some prevRoot =>
      { idx with
        excluded := idx.excluded ++
          [⟨e.name, root, "shadowed: name already provided by higher-precedence root ".toList ++
            prevRoot⟩] }
    | none => { idx with entries := idx.entries ++ [e], seen := idx.seen.set e.name root }

/-- The loop of `build_index`. -/
def buildLoop (W : World) : List (Text × SkillMd) → Index → Cache → Except Raised Index × Cache
  | [], idx, cache => (.ok idx, cache)
  | (root, f) :: fs, idx, cache =>
    match parseEntry W cache f with
    | (.error e, cache') => (.error e, cache')
    | (.ok r, cache') => buildLoop W fs (idx.add root f r) cache'

/-- `build_index`. -/
def buildIndex (W : World) (cache : Cache) : Except Raised Index × Cache :=
  buildLoop W (iterSkillDirs W) ⟨[], [], []⟩ cache

/-! ### The tools -/

/-- `_resolve_skill_dir`: "through the SAME index `skills_list` advertises". -/
def resolveSkillDir (W : World) (cache : Cache) (name : Text) : Except Raised
    (Option Text) × Cache :=
  match buildIndex W cache with
  | (.error e, cache') => (.error e, cache')
  | (.ok idx, cache') =>
    (.ok ((idx.entries.find? fun e => decide (e.name = name)).map fun e => e.path.dir), cache')

/-- `skills_list` with `all=true`: the catalog, or a category of it, by name. -/
def skillsListAll (W : World) (cache : Cache) (category : Text) : Except Raised
    (List Entry) × Cache :=
  match buildIndex W cache with
  | (.error e, cache') => (.error e, cache')
  | (.ok idx, cache') =>
    let category := strip category
    let catalog := if category ≠ [] then idx.entries.filter fun c =>
      c.category.getD [] = category else idx.entries
    (.ok (catalog.mergeSort fun c d => leText c.name d.name), cache')

/-- The directory that a tool works in, for a name that is not empty. -/
def skillDirOf (W : World) (cache : Cache) (name : Text) : Except Raised Text × Cache :=
  match resolveSkillDir W cache name with
  | (.error e, cache') => (.error e, cache')
  | (.ok none, cache') => (.error (.valueError ("skill not found: ".toList ++ W.repr name)), cache')
  | (.ok (some dir), cache') => (.ok dir, cache')

/-- The directory `skill_view` reads from. -/
def skillViewDir (W : World) (cache : Cache) (arg : Text) : Except Raised Text × Cache :=
  let name := strip arg
  if name = [] then (.error (.valueError "skill_view requires 'name'".toList), cache) else
    skillDirOf W cache name

/-- The directory whose `SKILL.md` `skill_patch` patches. -/
def skillPatchDir (W : World) (cache : Cache) (args : PatchArgs) : Except Raised Text × Cache :=
  match args.check with
  | .error e => (.error e, cache)
  | .ok _ => skillDirOf W cache (strip args.name)

end OracleSkills.Server
