import OracleSkills.Files.Tree
import OracleSkills.Frontmatter.Flat

/-!
# The skills of a tree

`collect_commit.py` and `sync_skills.py` both go through a tree of skills, and both take the
name of a directory from the frontmatter of a `SKILL.md` that they do not own. They share, each
in a copy of its own, a walk that yields the skills of a tree (`_skill_dirs`), a check of a name
that is to be one directory's (`_bad_segment`), and a check of where a path leads (`_inside`),
"belt-and-braces after the regex". The three are modelled here once.

What is *not* formalized: symbolic links in the trees. Where one of the tools' own paths leads is
known through `os.path.realpath`, which is a parameter.
-/

namespace OracleSkills.Tools

open Python Frontmatter Files

/-! ### Files -/

/-- What is in a file: a text, as it decodes, or bytes that do not decode. -/
inductive File where
  | text (t : Text)
  | binary (bytes : List UInt8)
deriving DecidableEq

/-- `open(path).read()`: `none` where it raises. -/
def File.read : File → Option Text
  | .text t => some (universalNewlines t)
  | .binary _ => none

/-- A directory with what is below it. -/
abbrev Tree := Files.Tree Text File

/-- `SKILL.md`. -/
def skillMd : Text := "SKILL.md".toList

/-- `not d.startswith(".")`. -/
def visible (d : Text) : Bool := d.head? ≠ some '.'

/-! ### Names that become directories -/

/-- `os.path.join(a, b)`. -/
def joinPath (a b : Text) : Text :=
  if b.head? = some '/' then b else if a = [] ∨ a.getLast? = some '/' then a ++ b else a ++ '/' :: b

/-- The text of a path below `root`, as `os.walk` gives it. -/
def pathText (root : Text) (p : Path Text) : Text := p.foldl joinPath root

/-- `[A-Za-z0-9._-]`. -/
def isSegmentChar (c : Char) : Bool := c.isAlphanum || c = '.' || c = '_' || c = '-'

/-- `_SEGMENT_RE.match(v)`. The `$` of the expression also matches before a last line feed. -/
def matchesSegment (v : Text) : Bool :=
  match if v.getLast? = some '\n' then v.dropLast else v with
  | [] => false
  | c :: r => c.isAlphanum && r.length ≤ 63 && r.all isSegmentChar

/-- `_bad_segment`: "why `v` cannot be used as ONE directory name, or None when it can". -/
def badSegment (v : Text) : Option Text :=
  if v = [] ∨ v = ['.'] ∨ v = ['.', '.'] then some "empty or a dot segment".toList
  else if v.head? = some '/' ∨ '/' ∈ v ∨ '\\' ∈ v ∨ '\x00' ∈ v then
    some "contains a path separator (join would leave the root)".toList
  else if ¬ matchesSegment v then some "not [A-Za-z0-9._-], 1-64 chars".toList
  else none

/-- `_inside`, where `realpath` is what it says of the two paths. -/
def inside (realpath : Text → Text) (root path : Text) : Bool :=
  let r := realpath root
  let q := realpath path
  q = r || (r ++ ['/']).isPrefixOf q

/-- A name that can be a directory's is not empty, -/
theorem ne_nil_of_badSegment {v : Text} (h : badSegment v = none) : v ≠ [] := by
  rintro rfl
  cases h

/-- and it is not hidden. -/
theorem visible_of_badSegment {v : Text} (h : badSegment v = none) : visible v = true := by
  unfold badSegment at h
  split_ifs at h with hdot hsep hmatch
  cases v with
  | nil => exact absurd (Or.inl rfl) hdot
  | cons c r =>
    -- the expression begins with a letter or a digit
    have hc : c.isAlphanum = true := by
      unfold matchesSegment at hmatch
      split_ifs at hmatch
      · cases r with
        | nil => cases hmatch
        | cons d r =>
          simp only [List.dropLast_cons_cons, Bool.and_eq_true] at hmatch
          exact hmatch.1.1
      · simp only [Bool.and_eq_true] at hmatch
        exact hmatch.1.1
    have hne : c ≠ '.' := by
      rintro rfl
      exact absurd hc (by decide)
    simpa [visible] using hne

/-! ### The walk -/

/-- A skill that the walk yields: its `name`, its directory and its frontmatter. -/
structure Skill where
  name : Text
  path : Path Text
  fm : Dict Text Text

/-- The frontmatter of a `SKILL.md`, by either tool's `_fm`. -/
def File.fm (x : File) : Dict Text Text := (x.read.map collectFm).getD []

/-- `fm.get("name")`, as text. -/
def File.name (x : File) : Text := x.fm.getD "name".toList []

/-- `fm.get("content_hash", "")`. -/
def File.hash (x : File) : Text := x.fm.getD "content_hash".toList []

/-- What makes two `SKILL.md` files the same skill: `created_by` and `created_at`. -/
abbrev Identity := Text × Text

/-- `_identity`: "an edit changes the content hash but never these". -/
def identity (fm : Dict Text Text) : Identity :=
  (fm.getD "created_by".toList [], fm.getD "created_at".toList [])

/-- `fm.get("installer") == "auto-skill"`. -/
def autoSkill (fm : Dict Text Text) : Prop := fm.get? "installer".toList = some "auto-skill".toList

instance (fm : Dict Text Text) : Decidable (autoSkill fm) :=
  inferInstanceAs (Decidable (fm.get? "installer".toList = some "auto-skill".toList))

/-- `_skill_dirs`, over the directories with a `SKILL.md` that the walk finds: the skills yielded,
and whether the walk comes to its end. It ends early at a file that cannot be decoded. -/
def skillDirsBy (fm : Text → Dict Text Text) : List (Path Text × File) → List Skill × Bool
  | [] => ([], true)
  | (path, x) :: fs =>
    match x.read with
    | none => ([], false)
    | some text =>
      let name := (fm text).getD "name".toList []
      let rest := skillDirsBy fm fs
      if name = [] then rest else (⟨name, path, fm text⟩ :: rest.1, rest.2)

/-- `collect_commit.py::_skill_dirs`. -/
def collectSkillDirs : List (Path Text × File) → List Skill × Bool := skillDirsBy collectFm

/-- `sync_skills.py::_skill_dirs`. -/
def syncSkillDirs : List (Path Text × File) → List Skill × Bool := skillDirsBy syncFm

theorem syncSkillDirs_eq : syncSkillDirs = collectSkillDirs := by
  unfold syncSkillDirs collectSkillDirs
  congr 1

/-- A skill that `_skill_dirs` yields from a tree: its directory, and its `SKILL.md`. -/
def SkillFile (t : Tree) (p : Path Text) (x : File) : Prop :=
  (p, x) ∈ t.holding skillMd visible ∧ x.name ≠ []

/-- A skill of a file. -/
structure Skill.Of (s : Skill) (x : File) : Prop where
  readable : ∃ text, x.read = some text
  fm : s.fm = x.fm
  name : s.name = x.name
  named : s.name ≠ []

/-- A file has one skill in a directory. -/
theorem Skill.Of.unique {s s' : Skill} {x : File} (h : s.Of x) (h' : s'.Of x)
    (hpath : s.path = s'.path) : s = s' := by
  obtain ⟨name, path, fm⟩ := s
  obtain ⟨name', path', fm'⟩ := s'
  obtain rfl : name = name' := h.name.trans h'.name.symm
  obtain rfl : fm = fm' := h.fm.trans h'.fm.symm
  obtain rfl : path = path' := hpath
  rfl

variable {fs : List (Path Text × File)} {s : Skill} {path : Path Text} {x : File} {text : Text}

theorem skillDirs_cons_of_none (h : x.read = none) :
    collectSkillDirs ((path, x) :: fs) = ([], false) := by
  unfold collectSkillDirs
  rw [skillDirsBy, h]

theorem skillDirs_cons_of_some (h : x.read = some text) :
    collectSkillDirs ((path, x) :: fs) =
      if x.name = [] then collectSkillDirs fs
      else (⟨x.name, path, x.fm⟩ :: (collectSkillDirs fs).1, (collectSkillDirs fs).2) := by
  have hfm : x.fm = collectFm text := by
    rw [File.fm, h]
    rfl
  unfold collectSkillDirs
  rw [skillDirsBy, h, File.name, hfm]

/-- What is yielded is the skill of a file that the walk found. -/
theorem exists_of_mem_skillDirs (h : s ∈ (collectSkillDirs fs).1) :
    ∃ x, (s.path, x) ∈ fs ∧ s.Of x := by
  induction fs with
  | nil => cases h
  | cons f fs ih =>
    obtain ⟨path, x⟩ := f
    cases hr : x.read with
    | none =>
      rw [skillDirs_cons_of_none hr] at h
      cases h
    | some text =>
      rw [skillDirs_cons_of_some hr] at h
      by_cases hname : x.name = []
      · rw [if_pos hname] at h
        obtain ⟨y, hy, hs⟩ := ih h
        exact ⟨y, List.mem_cons_of_mem _ hy, hs⟩
      · rw [if_neg hname] at h
        rcases List.mem_cons.mp h with rfl | h
        · exact ⟨x, List.mem_cons_self .., ⟨text, hr⟩, rfl, rfl, hname⟩
        · obtain ⟨y, hy, hs⟩ := ih h
          exact ⟨y, List.mem_cons_of_mem _ hy, hs⟩

/-- The walk comes to its end exactly if every file it finds can be decoded. -/
theorem skillDirs_ends_iff :
    (collectSkillDirs fs).2 = true ↔ ∀ f ∈ fs, ∃ text, f.2.read = some text := by
  induction fs with
  | nil => exact ⟨fun _ f hf => absurd hf List.not_mem_nil, fun _ => rfl⟩
  | cons f fs ih =>
    obtain ⟨path, x⟩ := f
    rw [List.forall_mem_cons, ← ih]
    cases hr : x.read with
    | none => simp [skillDirs_cons_of_none hr]
    | some text =>
      rw [skillDirs_cons_of_some hr]
      split_ifs <;> simp

/-- A walk that comes to its end yields the skill of every file with a name. -/
theorem exists_mem_skillDirs (hend : (collectSkillDirs fs).2 = true) (hx : (path, x) ∈ fs)
    (hname : x.name ≠ []) :
    ∃ s ∈ (collectSkillDirs fs).1, s.path = path ∧ s.Of x := by
  induction fs with
  | nil => cases hx
  | cons f fs ih =>
    obtain ⟨q, y⟩ := f
    cases hr : y.read with
    | none =>
      rw [skillDirs_cons_of_none hr] at hend
      cases hend
    | some text =>
      rw [skillDirs_cons_of_some hr] at hend ⊢
      rcases List.mem_cons.mp hx with he | hx
      · cases he
        rw [if_neg hname]
        exact ⟨_, List.mem_cons_self .., rfl, ⟨text, hr⟩, rfl, rfl, hname⟩
      · by_cases hy : y.name = []
        · rw [if_pos hy] at hend ⊢
          exact ih hend hx
        · rw [if_neg hy] at hend ⊢
          obtain ⟨s, hs, hpath, hof⟩ := ih hend hx
          exact ⟨s, List.mem_cons_of_mem _ hs, hpath, hof⟩

/-! ### A tree with one skill, and one without -/

/-- A repository without skills. -/
def noSkills : Tree := ⟨[], List.nodup_nil, fun _ hf => absurd hf List.not_mem_nil⟩

/-- A tree with one skill in it, at `c/foo`. -/
def oneSkill (lines : List Text) : Tree where
  files := [(["c".toList, "foo".toList, skillMd], .text (unlines lines))]
  nodup := by simp
  free := by simp

/-- A skill `foo` of the category `c`. -/
def fooLines : List Text :=
  ["---".toList, "name: foo".toList, "category: c".toList, "installer: auto-skill".toList,
    "---".toList]

/-- The walk through a tree with one skill. -/
def oneFile (lines : List Text) : List (Path Text × File) :=
  [(["c".toList, "foo".toList], .text (unlines lines))]

theorem walk_oneFile (lines : List Text) :
    (oneSkill lines).Walk skillMd visible (oneFile lines) := by
  constructor
  · have h : (oneSkill lines).holding skillMd visible = oneFile lines := by
      unfold Tree.holding oneSkill oneFile
      rfl
    rw [h]
  · exact List.pairwise_singleton _ _

end OracleSkills.Tools
