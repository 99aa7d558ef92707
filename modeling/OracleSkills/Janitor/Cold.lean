import OracleSkills.Frontmatter.Flat
import OracleSkills.Python.Words
import OracleSkills.Regex.Backtrack
import OracleSkills.Server.Rpc
import Mathlib.Algebra.Order.Group.Int

/-!
# The cold skills

`janitor.py` goes through the skills and names the cold ones, "so their descriptions can be
suppressed". A skill is cold only if it is stamped `installer: auto-skill`, "it is a real directory,
not a symlink", there are "0 native Skill-tool invocations across the transcripts (pattern
"skill":"<name>")", and it is "older than --min-age-days".

The pattern is looked for in the lines of the transcripts as they are written, and an age that is
not known counts as old. `only_cold_iff` says when the list is nevertheless right. What is an
invocation is taken from `listing_report.py`, which parses the lines, and takes a leading slash and
the arguments off the name.
-/

namespace OracleSkills.Janitor

open Python Frontmatter Regex
open Server.Rpc (Json)

universe u

/-! ### The janitor -/

/-- An entry of the skills directory with a `SKILL.md`. -/
structure SkillDir where
  base : Text
  isLink : Bool
  /-- The text of the `SKILL.md`, `none` where it cannot be read. -/
  skillMd : Option Text

/-- What a run finds. -/
structure Setting (A : Type u) where
  src : Text
  minAgeDays : A
  /-- The lines that can be read of each transcript. -/
  transcripts : List (List Text)
  /-- The age of what `fromisoformat` makes of a text, `none` for a `ValueError`. -/
  age : Text → Option A

/-- `v[1:-1]` of a quoted value. -/
def unquoted (v : Text) : Text :=
  if 2 ≤ v.length ∧ v.head? = v.getLast? ∧ (v.head? = some '"' ∨ v.head? = some '\'') then
    v.tail.dropLast else v

/-- The loop of `_frontmatter`. -/
def readFm (fm : Dict Text Text) : List Text → Dict Text Text
  | [] => fm
  | ln :: lines =>
    if strip ln = fence then fm
    else if lstrip ln ≠ ln then readFm fm lines
    else
      match cut [':'] ln with
      | none => readFm fm lines
      | some (k, v) => readFm (fm.set (strip k) (unquoted (strip v))) lines

/-- `_frontmatter`. -/
def frontmatter : Option Text → Dict Text Text
  | none => []
  | some text => if fence.isPrefixOf text then readFm [] (splitlines text).tail else []

/-- `"skill"\s*:\s*"([^"]+)"`. -/
def skillPattern : Grouped Char where
  head := .seq (.lit "\"skill\"".toList)
    (.seq (.star (.one isSpace)) (.seq (.lit [':']) (.seq (.star (.one isSpace)) (.lit ['"']))))
  group := .plus (.one fun c => decide (c ≠ '"'))
  tail := .lit ['"']

variable {A : Type u}

/-- `_invoked_skill_names`, with as many copies of a name as it is counted. -/
def invokedNames (E : Setting A) : List Text :=
  E.transcripts.flatMap fun lines => lines.flatMap fun line =>
    if (cut "\"skill\"".toList line).isSome then skillPattern.findall line else []

/-- `_age_days`. -/
def ageDays (E : Setting A) : Option Text → Option A
  | none => none
  | some created => if created = [] then none else E.age created

/-- `fm.get("name") or name`. -/
def nameOf (d : SkillDir) : Text :=
  match (frontmatter d.skillMd).get? "name".toList with
  | none => d.base
  | some name => if name = [] then d.base else name

/-- The age of a skill. -/
def age (E : Setting A) (d : SkillDir) : Option A :=
  ageDays E ((frontmatter d.skillMd).get? "created_at".toList)

/-- A real directory, stamped `installer: auto-skill`. -/
def isAuto (d : SkillDir) : Bool :=
  !d.isLink && decide ((frontmatter d.skillMd).get? "installer".toList = some "auto-skill".toList)

/-- The lists of `main`. -/
structure Sweep (A : Type u) where
  cold : List Text
  keptInvoked : List (Text × ℕ)
  keptNew : List (Text × A)

-- nothing is assumed of the order: a bound that is not a number compares with no age
variable [LT A] [DecidableLT A]

/-- One turn of the loop. -/
def Sweep.add (E : Setting A) (s : Sweep A) (d : SkillDir) : Sweep A :=
  if isAuto d then
    let inv := (invokedNames E).count (nameOf d)
    if 0 < inv then { s with keptInvoked := s.keptInvoked ++ [(d.base, inv)] }
    else
      match age E d with
      | some a => if a < E.minAgeDays then { s with keptNew := s.keptNew ++
        [(d.base, a)] } else { s with cold := s.cold ++ [nameOf d] }
      | none => { s with cold := s.cold ++ [nameOf d] }
  else s

/-- `os.path.join(SRC, base, "SKILL.md")`. -/
def mdPath (E : Setting A) (d : SkillDir) : Text := E.src ++ '/' :: d.base ++ "/SKILL.md".toList

/-- The loop of `main`, over `sorted(glob.glob(…))`. -/
def sweep (E : Setting A) (dirs : List SkillDir) : Sweep A :=
  (dirs.mergeSort fun d e => leText (mdPath E d) (mdPath E e)).foldl (Sweep.add E) ⟨[], [], []⟩

/-! ### What is claimed -/

/-- `got.lstrip("/").split()[0]`. -/
def commandName (skill : Text) : Option Text :=
  (runs (fun c => !isSpace c) (skill.dropWhile (· = '/'))).head?

/-- A field of an object. -/
def field (key : String) : Json → Option Json
  | .obj members => Dict.get? key.toList members
  | _ => none

/-- The skill that a block of a message invokes. -/
def blockSkill (block : Json) : Option Text :=
  if (field "type" block).any (Json.isText "tool_use") &&
      (field "name" block).any (Json.isText "Skill") then
    match (field "input" block).bind (field "skill") with
    | some (.str skill) => commandName skill
    | _ => none
  else none

/-- The skills that a record of a transcript invokes. -/
def invocations (record : Json) : List Text :=
  match (field "message" record).bind (field "content") with
  | some (.arr blocks) => blocks.filterMap blockSkill
  | _ => []

/-- A transcript has an invocation of the skill, as `json.loads` reads its lines. -/
def Native (E : Setting A) (loads : Text → Option Json) (name : Text) : Prop :=
  ∃ lines ∈ E.transcripts, ∃ line ∈ lines, ∃ record, loads line = some record ∧
    name ∈ invocations record

/-- A skill of a name, that is known to be old enough. -/
def KnownOld [LE A] (E : Setting A) (dirs : List SkillDir) (name : Text) : Prop :=
  ∃ d ∈ dirs, isAuto d = true ∧ nameOf d = name ∧ ∃ a, age E d = some a ∧ E.minAgeDays ≤ a

/-- What is claimed of the cold list. -/
structure OnlyCold [LE A] (E : Setting A) (loads : Text → Option Json) (dirs : List SkillDir) :
    Prop where
  cold : ∀ name ∈ (sweep E dirs).cold, KnownOld E dirs name ∧ ¬ Native E loads name

/-- A skill that is stamped, and not known to be too new. -/
def Candidate (E : Setting A) (d : SkillDir) : Prop :=
  isAuto d = true ∧ ∀ a, age E d = some a → ¬ a < E.minAgeDays

/-- The pattern finds the name in a transcript. -/
def Found (E : Setting A) (name : Text) : Prop := name ∈ invokedNames E

/-- Nothing is missed: each invocation of a candidate is written so that the pattern finds it, and
those that it does not find are known to be old enough. -/
structure Recorded [LE A] (E : Setting A) (loads : Text → Option Json) (dirs : List SkillDir) :
    Prop where
  dated : ∀ d ∈ dirs, Candidate E d → (∀ a, age E d = some a → ¬ E.minAgeDays ≤ a) →
    Found E (nameOf d) ∨ KnownOld E dirs (nameOf d)
  found : ∀ d ∈ dirs, Candidate E d → Native E loads (nameOf d) → Found E (nameOf d)

/-! ### The list -/

variable {E : Setting A} {loads : Text → Option Json} {dirs : List SkillDir}

/-- One turn adds a candidate that the pattern does not find. -/
theorem mem_cold_add {s : Sweep A} {d : SkillDir} {name : Text} : name ∈ (s.add E d).cold ↔
    name ∈ s.cold ∨ Candidate E d ∧ ¬ Found E (nameOf d) ∧ name = nameOf d := by
  unfold Sweep.add
  by_cases hauto : isAuto d = true
  · rw [if_pos hauto]
    by_cases hfound : Found E (nameOf d)
    · rw [if_pos (List.count_pos_iff.mpr hfound)]
      exact ⟨Or.inl, fun h => h.resolve_right fun h => h.2.1 hfound⟩
    · rw [if_neg (mt List.count_pos_iff.mp hfound)]
      cases hage : age E d with
      | none =>
        have hcand : Candidate E d := ⟨hauto, fun a ha => (by cases hage.symm.trans ha)⟩
        simp [hcand, hfound]
      | some a =>
        by_cases hlt : a < E.minAgeDays
        · have hcand : ¬ Candidate E d := fun h => h.2 a hage hlt
          simp [hcand, hlt]
        · have hcand : Candidate E d :=
            ⟨hauto, fun b hb => (by cases hage.symm.trans hb; exact hlt)⟩
          simp [hcand, hfound, hlt]
  · rw [if_neg hauto]
    exact ⟨Or.inl, fun h => h.resolve_right fun h => hauto h.1.1⟩

/-- **The cold list** has the names of the candidates that the pattern does not find. -/
theorem mem_cold_iff {name : Text} : name ∈ (sweep E dirs).cold ↔
    ∃ d ∈ dirs, Candidate E d ∧ ¬ Found E (nameOf d) ∧ name = nameOf d := by
  have hfold : ∀ (ds : List SkillDir) (s : Sweep A), name ∈ (ds.foldl (Sweep.add E) s).cold ↔
      name ∈ s.cold ∨ ∃ d ∈ ds, Candidate E d ∧ ¬ Found E (nameOf d) ∧ name = nameOf d := by
    intro ds
    induction ds with
    | nil => simp
    | cons d ds ih =>
      intro s
      rw [List.foldl_cons, ih, mem_cold_add, List.exists_mem_cons_iff, or_assoc]
  rw [sweep, hfold]
  simp only [List.not_mem_nil, false_or, List.mem_mergeSort]

/-- **The cold list is right** if and only if nothing is missed. -/
theorem only_cold_iff [LE A] (E : Setting A) (loads : Text → Option Json) (dirs : List SkillDir) :
    OnlyCold E loads dirs ↔ Recorded E loads dirs := by
  constructor
  · intro h
    refine ⟨fun d hd hcand _ => ?_, fun d hd hcand hnative => ?_⟩
    · rw [or_iff_not_imp_left]
      intro hfound
      exact (h.cold _ (mem_cold_iff.mpr ⟨d, hd, hcand, hfound, rfl⟩)).1
    · by_contra hfound
      exact (h.cold _ (mem_cold_iff.mpr ⟨d, hd, hcand, hfound, rfl⟩)).2 hnative
  · intro h
    refine ⟨fun name hname => ?_⟩
    obtain ⟨d, hd, hcand, hfound, rfl⟩ := mem_cold_iff.mp hname
    refine ⟨?_, fun hnative => hfound (h.found d hd hcand hnative)⟩
    by_cases hold : ∃ a, age E d = some a ∧ E.minAgeDays ≤ a
    · exact ⟨d, hd, hcand.1, rfl, hold⟩
    · exact (h.dated d hd hcand fun a ha hle => hold ⟨a, ha, hle⟩).resolve_left hfound

/-! ### An age that is not known -/

/-- A skill without a `created_at`. -/
def undated : SkillDir := ⟨"x".toList, false, some "---\ninstaller: auto-skill\n---\n".toList⟩

/-- There are no transcripts, and no date can be read. -/
def emptySetting : Setting ℤ := ⟨"skills".toList, 7, [], fun _ => none⟩

/-- It is cold from its first day on. -/
theorem not_onlyCold_undated : ¬ OnlyCold emptySetting (fun _ => none) [undated] := by
  intro h
  have hcold : "x".toList ∈ (sweep emptySetting [undated]).cold :=
    mem_cold_iff.mpr ⟨undated, List.mem_singleton.mpr rfl, ⟨by decide, fun a ha => (by cases ha)⟩,
      List.not_mem_nil, by decide⟩
  obtain ⟨⟨d, hd, -, -, a, ha, -⟩, -⟩ := h.cold _ hcold
  rw [List.mem_singleton.mp hd] at ha
  cases ha

/-- The pattern does not take the slash off. -/
example : skillPattern.findall "\"skill\": \"/x now\"".toList = ["/x now".toList] := by decide

end OracleSkills.Janitor
