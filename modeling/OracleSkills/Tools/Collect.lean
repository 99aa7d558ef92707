import Mathlib.Data.List.Perm.Subperm
import OracleSkills.Python.Loop
import OracleSkills.Tools.SkillDirs

/-!
# Collecting

`collect_commit.py` is "the single-committer step": it gathers auto-created skills from a
source, places them into the repository's `skills/`, organised by their category, and makes one
commit. It first indexes the skills that are there by their names. A skill of the source whose
name is in the index with the same hash is skipped; with the same author and birth it is "the
SAME skill, edited since it was last collected", and updated in place; otherwise it is "genuinely
different" and renamed. To place a skill is to remove whatever is at its destination and to
copy its directory there.

The model is of what happens to `skills/` and of the lists that the run reports; what becomes of
the commit has no part in either. `collectSkill_cases` says what the turn for one skill can do.

What is *not* formalized: symbolic links in the trees, and the modes and times of files.
-/

namespace OracleSkills.Tools

open Python Frontmatter Files

/-! ### The state of a run -/

/-- An entry of the index: `(content_hash, dir, identity)`. -/
structure Known where
  hash : Text
  path : Path Text
  identity : Identity
deriving DecidableEq

/-- An entry of `rejected`, with its extra keys. -/
structure Rejection where
  name : Text
  reason : Text
  extra : List (Text × Text)

/-- The repository's `skills/`, the index, and the lists to report. -/
structure Collection where
  skills : Tree
  existing : Dict Text Known
  committed : List Text
  skipped : List Text
  renamed : List (Text × Text)
  updated : List Text
  rejected : List Rejection

/-- Where the two trees are, and what `realpath` says of paths. -/
structure Places where
  realpath : Text → Text
  /-- `skills_root`. -/
  root : Text
  /-- `--from`. -/
  source : Text

/-- `_refuse`: "skip a skill and SAY SO". -/
def Collection.refuse (st : Collection) (name reason : Text) (extra : List (Text × Text)) :
    Collection :=
  { st with rejected := st.rejected ++ [⟨name, reason, extra⟩] }

/-! ### One skill -/

/-- `h`. -/
def Skill.hash (s : Skill) : Text := s.fm.getD "content_hash".toList []

/-- `fm.get("category", "") or "uncategorized"`. -/
def Skill.category (s : Skill) : Text :=
  let cat := s.fm.getD "category".toList []
  if cat = [] then "uncategorized".toList else cat

/-- `fm.get("created_by", "x") or "x"`. -/
def Skill.author (s : Skill) : Text :=
  let by' := s.fm.getD "created_by".toList ['x']
  if by' = [] then ['x'] else by'

/-- `_identity(fm)`. -/
def Skill.identity (s : Skill) : Identity := Tools.identity s.fm

/-- `f"{name}-{by}-{n}"`. -/
def numbered (base : Text) (n : ℕ) : Text := base ++ '-' :: (Nat.repr n).toList

/-- The loop that looks for a name that is not taken. -/
def freshFrom (taken : List Text) (base : Text) : ℕ → ℕ → Text → Text
  | 0, _, target => target
  | fuel + 1, n, target =>
    if target ∈ taken then freshFrom taken base fuel (n + 1) (numbered base n) else target

/-- The name of a skill that is not the one in the index: `f"{name}-{by}"`, or with the first
number that makes it new. Of one name more than are taken, one is not. -/
def freshTarget (taken : List Text) (name author : Text) : Text :=
  let base := name ++ '-' :: author
  freshFrom taken base (taken.length + 1) 2 base

/-- The names that the loop tries: the base, and then the base with a number from two on. -/
def candidate (base : Text) : ℕ → Text
  | 0 => base
  | k + 1 => numbered base (k + 2)

theorem candidate_injective (base : Text) : Function.Injective (candidate base) := by
  have hnumbered : ∀ {m n : ℕ}, numbered base m = numbered base n → m = n := by
    intro m n h
    have hdigits := (List.cons.inj (List.append_cancel_left h)).2
    rw [Nat.toList_repr, Nat.toList_repr] at hdigits
    rw [← Nat.ofDigitChars_ten_toDigits (n := m), hdigits, Nat.ofDigitChars_ten_toDigits]
  have hbase : ∀ {n : ℕ}, base ≠ numbered base n := by
    intro n h
    have hnil : '-' :: (Nat.repr n).toList = [] := List.self_eq_append_right.mp h
    cases hnil
  intro k l h
  cases k with
  | zero =>
    cases l with
    | zero => rfl
    | succ l => exact absurd h hbase
  | succ k =>
    cases l with
    | zero => exact absurd h.symm hbase
    | succ l =>
      have := hnumbered h
      omega

/-- The loop ends at a name that is not taken, or all the names that it has fuel for are. -/
theorem freshFrom_spec (taken : List Text) (base : Text) (fuel k : ℕ) :
    freshFrom taken base fuel (k + 2) (candidate base k) ∉ taken ∨
        ∀ i < fuel, candidate base (k + i) ∈ taken := by
  induction fuel generalizing k with
  | zero => exact Or.inr fun i hi => absurd hi (Nat.not_lt_zero i)
  | succ fuel ih =>
    unfold freshFrom
    split_ifs with hmem
    · refine (ih (k + 1)).imp_right fun h i hi => ?_
      cases i with
      | zero => exact hmem
      | succ i =>
        have := h i (by omega)
        rwa [show k + 1 + i = k + (i + 1) by omega] at this
    · exact Or.inl hmem

/-- **The loop has fuel enough**: the new name is not taken. -/
theorem freshTarget_not_mem (taken : List Text) (name author : Text) :
    freshTarget taken name author ∉ taken := by
  refine (freshFrom_spec taken (name ++ '-' :: author) (taken.length + 1) 0).resolve_right fun h =>
    ?_
  -- more names are tried than there are taken ones
  have hnodup : ((List.range (taken.length + 1)).map (candidate (name ++ '-' :: author))).Nodup :=
    List.nodup_range.map (candidate_injective _)
  have hsub : (List.range (taken.length + 1)).map (candidate (name ++ '-' :: author)) ⊆ taken := by
    intro t ht
    obtain ⟨i, hi, rfl⟩ := List.mem_map.mp ht
    have := h i (List.mem_range.mp hi)
    rwa [Nat.zero_add] at this
  have hle := (hnodup.subperm hsub).length_le
  rw [List.length_map, List.length_range] at hle
  omega

/-- The text of a renamed skill: `.replace(f"name: {name}", f"name: {target}", 1)`. -/
def renameText (name target : Text) (x : File) : File :=
  match x.read with
  | none => x
  | some text => .text (replaceFirst ("name: ".toList ++ name) ("name: ".toList ++ target) text)

/-- What is copied: the skill's directory, and "keep frontmatter name in sync with the renamed
folder". -/
def copied (src : Tree) (s : Skill) (target : Text) : Tree :=
  if target = s.name then src.below s.path else
    (src.below s.path).edit [skillMd] (renameText s.name target)

/-- What is copied of a skill's directory, beside its own file, -/
theorem mem_copied_of_ne {src : Tree} {s : Skill} {target : Text} {q : Path Text} {x : File}
    (hq : q ≠ [skillMd]) :
    (q, x) ∈ copied src s target ↔ (s.path ++ q, x) ∈ src := by
  unfold copied
  split_ifs
  · exact Tree.mem_below
  · rw [← Tree.mem_below, Tree.mem_def, Tree.edit, List.mem_map]
    constructor
    · rintro ⟨⟨r, y⟩, hr, h⟩
      simp only [Prod.mk.injEq] at h
      obtain ⟨rfl, h⟩ := h
      rw [if_neg hq] at h
      exact h ▸ hr
    · exact fun h => ⟨_, h, by rw [if_neg hq]⟩

/-- and its own file. -/
theorem mem_copied_skillMd {src : Tree} {s : Skill} {target : Text} {x : File} :
    ([skillMd], x) ∈ copied src s target ↔
      ∃ y, (s.path ++ [skillMd], y) ∈ src ∧ x = if target = s.name then y else
          renameText s.name target y := by
  unfold copied
  split_ifs
  · simp
  · rw [Tree.mem_def, Tree.edit, List.mem_map]
    constructor
    · rintro ⟨⟨r, y⟩, hr, h⟩
      simp only [Prod.mk.injEq] at h
      obtain ⟨rfl, rfl⟩ := h
      exact ⟨y, Tree.mem_below.mp hr, if_pos rfl⟩
    · rintro ⟨y, hy, rfl⟩
      exact ⟨([skillMd], y), Tree.mem_below.mpr hy, by rw [if_pos rfl]⟩

/-- The end of a turn, from the check of the target on. -/
def place (W : Places) (src : Tree) (st : Collection) (s : Skill) (target : Text)
    (dest : Path Text) : Option Collection :=
  match badSegment target with
  | some why =>
    some (st.refuse s.name ("created_by makes an unusable folder name: ".toList ++ why)
      [("target".toList, target)])
  | none =>
    if ¬ inside W.realpath W.root (pathText W.root dest) then
      some (st.refuse s.name "destination resolves outside skills/".toList
        [("dest".toList, pathText W.root dest)])
    else
      match st.skills.replaceDir dest (copied src s target) with
      | none => none
      | some skills =>
        some { st with
          skills := skills
          existing := st.existing.set target ⟨s.hash, dest, s.identity⟩
          committed := if target ∈ st.updated then st.committed else st.committed ++ [target] }

/-- The turn of the loop for one skill of the source; `none` where it raises. -/
def collectSkill (W : Places) (src : Tree) (st : Collection) (s : Skill) : Option Collection :=
  if ¬ autoSkill s.fm then some st
  else
    match (badSegment s.name).or (badSegment s.category) with
    | some why =>
      some (st.refuse s.name why [("category".toList, s.category),
        ("dir".toList, pathText W.source s.path)])
    | none =>
      match st.existing.get? s.name with
      | none => place W src st s s.name [s.category, s.name]
      | some known =>
        if known.hash = s.hash then some { st with skipped := st.skipped ++ [s.name] }
        else if known.identity = s.identity then
          place W src { st with updated := st.updated ++ [s.name] } s s.name known.path
        else
          let target := freshTarget st.existing.keys s.name s.author
          place W src { st with renamed := st.renamed ++ [(s.name, target)] } s target
            [s.category, target]

/-! ### A run -/

/-- The index of the skills that are there. -/
def index (found : List Skill) : Dict Text Known :=
  found.foldl (fun d s => d.set s.name ⟨s.hash, s.path, s.identity⟩) []

/-- The state in which the loop over the source begins. -/
def start (skills : Tree) (repoFiles : List (Path Text × File)) : Collection :=
  ⟨skills, index (collectSkillDirs repoFiles).1, [], [], [], [], []⟩

/-- `collect_commit.py::main`, on the `SKILL.md` files of the repository and of the source in the
orders in which they are found: what it has done, and whether it comes to its end. -/
def collectCommit (W : Places) (skills src : Tree) (repoFiles srcFiles : List (Path Text × File)) :
    Collection × Bool :=
  if ¬ (collectSkillDirs repoFiles).2 then (⟨skills, [], [], [], [], [], []⟩, false)
  else
    let found := collectSkillDirs srcFiles
    let run := forEach (collectSkill W src) found.1 (start skills repoFiles)
    (run.1, run.2 && found.2)

/-- Where both walks come to their ends, a run is the loop. -/
theorem collectCommit_of_ends (W : Places) (skills src : Tree)
    {repoFiles srcFiles : List (Path Text × File)}
    (hR : (collectSkillDirs repoFiles).2 = true) (hS : (collectSkillDirs srcFiles).2 = true) :
    collectCommit W skills src repoFiles srcFiles =
      forEach (collectSkill W src) (collectSkillDirs srcFiles).1 (start skills repoFiles) := by
  unfold collectCommit
  rw [if_neg (not_not.mpr hR)]
  simp only [hS, Bool.and_true]

/-! ### The index -/

theorem index_concat (found : List Skill) (s : Skill) :
    index (found ++ [s]) = (index found).set s.name ⟨s.hash, s.path, s.identity⟩ := by
  unfold index
  rw [List.foldl_append]
  rfl

/-- An entry of the index is that of a skill. -/
theorem exists_of_index {found : List Skill} {n : Text} {known : Known}
    (h : (index found).get? n = some known) :
    ∃ s ∈ found, s.name = n ∧ known = ⟨s.hash, s.path, s.identity⟩ := by
  induction found using List.reverseRecOn with
  | nil => cases h
  | append_singleton found s ih =>
    rw [index_concat] at h
    rcases Dict.get?_of_get?_set h with ⟨hn, rfl⟩ | h
    · exact ⟨s, List.mem_append_right _ (List.mem_singleton.mpr rfl), hn.symm, rfl⟩
    · obtain ⟨t, ht, hname⟩ := ih h
      exact ⟨t, List.mem_append_left _ ht, hname⟩

/-- Every skill has an entry in the index under its name. -/
theorem index_ne_none {found : List Skill} {s : Skill} (h : s ∈ found) :
    (index found).get? s.name ≠ none := by
  induction found using List.reverseRecOn with
  | nil => cases h
  | append_singleton found t ih =>
    rw [index_concat, Dict.get?_set]
    split_ifs with hn
    · exact Option.some_ne_none _
    · rcases List.mem_append.mp h with h | h
      · exact ih h
      · rw [List.mem_singleton.mp h] at hn
        exact absurd rfl hn

/-! ### What a turn can do -/

/-- The skill is the tool's to collect, and can be given a directory. -/
structure Eligible (s : Skill) : Prop where
  auto : autoSkill s.fm
  name_ok : badSegment s.name = none
  category_ok : badSegment s.category = none

instance (s : Skill) : Decidable (Eligible s) :=
  decidable_of_iff (autoSkill s.fm ∧ badSegment s.name = none ∧ badSegment s.category = none)
    ⟨fun h => ⟨h.1, h.2.1, h.2.2⟩, fun h => ⟨h.1, h.2, h.3⟩⟩

/-- "SAME skill, edited since it was last collected." -/
def Updates (st : Collection) (s : Skill) : Prop :=
  ∃ known, st.existing.get? s.name = some known ∧ known.hash ≠ s.hash ∧ known.identity = s.identity

/-- "Genuinely different skill that happens to share a name." -/
def Collides (st : Collection) (s : Skill) : Prop :=
  ∃ known, st.existing.get? s.name = some known ∧ known.hash ≠ s.hash ∧ known.identity ≠ s.identity

/-- Where a skill is to be placed, and under which name. -/
inductive Aims (st : Collection) (s : Skill) (target : Text) (dest : Path Text) : Prop
  | new (h : st.existing.get? s.name = none) (ht : target = s.name)
    (hd : dest = [s.category, s.name])
  | update (known : Known) (h : st.existing.get? s.name = some known) (hh : known.hash ≠ s.hash)
      (hi : known.identity = s.identity) (ht : target = s.name) (hd : dest = known.path)
  | rename (known : Known) (h : st.existing.get? s.name = some known) (hh : known.hash ≠ s.hash)
      (hi : known.identity ≠ s.identity)
        (ht : target = freshTarget st.existing.keys s.name s.author)
      (hd : dest = [s.category, target])

/-- The skill comes to be placed at `dest`. -/
structure Goes (W : Places) (st : Collection) (s : Skill) (target : Text) (dest : Path Text) :
    Prop where
  eligible : Eligible s
  aims : Aims st s target dest
  target_ok : badSegment target = none
  dest_inside : inside W.realpath W.root (pathText W.root dest) = true

/-- Nothing is placed, and the index stays as it is. -/
structure Still (st st' : Collection) : Prop where
  skills : st'.skills = st.skills
  existing : st'.existing = st.existing
  updated : ∀ n ∈ st.updated, n ∈ st'.updated

/-- The turn for `s` does nothing but skip or refuse it, which it does if `s` is the tool's. -/
structure Idles (st : Collection) (s : Skill) (st' : Collection) : Prop where
  skills : st'.skills = st.skills
  existing : st'.existing = st.existing
  committed : st'.committed = st.committed
  renamed : st'.renamed = st.renamed
  updated : st'.updated = st.updated
  skipped : st.skipped ⊆ st'.skipped
  rejected : st.rejected ⊆ st'.rejected
  said : autoSkill s.fm → s.name ∈ st'.skipped ∨ ∃ r ∈ st'.rejected, r.name = s.name

variable {W : Places} {src : Tree} {st st' : Collection} {s : Skill} {target : Text}
  {dest : Path Text}

theorem Idles.still (h : Idles st s st') :
    Still st st' := ⟨h.skills, h.existing, fun _ hn => h.updated ▸ hn⟩

theorem idles_refuse (st : Collection) (s : Skill) (reason : Text) (extra : List (Text × Text)) :
    Idles st s (st.refuse s.name reason extra) where
  skills := rfl
  existing := rfl
  committed := rfl
  renamed := rfl
  updated := rfl
  skipped := List.Subset.refl _
  rejected := List.subset_append_left _ _
  said _ := Or.inr ⟨_, List.mem_append_right _ (List.mem_singleton.mpr rfl), rfl⟩

theorem idles_skip (st : Collection) (s : Skill) :
    Idles st s { st with skipped := st.skipped ++ [s.name] } where
  skills := rfl
  existing := rfl
  committed := rfl
  renamed := rfl
  updated := rfl
  skipped := List.subset_append_left _ _
  rejected := List.Subset.refl _
  said _ := Or.inl (List.mem_append_right _ (List.mem_singleton.mpr rfl))

theorem collectSkill_of_eligible (h : Eligible s) :
    collectSkill W src st s =
      match st.existing.get? s.name with
      | none => place W src st s s.name [s.category, s.name]
      | some known =>
        if known.hash = s.hash then some { st with skipped := st.skipped ++ [s.name] }
        else if known.identity = s.identity then
          place W src { st with updated := st.updated ++ [s.name] } s s.name known.path
        else
          let target := freshTarget st.existing.keys s.name s.author
          place W src { st with renamed := st.renamed ++ [(s.name, target)] } s target
              [s.category, target] := by
  rw [collectSkill, if_neg (not_not.mpr h.auto), h.name_ok, h.category_ok]
  rfl

/-- A skill of the tool's that cannot be given a directory is refused. -/
theorem collectSkill_of_bad (hauto : autoSkill s.fm) (h : ¬ Eligible s) :
    ∃ reason extra, collectSkill W src st s = some (st.refuse s.name reason extra) := by
  unfold collectSkill
  rw [if_neg (not_not.mpr hauto)]
  cases hbad : (badSegment s.name).or (badSegment s.category) with
  | some why => exact ⟨_, _, rfl⟩
  | none =>
    rw [Option.or_eq_none_iff] at hbad
    exact absurd ⟨hauto, hbad.1, hbad.2⟩ h

theorem collectSkill_of_not_auto (h : ¬ autoSkill s.fm) :
    collectSkill W src st s = some st := if_pos h

/-- A skill that is not eligible is passed over or refused. -/
theorem collectSkill_of_not_eligible (h : ¬ Eligible s) :
    ∃ st', collectSkill W src st s = some st' ∧ Idles st s st' := by
  by_cases hauto : autoSkill s.fm
  · obtain ⟨reason, extra, heq⟩ : ∃ reason extra, collectSkill W src st s =
        some (st.refuse s.name reason extra) :=
      collectSkill_of_bad hauto h
    exact ⟨_, heq, idles_refuse ..⟩
  · exact ⟨st, collectSkill_of_not_auto hauto, rfl, rfl, rfl, rfl, rfl, List.Subset.refl _,
      List.Subset.refl _, fun ha => absurd ha hauto⟩

/-- What a known skill is skipped with. -/
theorem collectSkill_eq_skip (he : Eligible s) {known : Known}
    (hk : st.existing.get? s.name = some known)
    (hh : known.hash = s.hash) :
    collectSkill W src st s = some { st with skipped := st.skipped ++ [s.name] } := by
  rw [collectSkill_of_eligible he, hk]
  simp only [if_pos hh]

/-- A skill that is in the index with its hash is skipped. -/
theorem collectSkill_of_known (he : Eligible s) {known : Known}
    (hk : st.existing.get? s.name = some known)
    (hh : known.hash = s.hash) : ∃ st', collectSkill W src st s = some st' ∧ Idles st s st' :=
  ⟨_, collectSkill_eq_skip he hk hh, idles_skip st s⟩

/-- What a turn that places a skill leaves behind. -/
structure Placed (st : Collection) (s : Skill) (target : Text) (dest : Path Text) (skills : Tree)
    (st' : Collection) :
    Prop where
  skills : st'.skills = skills
  existing : st'.existing = st.existing.set target ⟨s.hash, dest, s.identity⟩
  updated : ∀ n, n ∈ st'.updated ↔ n ∈ st.updated ∨ (n = s.name ∧ Updates st s)

/-- A skill with a target that is no directory's name, or outside, is refused. -/
theorem place_of_refused
    (h : badSegment target ≠ none ∨ inside W.realpath W.root (pathText W.root dest) = false) :
    ∃ reason extra, place W src st s target dest = some (st.refuse s.name reason extra) := by
  unfold place
  cases hbad : badSegment target with
  | some why => exact ⟨_, _, rfl⟩
  | none =>
    rcases h with h | h
    · exact absurd hbad h
    · rw [if_pos (by simpa using h)]
      exact ⟨_, _, rfl⟩

/-- A skill that is not in the index, and would be placed outside, is refused. -/
theorem collectSkill_of_outside (he : Eligible s) (hk : st.existing.get? s.name = none)
    (hin : inside W.realpath W.root (pathText W.root [s.category, s.name]) = false) :
    ∃ st', collectSkill W src st s = some st' ∧ Idles st s st' := by
  obtain ⟨reason, extra, heq⟩ : ∃ reason extra, place W src st s s.name [s.category, s.name] =
      some (st.refuse s.name reason extra) :=
    place_of_refused (Or.inr hin)
  rw [collectSkill_of_eligible he, hk]
  exact ⟨_, heq, idles_refuse ..⟩

theorem place_of_ok (hok : badSegment target = none)
    (hin : inside W.realpath W.root (pathText W.root dest) = true) :
    place W src st s target dest =
      (st.skills.replaceDir dest (copied src s target)).map fun skills => { st with
        skills := skills
        existing := st.existing.set target ⟨s.hash, dest, s.identity⟩
        committed := if target ∈ st.updated then st.committed else st.committed ++ [target] } := by
  unfold place
  rw [hok, if_neg (by simpa using hin)]
  cases st.skills.replaceDir dest (copied src s target) <;> rfl

/-- A skill aims at one destination, under one name. -/
theorem Aims.unique {target' : Text} {dest' : Path Text} (h : Aims st s target dest)
    (h' : Aims st s target' dest') :
    target = target' ∧ dest = dest' := by
  cases h with
  | new h ht hd =>
    cases h' with
    | new _ ht' hd' => exact ⟨ht.trans ht'.symm, hd.trans hd'.symm⟩
    | update known h' => simp [h] at h'
    | rename known h' => simp [h] at h'
  | update known h _ hi ht hd =>
    cases h' with
    | new h' => simp [h] at h'
    | update known' h' _ _ ht' hd' =>
      rw [h, Option.some.injEq] at h'
      exact ⟨ht.trans ht'.symm, by rw [hd, hd', h']⟩
    | rename known' h' _ hi' =>
      rw [h, Option.some.injEq] at h'
      exact absurd hi (h' ▸ hi')
  | rename known h _ hi ht hd =>
    cases h' with
    | new h' => simp [h] at h'
    | update known' h' _ hi' =>
      rw [h, Option.some.injEq] at h'
      exact absurd (h' ▸ hi') hi
    | rename known' h' _ _ ht' hd' => exact ⟨ht.trans ht'.symm, by rw [hd, hd', ht, ht']⟩

/-- A skill that aims somewhere is not in the index with its hash. -/
theorem Aims.hash_ne (h : Aims st s target dest) {known : Known}
    (hk : st.existing.get? s.name = some known) :
    known.hash ≠ s.hash := by
  cases h with
  | new h =>
    rw [h] at hk
    cases hk
  | update known' h hh | rename known' h hh =>
    rw [h, Option.some.injEq] at hk
    exact hk ▸ hh

/-- What is recorded of a skill before its target is checked. -/
def recorded (st : Collection) (s : Skill) : Collection :=
  match st.existing.get? s.name with
  | none => st
  | some known =>
    if known.identity = s.identity then { st with updated := st.updated ++ [s.name] }
    else { st with renamed := st.renamed ++
      [(s.name, freshTarget st.existing.keys s.name s.author)] }

/-- The tree, the index and `committed` are as before. -/
theorem recorded_keeps (st : Collection) (s : Skill) :
    (recorded st s).skills = st.skills ∧ (recorded st s).existing = st.existing ∧
      (recorded st s).committed = st.committed := by
  unfold recorded
  split
  · exact ⟨rfl, rfl, rfl⟩
  · split_ifs <;> exact ⟨rfl, rfl, rfl⟩

@[simp] theorem recorded_skills : (recorded st s).skills = st.skills := (recorded_keeps st s).1

@[simp] theorem recorded_existing :
    (recorded st s).existing = st.existing := (recorded_keeps st s).2.1

@[simp] theorem recorded_committed :
    (recorded st s).committed = st.committed := (recorded_keeps st s).2.2

theorem recorded_of_none (h : st.existing.get? s.name = none) :
    recorded st s = st := by rw [recorded, h]

theorem recorded_of_update {known : Known} (h : st.existing.get? s.name = some known)
    (hi : known.identity = s.identity) :
    recorded st s = { st with updated := st.updated ++ [s.name] } := by
  simp only [recorded, h, if_pos hi]

theorem recorded_of_rename {known : Known} (h : st.existing.get? s.name = some known)
    (hi : known.identity ≠ s.identity) :
    recorded st s =
        { st with renamed := st.renamed ++
        [(s.name, freshTarget st.existing.keys s.name s.author)] } := by
  simp only [recorded, h, if_neg hi]

/-- A skill that is not in the index, or is there with another hash, is placed where it aims,
if that can be done. -/
theorem collectSkill_of_aims (W : Places) (src : Tree) (he : Eligible s)
    (ha : Aims st s target dest) :
    collectSkill W src st s = place W src (recorded st s) s target dest := by
  rw [collectSkill_of_eligible he]
  cases ha with
  | new h ht hd => rw [recorded_of_none h, h, ht, hd]
  | update known h hh hi ht hd =>
    simp only [recorded_of_update h hi, h, if_neg hh, if_pos hi, ht, hd]
  | rename known h hh hi ht hd =>
    simp only [recorded_of_rename h hi, h, if_neg hh, if_neg hi, ht, hd]

theorem mem_updated_recorded (ha : Aims st s target dest) {n : Text} :
    n ∈ (recorded st s).updated ↔ n ∈ st.updated ∨ (n = s.name ∧ Updates st s) := by
  cases ha with
  | new h =>
    rw [recorded_of_none h]
    refine ⟨Or.inl, fun hn => hn.resolve_right ?_⟩
    rintro ⟨-, known, hk, -⟩
    rw [h] at hk
    cases hk
  | update known h hh hi =>
    rw [recorded_of_update h hi, List.mem_append, List.mem_singleton]
    exact or_congr Iff.rfl ⟨fun hn => ⟨hn, known, h, hh, hi⟩, And.left⟩
  | rename known h hh hi =>
    rw [recorded_of_rename h hi]
    refine ⟨Or.inl, fun hn => hn.resolve_right ?_⟩
    rintro ⟨-, known', hk, -, hi'⟩
    rw [h, Option.some.injEq] at hk
    exact hi (hk ▸ hi')

/-- A skill that comes to be placed raises if a file is in the way, -/
theorem Goes.raises (h : Goes W st s target dest) (hc : ¬ st.skills.Clear dest) :
    collectSkill W src st s = none := by
  rw [collectSkill_of_aims W src h.eligible h.aims, place_of_ok h.target_ok h.dest_inside,
    recorded_skills, Tree.replaceDir_of_not_clear hc]
  rfl

/-- and otherwise it is placed. -/
theorem Goes.placed (h : Goes W st s target dest) {skills : Tree}
    (hr : st.skills.replaceDir dest (copied src s target) = some skills) :
    ∃ st', collectSkill W src st s = some st' ∧ Placed st s target dest skills st' := by
  rw [collectSkill_of_aims W src h.eligible h.aims, place_of_ok h.target_ok h.dest_inside,
    recorded_skills, hr]
  exact ⟨_, rfl, rfl, by rw [recorded_existing], fun _ => mem_updated_recorded h.aims⟩

/-- A skill that aims somewhere is placed there, or nothing is placed. -/
theorem cases_of_aims (he : Eligible s) (ha : Aims st s target dest)
    (h : collectSkill W src st s = some st') :
    Still st st' ∨ Goes W st s target dest ∧
      ∃ skills, st.skills.replaceDir dest (copied src s target) = some skills ∧
          Placed st s target dest skills st' := by
  by_cases hok : badSegment target = none ∧ inside W.realpath W.root (pathText W.root dest) = true
  · have hgoes : Goes W st s target dest := ⟨he, ha, hok.1, hok.2⟩
    refine Or.inr ⟨hgoes, ?_⟩
    by_cases hc : st.skills.Clear dest
    · obtain ⟨skills, hr⟩ := Tree.replaceDir_isSome_iff.mpr hc
      obtain ⟨st₁, heq, hplaced⟩ := hgoes.placed hr
      rw [h, Option.some.injEq] at heq
      exact ⟨skills, hr, heq ▸ hplaced⟩
    · rw [hgoes.raises hc] at h
      cases h
  · have href : badSegment target ≠ none ∨
        inside W.realpath W.root (pathText W.root dest) = false := by
      rw [not_and_or] at hok
      exact hok.imp_right eq_false_of_ne_true
    obtain ⟨reason, extra, hplace⟩ : ∃ reason extra, place W src (recorded st s) s target dest =
        some ((recorded st s).refuse s.name reason extra) := place_of_refused href
    rw [collectSkill_of_aims W src he ha, hplace, Option.some.injEq] at h
    subst h
    exact Or.inl ⟨recorded_skills, recorded_existing,
      fun n hn => (mem_updated_recorded ha).mpr (Or.inl hn)⟩

/-- **A turn** places its skill where it aims, or leaves the skills and the index as they are. -/
theorem collectSkill_cases (h : collectSkill W src st s = some st') :
    Still st st' ∨ ∃ target dest skills, Goes W st s target dest ∧
      st.skills.replaceDir dest (copied src s target) = some skills ∧
          Placed st s target dest skills st' := by
  have hlift : ∀ {target dest}, Eligible s → Aims st s target dest → Still st st' ∨
      ∃ target dest skills,
      Goes W st s target dest ∧ st.skills.replaceDir dest (copied src s target) = some skills ∧
        Placed st s target dest skills st' := by
    intro target dest he ha
    apply (cases_of_aims he ha h).imp_right
    rintro ⟨hgoes, skills, hr, hplaced⟩
    exact ⟨target, dest, skills, hgoes, hr, hplaced⟩
  by_cases he : Eligible s
  · cases hk : st.existing.get? s.name with
    | none => exact hlift he (.new hk rfl rfl)
    | some known =>
      by_cases hh : known.hash = s.hash
      · obtain ⟨st₀, heq, hidle⟩ : ∃ st₀, collectSkill W src st s = some st₀ ∧ Idles st s st₀ :=
          collectSkill_of_known he hk hh
        rw [heq, Option.some.injEq] at h
        exact Or.inl (h ▸ hidle.still)
      · by_cases hi : known.identity = s.identity
        · exact hlift he (.update known hk hh hi rfl rfl)
        · exact hlift he (.rename known hk hh hi rfl rfl)
  · obtain ⟨st₀, heq, hidle⟩ : ∃ st₀, collectSkill W src st s = some st₀ ∧ Idles st s st₀ :=
      collectSkill_of_not_eligible he
    rw [heq, Option.some.injEq] at h
    exact Or.inl (h ▸ hidle.still)

/-! ### A new skill -/

/-- Where the trees are, in a file system without symbolic links. -/
def samplePlaces : Places where
  realpath p := p
  root := "/repo/skills".toList
  source := "/source".toList

end OracleSkills.Tools
