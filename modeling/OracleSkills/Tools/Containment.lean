import OracleSkills.Tools.CollectSpares
import OracleSkills.Tools.Sync

/-!
# Where the tools remove

Both tools remove the directory that a skill is copied to, under names that are somebody else's
text. They check each name (`_bad_segment`) and where the path leads (`_inside`), "last line of
defence". What they replace should therefore resolve to something strictly below `skills/` or
`<dest>`, and what cannot be placed there should be refused.

`_inside` also lets the root itself through, `q == r`. `containment_iff`: the turns of both tools,
however many a run takes, stay strictly inside if and only if none of them places its skill at a
path that resolves to the root itself.

What is *not* formalized: that `shutil.rmtree` raises at a destination which is a link itself. The
turn ends before it copies there.
-/

namespace OracleSkills.Tools

open Python Frontmatter Files

/-- The path resolves to a strict descendant of what the root resolves to. -/
def StrictlyInside (realpath : Text → Text) (root path : Text) : Prop :=
  joinPath (realpath root) [] <+: realpath path ∧ realpath path ≠ realpath root

/-- The skill has a name that is no directory's, or it would not be placed strictly inside. -/
def Unplaceable (W : Places) (st : Collection) (s : Skill) : Prop :=
  ¬ Eligible s ∨ ∃ target dest, Aims st s target dest ∧
    (badSegment target ≠ none ∨ ¬ StrictlyInside W.realpath W.root (pathText W.root dest))

/-- A turn of `collect_commit.py` stays strictly inside of `skills/`. -/
structure Contained (W : Places) (src : Tree) (st : Collection) (s : Skill) : Prop where
  /-- Where the skill is placed is strictly inside, -/
  strict : ∀ target dest, Goes W st s target dest →
    StrictlyInside W.realpath W.root (pathText W.root dest)
  /-- nothing changes anywhere else, -/
  touches : ∀ st', collectSkill W src st s = some st' → st'.skills = st.skills ∨
    ∃ target dest, Goes W st s target dest ∧ ∀ p x, ¬ dest <+: p →
      ((p, x) ∈ st'.skills ↔ (p, x) ∈ st.skills)
  /-- and a skill that cannot be placed there is refused, and nothing is removed. -/
  refused : autoSkill s.fm → Unplaceable W st s →
    ∃ st', collectSkill W src st s = some st' ∧ st'.skills = st.skills ∧
      ∃ r ∈ st'.rejected, r.name = s.name

/-- A turn of the first loop of `sync_skills.py` stays strictly inside of `<dest>`. -/
structure CopyContained (V : SyncPlaces) (repo : Tree) (st : Syncing) (s : Skill) : Prop where
  strict : refusal V s.name = none → StrictlyInside V.realpath V.dest (joinPath V.dest s.name)
  touches : ∀ st', copySkill V repo st s = some st' → st'.dest = st.dest ∨
    refusal V s.name = none ∧ ∀ p x, ¬ [s.name] <+: p → ((p, x) ∈ st'.dest ↔ (p, x) ∈ st.dest)
  refused : badSegment s.name ≠ none ∨ ¬ StrictlyInside V.realpath V.dest (joinPath V.dest s.name) →
    ∃ st', copySkill V repo st s = some st' ∧ st'.dest = st.dest ∧
      ∃ r ∈ st'.rejected, r.name = s.name

/-- The skill is not placed at the root itself. -/
def OffRoot (W : Places) (st : Collection) (s : Skill) : Prop :=
  ∀ target dest, Goes W st s target dest → W.realpath (pathText W.root dest) ≠ W.realpath W.root

/-- The skill is not copied to `<dest>` itself. -/
def CopyOffRoot (V : SyncPlaces) (s : Skill) : Prop :=
  refusal V s.name = none → V.realpath (joinPath V.dest s.name) ≠ V.realpath V.dest

variable {W : Places} {V : SyncPlaces} {src repo : Tree} {st : Collection} {sy : Syncing}
  {s : Skill} {target : Text} {dest : Path Text} {realpath : Text → Text} {root path : Text}

/-! ### Strictly inside -/

/-- What `_inside` lets through is strictly inside, or the root itself. -/
theorem strictlyInside_iff (h : inside realpath root path = true) :
    StrictlyInside realpath root path ↔ realpath path ≠ realpath root := by
  refine ⟨And.right, fun hne => ⟨?_, hne⟩⟩
  simp only [inside, Bool.or_eq_true, decide_eq_true_eq, List.isPrefixOf_iff_prefix] at h
  have hpre := h.resolve_left hne
  rw [joinPath, if_neg (by simp)]
  split_ifs
  · rw [List.append_nil]
    exact (List.prefix_append _ _).trans hpre
  · exact hpre

/-! ### A turn -/

/-- **A turn of collecting** stays strictly inside exactly if its skill is not placed at the
root. -/
theorem contained_iff : Contained W src st s ↔ OffRoot W st s := by
  constructor
  · exact fun h target dest hgoes => (h.strict target dest hgoes).2
  · intro h
    refine ⟨fun target dest hgoes =>
      (strictlyInside_iff hgoes.dest_inside).mpr (h target dest hgoes), fun st' hturn => ?_,
      fun hauto hun => ?_⟩
    · rcases collectSkill_cases hturn with hstill | ⟨target, dest, t, hgoes, hr, hplaced⟩
      · exact Or.inl hstill.skills
      · refine Or.inr ⟨target, dest, hgoes, fun p x hp => ?_⟩
        rw [hplaced.skills]
        exact Tree.mem_replaceDir_of_not_prefix hr hp
    · by_cases he : Eligible s
      · obtain ⟨target, dest, ha, hbad⟩ := hun.resolve_left (not_not.mpr he)
        have href : badSegment target ≠ none ∨
            inside W.realpath W.root (pathText W.root dest) = false := by
          by_contra hok
          rw [not_or, not_not, Bool.not_eq_false] at hok
          have hgoes : Goes W st s target dest := ⟨he, ha, hok.1, hok.2⟩
          rcases hbad with hbad | hbad
          · exact hbad hok.1
          · exact hbad ((strictlyInside_iff hok.2).mpr (h target dest hgoes))
        obtain ⟨reason, extra, heq⟩ : ∃ reason extra, place W src (recorded st s) s target dest =
            some ((recorded st s).refuse s.name reason extra) := place_of_refused href
        rw [collectSkill_of_aims W src he ha, heq]
        exact ⟨_, rfl, recorded_skills, _,
          List.mem_append_right _ (List.mem_singleton.mpr rfl), rfl⟩
      · obtain ⟨reason, extra, heq⟩ : ∃ reason extra, collectSkill W src st s =
            some (st.refuse s.name reason extra) :=
          collectSkill_of_bad hauto he
        exact ⟨_, heq, rfl, _, List.mem_append_right _ (List.mem_singleton.mpr rfl), rfl⟩

/-- A name is refused exactly if it is no directory's, or leads outside. -/
theorem refusal_eq_none_iff : refusal V path = none ↔
    badSegment path = none ∧ inside V.realpath V.dest (joinPath V.dest path) = true := by
  unfold refusal
  cases badSegment path with
  | some why => exact iff_of_false (fun h => nomatch h) fun h => nomatch h.1
  | none =>
    simp only [true_and]
    split_ifs with hin
    · exact iff_of_true rfl hin
    · exact iff_of_false (fun h => nomatch h) hin

/-- **A turn of syncing** stays strictly inside exactly if its skill is not copied to the root. -/
theorem copyContained_iff : CopyContained V repo sy s ↔ CopyOffRoot V s := by
  constructor
  · exact fun h hok => (h.strict hok).2
  · intro h
    have hstrict : refusal V s.name = none →
        StrictlyInside V.realpath V.dest (joinPath V.dest s.name) := fun hok =>
      (strictlyInside_iff (refusal_eq_none_iff.mp hok).2).mpr (h hok)
    refine ⟨hstrict, fun st' hturn => ?_, fun hbad => ?_⟩
    · rcases copySkill_cases hturn with ⟨why, -, rfl⟩ | ⟨t, hok, hr, rfl⟩
      · exact Or.inl rfl
      · exact Or.inr ⟨hok, fun p x hp => Tree.mem_replaceDir_of_not_prefix hr hp⟩
    · cases hok : refusal V s.name with
      | none => exact absurd (hstrict hok) (hbad.resolve_left
        (not_not.mpr (refusal_eq_none_iff.mp hok).1))
      | some why =>
        unfold copySkill
        rw [hok]
        exact ⟨_, rfl, rfl, _, List.mem_append_right _ (List.mem_singleton.mpr rfl), rfl⟩

/-! ### The runs -/

/-- **The tools stay strictly inside**: the first `n` turns of collecting and the first `m` of
syncing do, if and only if none of them places its skill at the root itself. -/
theorem containment_iff (W : Places) (skills src : Tree)
    (repoFiles srcFiles : List (Path Text × File)) (V : SyncPlaces)
    (repo dest : Tree) (syncFiles : List (Path Text × File)) (n m : ℕ) :
    Along (collectSkill W src) (fun _ => Contained W src) [] ((collectSkillDirs srcFiles).1.take n)
        (start skills repoFiles) ∧
        Along (copySkill V repo) (fun _ => CopyContained V repo) []
          ((syncSkillDirs syncFiles).1.take m) ⟨dest, [], [], [], []⟩ ↔
      Along (collectSkill W src) (fun _ => OffRoot W) [] ((collectSkillDirs srcFiles).1.take n)
        (start skills repoFiles) ∧
        Along (copySkill V repo) (fun _ _ => CopyOffRoot V) [] ((syncSkillDirs syncFiles).1.take m)
            ⟨dest, [], [], [], []⟩ :=
  and_congr
    ⟨fun h => h.imp_mem fun _ _ _ _ => contained_iff.mp,
      fun h => h.imp_mem fun _ _ _ _ => contained_iff.mpr⟩
    ⟨fun h => h.imp_mem fun _ _ _ _ => copyContained_iff.mp,
      fun h => h.imp_mem fun _ _ _ _ => copyContained_iff.mpr⟩

/-! ### A skill at the root -/

/-- A skill `foo` with this hash. -/
def hashLines (hash : Text) : List Text :=
  ["---".toList, "name: foo".toList, "category: c".toList, "installer: auto-skill".toList,
    "content_hash: ".toList ++ hash, "---".toList]

/-- Its `SKILL.md` stands in `skills/` itself, beside the skill `bar`. -/
def rootSkill : Tree where
  files := [([skillMd], .text (unlines (hashLines ['1']))),
    (["c".toList, "bar".toList, skillMd], .text (unlines barLines))]
  nodup := by decide
  free := by decide

/-- What a walk finds there. -/
def rootFiles : List (Path Text × File) :=
  [([], .text (unlines (hashLines ['1']))), (["c".toList, "bar".toList], .text (unlines barLines))]

theorem walk_rootFiles : rootSkill.Walk skillMd visible rootFiles := by
  have h : rootSkill.holding skillMd visible = rootFiles := by decide +kernel
  refine ⟨?_, by decide⟩
  rw [h]

/-- `foo` has been edited, and is updated where it is: `skills/` is removed, with `bar` in it. -/
theorem not_contained_root :
    ¬ ∀ (W : Places) (skills src : Tree) (repoFiles srcFiles : List (Path Text × File)),
    skills.Walk skillMd visible repoFiles → src.Walk skillMd visible srcFiles →
      Along (collectSkill W src) (fun _ => Contained W src) [] (collectSkillDirs srcFiles).1
          (start skills repoFiles) := by
  intro h
  have hfound : (collectSkillDirs (oneFile (hashLines ['2']))).1 =
      [⟨"foo".toList, ["c".toList, "foo".toList], collectFm (unlines (hashLines ['2']))⟩] := rfl
  have hturns := h samplePlaces rootSkill (oneSkill (hashLines ['2'])) rootFiles
    (oneFile (hashLines ['2'])) walk_rootFiles
    (walk_oneFile _)
  rw [hfound] at hturns
  have hgoes : Goes samplePlaces (start rootSkill rootFiles)
      ⟨"foo".toList, ["c".toList, "foo".toList], collectFm (unlines (hashLines ['2']))⟩
          "foo".toList [] :=
    ⟨by decide +kernel, .update ⟨['1'], [],
      ([], [])⟩ (by decide +kernel) (by decide +kernel) (by decide +kernel) rfl rfl,
      by decide +kernel, by decide +kernel⟩
  exact (hturns.1.strict _ _ hgoes).2 rfl

end OracleSkills.Tools
