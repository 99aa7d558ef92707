import OracleSkills.Tools.Sync

/-!
# What syncing keeps

"Nothing is Deleted": a skill directory of `<dest>` or of its trash should be somewhere after a run,
in `<dest>`, in the trash or in the repository, unless it was the copy of a repository's skill. The
two loops overwrite what is at the name of a skill of the repository, whoever wrote it, and what the
trash has under the name of an entry that is archived.

`sync_losesNothing_iff`: a run loses nothing if every `SKILL.md` that is `Overwritten` is also
somewhere else, and a run that comes to its end loses nothing only then.

What is *not* formalized: symbolic links, as which a skill may stand in `<dest>` or in its trash.
-/

namespace OracleSkills.Tools

open Python Frontmatter Files

/-- A directory of the tree has this `SKILL.md`. -/
def Holds (t : Tree) (x : File) : Prop := ∃ p, (p ++ [skillMd], x) ∈ t

/-- The directory is a copy of a skill of the repository: auto-created, at its name, by the same
author and at the same time. -/
def CopyOf (repo : Tree) (p : Path Text) (x : File) : Prop :=
  autoSkill x.fm ∧ ∃ q y, SkillFile repo q y ∧ p = [y.name] ∧ identity x.fm = identity y.fm

/-- Every skill directory that was in `dest` is somewhere, or was a copy. -/
def LosesNothing (repo dest dest' : Tree) : Prop :=
  ∀ p x, (p ++ [skillMd], x) ∈ dest → CopyOf repo p x ∨ Holds dest' x ∨ Holds repo x

/-- The repository has a skill of this name that is not refused. -/
def Synced (W : SyncPlaces) (repo : Tree) (name : Text) : Prop :=
  refusal W name = none ∧ ∃ q y, SkillFile repo q y ∧ y.name = name

/-- The entry of `dest` is an auto-created skill that the repository does not have. -/
def Outdated (W : SyncPlaces) (repo dest : Tree) (entry : Text) : Prop :=
  visible entry ∧ ∃ x, ([entry, skillMd], x) ∈ dest ∧ autoSkill x.fm ∧
    ¬ Synced W repo (x.fm.getD "name".toList entry) ∧ ¬ Synced W repo entry

/-- The directory is at the name of a skill of the repository or below it, or it is in the trash,
at the name of an entry that is to be archived or below it. -/
def Overwritten (W : SyncPlaces) (repo dest : Tree) (p : Path Text) : Prop :=
  (∃ n r, p = n :: r ∧ Synced W repo n) ∨ ∃ e r, p = trash :: e :: r ∧ Outdated W repo dest e

/-- What is overwritten is a copy, or its `SKILL.md` is in the repository, or in a directory that is
not overwritten. -/
def Elsewhere (W : SyncPlaces) (repo dest : Tree) : Prop :=
  ∀ p x, (p ++ [skillMd], x) ∈ dest → Overwritten W repo dest p →
    CopyOf repo p x ∨ Holds repo x ∨ ∃ q, (q ++ [skillMd], x) ∈ dest ∧ ¬ Overwritten W repo dest q

variable {W : SyncPlaces} {repo dest : Tree} {repoFiles : List (Path Text × File)}
  {pre : List Skill} {done : List Text}
  {st st₁ : Syncing} {entry n : Text} {p q r : Path Text} {x : File}

/-- The names of the first loop are those of skills of the repository. -/
theorem synced_of_mem (hwalk : repo.Walk skillMd visible repoFiles) (hc : Copied W repo dest pre st)
    (hpre : pre ⊆ (syncSkillDirs repoFiles).1) (hn : n ∈ st.repoNames) : Synced W repo n := by
  obtain ⟨hok, s, hs, rfl⟩ := (hc.names n).mp hn
  have hmem := hpre hs
  rw [syncSkillDirs_eq] at hmem
  obtain ⟨y, hy, hof⟩ := exists_of_mem_skillDirs hmem
  exact ⟨hok, s.path, y, ⟨hwalk.1.mem_iff.mp hy, hof.name ▸ hof.named⟩, hof.name.symm⟩

/-- After all the skills have had their turn, the names are all of theirs. -/
theorem mem_iff_synced (hwalk : repo.Walk skillMd visible repoFiles)
    (hend : (syncSkillDirs repoFiles).2 = true)
    (hc : Copied W repo dest (syncSkillDirs repoFiles).1 st) :
    n ∈ st.repoNames ↔ Synced W repo n := by
  refine ⟨synced_of_mem hwalk hc (List.Subset.refl _), ?_⟩
  rintro ⟨hok, q, y, hy, rfl⟩
  rw [syncSkillDirs_eq] at hend hc
  obtain ⟨s, hs, -, hof⟩ := exists_mem_skillDirs hend (hwalk.1.mem_iff.mpr hy.1) hy.2
  exact (hc.names _).mpr ⟨hok, s, hs, hof.name⟩

/-- An entry is archived after the first loop if it was outdated before it. -/
theorem archivable_iff (hnames : ∀ n, n ∈ st₁.repoNames ↔ Synced W repo n)
    (hc : Copied W repo dest pre st₁) :
    Archivable st₁ entry ↔ Outdated W repo dest entry := by
  unfold Archivable Outdated Stale
  simp only [hnames]
  refine and_congr_right fun _ => exists_congr fun x => ?_
  constructor
  · rintro ⟨hx, hauto, hname, hentry⟩
    refine ⟨(hc.kept _ _ fun n hn he => ?_).mp hx, hauto, hname, hentry⟩
    cases he
    exact hentry ((hnames _).mp hn)
  · rintro ⟨hx, hauto, hname, hentry⟩
    refine ⟨(hc.kept _ _ fun n hn he => ?_).mpr hx, hauto, hname, hentry⟩
    cases he
    exact hentry ((hnames _).mp hn)

/-- A path that ends in `SKILL.md`, from its first name on. -/
theorem concat_eq_cons {m a : Text} (h : q ++ [m] = a :: r) :
    (q = [] ∧ a = m ∧ r = []) ∨ ∃ q', q = a :: q' ∧ r = q' ++ [m] := by
  cases q with
  | nil =>
    cases h
    exact Or.inl ⟨rfl, rfl, rfl⟩
  | cons b q' =>
    cases h
    exact Or.inr ⟨q', rfl, rfl⟩

/-- A skill that is not overwritten is left alone by the first loop. -/
theorem mem_of_copied (hc : Copied W repo dest pre st)
    (hnames : ∀ n ∈ st.repoNames, Synced W repo n)
    (hx : (q ++ [skillMd], x) ∈ dest) (hq : ¬ Overwritten W repo dest q) :
    (q ++ [skillMd], x) ∈ st.dest := by
  refine (hc.kept _ _ fun n hn he => ?_).mpr hx
  obtain ⟨r, hr⟩ := List.head?_eq_some_iff.mp he
  rcases concat_eq_cons hr with ⟨rfl, rfl, -⟩ | ⟨q', rfl, -⟩
  · exact hc.free _ hn x hx
  · exact hq (Or.inl ⟨n, q', rfl, hnames n hn⟩)

/-- **A skill that is not overwritten** is there after the run, at its place or in the trash. -/
theorem holds_of_not_overwritten (hwalk : repo.Walk skillMd visible repoFiles)
    (hx : (q ++ [skillMd], x) ∈ dest)
    (hq : ¬ Overwritten W repo dest q) : Holds (syncSkills W repo dest repoFiles).1.dest x := by
  rcases syncSkills_spec W repo dest repoFiles with ⟨pre, rest, hfound, hc, -⟩ | ⟨st₁, done, rest,
    hc, hend, -, ha, -⟩
  · have hpre : pre ⊆ (syncSkillDirs repoFiles).1 := hfound ▸ List.subset_append_left pre rest
    exact ⟨q, mem_of_copied hc (fun n hn => synced_of_mem hwalk hc hpre hn) hx hq⟩
  · have hnames : ∀ n, n ∈ st₁.repoNames ↔ Synced W repo n := fun n => mem_iff_synced hwalk hend hc
    have hx₁ := mem_of_copied hc (fun n hn => (hnames n).mp hn) hx hq
    by_cases hmoved : ∃ e ∈ done, Archivable st₁ e ∧ [e] <+: q ++ [skillMd]
    · obtain ⟨e, he, hae, r, hr⟩ := hmoved
      refine ⟨trash :: q, (ha.files _ _).mpr (Or.inr ⟨e, he, hae, r, ?_, ?_⟩)⟩
      · rw [List.cons_append, ← hr]
        rfl
      · rw [← hr] at hx₁
        exact hx₁
    · refine ⟨q, (ha.files _ _).mpr
        (Or.inl ⟨hx₁, fun e he hae => ⟨fun hp => hmoved ⟨e, he, hae, hp⟩, fun hp => ?_⟩⟩)⟩
      -- in the trash, under the name of an entry that has been archived
      obtain ⟨r, hr⟩ := hp
      rcases concat_eq_cons hr.symm with ⟨-, -, hnil⟩ | ⟨q', rfl, hr'⟩
      · cases hnil
      · rcases concat_eq_cons hr'.symm with ⟨rfl, rfl, -⟩ | ⟨q'', rfl, -⟩
        · exact ha.free _ he hae x hx₁
        · exact hq (Or.inr ⟨e, q'', rfl, (archivable_iff hnames hc).mp hae⟩)

/-- After the first loop a skill is one of the repository's, or was there before and is at no name
of theirs. -/
theorem origin_of_copied (hwalk : repo.Walk skillMd visible repoFiles)
    (hc : Copied W repo dest (syncSkillDirs repoFiles).1 st₁)
    (hx : (q ++ [skillMd], x) ∈ st₁.dest) :
    Holds repo x ∨ (q ++ [skillMd], x) ∈ dest ∧ ∀ n ∈ st₁.repoNames,
        (q ++ [skillMd]).head? ≠ some n := by
  by_cases hname : ∃ n ∈ st₁.repoNames, (q ++ [skillMd]).head? = some n
  · obtain ⟨n, hn, he⟩ := hname
    obtain ⟨r, hr⟩ := List.head?_eq_some_iff.mp he
    rw [hr] at hx
    obtain ⟨s, hs, hmem⟩ := hc.origin n hn r x hx
    rcases concat_eq_cons hr with ⟨-, -, rfl⟩ | ⟨q', -, rfl⟩
    · -- the directory of a skill is no file
      rw [syncSkillDirs_eq] at hs
      obtain ⟨y, hy, -⟩ := exists_of_mem_skillDirs hs
      rw [List.append_nil] at hmem
      cases Tree.eq_nil_of_mem hmem (hwalk.mem_iff.mp hy).1
    · rw [← List.append_assoc] at hmem
      exact Or.inl ⟨_, hmem⟩
  · have hno : ∀ n ∈ st₁.repoNames, (q ++ [skillMd]).head? ≠ some n :=
      fun n hn he => hname ⟨n, hn, he⟩
    exact Or.inr ⟨(hc.kept _ _ hno).mp hx, hno⟩

/-- **A skill that is there after the run** is one of the repository's, or was there before and is
not overwritten. -/
theorem origin_of_mem (hwalk : repo.Walk skillMd visible repoFiles)
    (hend : (syncSkills W repo dest repoFiles).2 = true)
    (hx : Holds (syncSkills W repo dest repoFiles).1.dest x) :
    Holds repo x ∨ ∃ q, (q ++ [skillMd], x) ∈ dest ∧ ¬ Overwritten W repo dest q := by
  rcases syncSkills_spec W repo dest repoFiles with ⟨pre, rest, -, -, hstop⟩ | ⟨st₁, done, rest, hc,
    hfound, hdone, ha, hrest⟩
  · rw [hend] at hstop
    cases hstop
  · rw [hrest hend, List.append_nil] at hdone
    have hnames : ∀ n, n ∈ st₁.repoNames ↔ Synced W repo n :=
      fun n => mem_iff_synced hwalk hfound hc
    obtain ⟨p, hp⟩ := hx
    rcases (ha.files _ _).mp hp with ⟨hx₁, hall⟩ | ⟨e, he, hae, r, hr, hx₁⟩
    · refine (origin_of_copied hwalk hc hx₁).imp_right fun ⟨hx, hno⟩ => ⟨p, hx, ?_⟩
      rintro (⟨n, r, rfl, hn⟩ | ⟨e, r, rfl, hout⟩)
      · exact hno n ((hnames n).mpr hn) rfl
      · -- the entry has been archived, and what the trash had under its name is gone
        have hae := (archivable_iff hnames hc).mpr hout
        have he : e ∈ done := by
          obtain ⟨-, y, hy, -⟩ := hae
          exact hdone ▸ mem_entries.mpr ⟨_, y, hy⟩
        exact (hall e he hae).2 ⟨r ++ [skillMd], rfl⟩
    · rcases concat_eq_cons hr with ⟨-, -, hnil⟩ | ⟨q', -, hr'⟩
      · cases hnil
      · rcases concat_eq_cons hr'.symm with ⟨-, rfl, rfl⟩ | ⟨q'', rfl, rfl⟩
        · -- an entry that is archived is no file
          obtain ⟨-, y, hy, -⟩ := hae
          cases Tree.eq_nil_of_mem hx₁ (show ([skillMd] ++ [skillMd], y) ∈ st₁.dest from hy)
        · refine (origin_of_copied (q := e :: q'') hwalk hc hx₁).imp_right fun ⟨hx, hno⟩ =>
            ⟨e :: q'', hx, ?_⟩
          rintro (⟨n, r, heq, hn⟩ | ⟨e', r, heq, -⟩)
          · cases heq
            exact hno _ ((hnames _).mpr hn) rfl
          · cases heq
            exact ne_trash hae.1 rfl

/-- **Syncing loses nothing** if what it overwrites is elsewhere, and a run that comes to its end
loses nothing only then. -/
theorem sync_losesNothing_iff (hwalk : repo.Walk skillMd visible repoFiles) :
    (Elsewhere W repo dest → LosesNothing repo dest (syncSkills W repo dest repoFiles).1.dest) ∧
      ((syncSkills W repo dest repoFiles).2 = true →
        LosesNothing repo dest (syncSkills W repo dest repoFiles).1.dest →
            Elsewhere W repo dest) := by
  constructor
  · intro h p x hx
    by_cases hp : Overwritten W repo dest p
    · rcases h p x hx hp with hcopy | hrepo | ⟨q, hq, hno⟩
      · exact Or.inl hcopy
      · exact Or.inr (Or.inr hrepo)
      · exact Or.inr (Or.inl (holds_of_not_overwritten hwalk hq hno))
    · exact Or.inr (Or.inl (holds_of_not_overwritten hwalk hx hp))
  · intro hend h p x hx _
    rcases h p x hx with hcopy | hdest | hrepo
    · exact Or.inl hcopy
    · exact Or.inr (origin_of_mem hwalk hend hdest)
    · exact Or.inr (Or.inl hrepo)

/-! ### A skill of somebody's own -/

/-- Where the trees are, in a file system without symbolic links. -/
def syncPlaces : SyncPlaces where
  realpath p := p
  dest := "/home/skills".toList
  repo := "/repo/skills".toList

/-- A skill of somebody's own. -/
def ownFile :
    File := .text (unlines ["---".toList, "name: foo".toList, "---".toList, "My own.".toList])

/-- It is the only one in `<dest>`, in a folder of this name. -/
def ownSkill (folder : Text) : Tree where
  files := [([folder, skillMd], ownFile)]
  nodup := by simp
  free := by simp

/-- In a folder of another name than the repository's skill it is kept. -/
theorem sync_losesNothing_sample :
    LosesNothing (oneSkill fooLines) (ownSkill "mine".toList)
      (syncSkills syncPlaces (oneSkill fooLines) (ownSkill "mine".toList)
          (oneFile fooLines)).1.dest := by
  refine (sync_losesNothing_iff (walk_oneFile fooLines)).1 fun p x hx hover => ?_
  exfalso
  have hpath : p ++ [skillMd] = ["mine".toList] ++ [skillMd] :=
    congrArg Prod.fst (List.mem_singleton.mp hx)
  obtain rfl : p = ["mine".toList] := List.append_cancel_right hpath
  rcases hover with ⟨n, r, hp, -, q, y, hy, hname⟩ | ⟨e, r, hp, -⟩
  · cases hp
    have hmem := (walk_oneFile fooLines).1.mem_iff.mpr hy.1
    cases List.mem_singleton.mp hmem
    revert hname
    decide +kernel
  · exact absurd (congrArg List.length hp) (by simp)

/-- In a folder of its name it is gone. -/
theorem not_losesNothing_own :
    ¬ ∀ (W : SyncPlaces) (repo dest : Tree) (repoFiles : List (Path Text × File)),
    repo.Walk skillMd visible repoFiles → (syncSkills W repo dest repoFiles).2 = true →
      LosesNothing repo dest (syncSkills W repo dest repoFiles).1.dest := by
  intro h
  have hends : (syncSkills syncPlaces (oneSkill fooLines) (ownSkill "foo".toList)
      (oneFile fooLines)).2 = true := by
    decide +kernel
  have hlost := h syncPlaces (oneSkill fooLines) (ownSkill "foo".toList) (oneFile fooLines)
    (walk_oneFile _) hends
    ["foo".toList] ownFile (List.mem_singleton.mpr rfl)
  have hfiles :
      (syncSkills syncPlaces (oneSkill fooLines) (ownSkill "foo".toList)
      (oneFile fooLines)).1.dest.files =
      [(["foo".toList, skillMd], .text (unlines fooLines))] := by
    decide +kernel
  have hne : ownFile ≠ .text (unlines fooLines) := by decide +kernel
  rcases hlost with ⟨hauto, -⟩ | ⟨p, hp⟩ | ⟨p, hp⟩
  · revert hauto
    decide +kernel
  · rw [Tree.mem_def, hfiles, List.mem_singleton] at hp
    exact hne (congrArg Prod.snd hp)
  · exact hne (congrArg Prod.snd (List.mem_singleton.mp hp))

end OracleSkills.Tools
