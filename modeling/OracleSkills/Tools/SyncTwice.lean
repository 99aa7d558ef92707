import OracleSkills.Tools.SyncShadow

/-!
# Syncing twice

A run makes `<dest>` what the repository says: `sync_converges`. A second run over the same
repository, in the same order, finds nothing to archive and leaves every file as it is, those of the
trash included; no auto-created skill is left that the repository does not have; and what is neither
at the name of a synced skill nor auto-created is untouched, except the trash itself, which what is
archived comes into.

What is *not* formalized: symbolic links in the trees.
-/

namespace OracleSkills.Tools

open Python Frontmatter Files

/-- The entry of `<dest>` is the same directory. -/
def SameEntry (dest dest' : Tree) (entry : Text) : Prop :=
  ∀ r x, (entry :: r, x) ∈ dest' ↔ (entry :: r, x) ∈ dest

/-- The entry has no `SKILL.md` that says that it is auto-created. -/
def Unstamped (dest : Tree) (entry : Text) : Prop :=
  ∀ x, ([entry, skillMd], x) ∈ dest → ¬ autoSkill x.fm

/-- What a run leaves is what every further run leaves. -/
structure Converged (W : SyncPlaces) (repo dest : Tree) (repoFiles : List (Path Text × File))
    (out again : Syncing × Bool) :
    Prop where
  /-- A second run comes to its end, -/
  ends : again.2 = true
  /-- leaves `<dest>` and its trash as they are, -/
  same : ∀ p x, (p, x) ∈ again.1.dest ↔ (p, x) ∈ out.1.dest
  /-- and archives nothing. -/
  archived : again.1.archived = []
  /-- An auto-created skill of `<dest>` is at a synced name, or has one. -/
  current : ∀ e x, visible e → ([e, skillMd], x) ∈ out.1.dest → autoSkill x.fm →
    e ∈ out.1.synced ∨ x.fm.getD "name".toList e ∈ out.1.synced
  /-- What is not at a synced name, not auto-created, and not the trash is untouched. -/
  untouched : ∀ e, e ≠ trash → e ∉ out.1.synced → Unstamped dest e → SameEntry dest out.1.dest e

variable {W : SyncPlaces} {repo dest : Tree} {repoFiles : List (Path Text × File)}
  {pre : List Skill}
  {st st' st₁ st₂ : Syncing} {s : Skill} {entry n : Text} {p r : Path Text} {x : File}

/-! ### After one run -/

/-- An entry that is left is not to be archived, and can be read. -/
theorem Ended.left (h : Ended W repo dest repoFiles st₁ st) (hv : visible entry = true)
    (hx : ([entry, skillMd], x) ∈ st.dest) :
    ¬ Stale st₁.repoNames entry x ∧ ∃ text, x.read = some text := by
  rcases (h.archiving.archived.files _ _).mp hx with ⟨hx₁, hall⟩ | ⟨e, -, -, r, hp, -⟩
  · have he : entry ∈ entries st₁.dest := mem_entries.mpr ⟨_, x, hx₁⟩
    refine ⟨fun hstale => ?_, h.archiving.read entry he hv x hx₁⟩
    exact (hall entry he ⟨hv, x, hx₁, hstale⟩).1 (List.prefix_append [entry] [skillMd])
  · exact absurd (List.cons.inj hp).1 (ne_trash hv)

/-- An entry that is not at a synced name, not auto-created and not the trash is untouched. -/
theorem Ended.untouched (h : Ended W repo dest repoFiles st₁ st) (htrash : entry ≠ trash)
    (hn : entry ∉ st₁.repoNames) (hun : Unstamped dest entry) : SameEntry dest st.dest entry := by
  intro r x
  have hkept : ∀ {r x}, (entry :: r, x) ∈ st₁.dest ↔ (entry :: r, x) ∈ dest := fun {r x} =>
    h.copied.kept _ _ fun n hmem he => hn (by cases he; exact hmem)
  rw [h.archiving.archived.files, ← hkept]
  constructor
  · rintro (⟨hx, -⟩ | ⟨e, -, -, r', hp, -⟩)
    · exact hx
    · exact absurd (List.cons.inj hp).1 htrash
  · refine fun hx => Or.inl ⟨hx, fun e _ ha => ⟨fun hp => ?_, fun hp => ?_⟩⟩
    · rw [List.cons_prefix_cons] at hp
      obtain ⟨-, y, hy, hauto, -⟩ := ha
      rw [hp.1] at hy
      exact hun y (hkept.mp hy) hauto
    · rw [List.cons_prefix_cons] at hp
      exact htrash hp.1.symm

/-- A skill that is not refused has its `SKILL.md` at its name, and no file is in its way. -/
theorem Ended.not_file (hwalk : repo.Walk skillMd visible repoFiles)
    (h : Ended W repo dest repoFiles st₁ st)
    (hs : s ∈ (syncSkillDirs repoFiles).1) (hok : refusal W s.name = none) :
    (∀ y, ([], y) ∉ st.dest) ∧ ∀ y, ([s.name], y) ∉ st.dest := by
  obtain ⟨l, hl⟩ := exists_lastOf hs
  obtain ⟨hmem, hname⟩ := lastOf_name hl
  rw [syncSkillDirs_eq] at hmem
  obtain ⟨z, hz, -⟩ := exists_of_mem_skillDirs hmem
  have hmd : ([s.name, skillMd], z) ∈ st.dest := (h.live_iff hs hok hl).mpr (hwalk.mem_iff.mp hz).1
  constructor
  · intro y hy
    cases Tree.eq_nil_of_mem (e := [s.name, skillMd]) hy hmd
  · intro y hy
    cases Tree.eq_nil_of_mem (e := [skillMd]) hy hmd

/-! ### The second run -/

/-- What holds in the first loop of a second run. -/
structure Recopying (W : SyncPlaces) (repo dest : Tree) (pre : List Skill) (st : Syncing) :
    Prop where
  copied : Copied W repo dest pre st
  copying : Copying W repo pre st
  archived : st.archived = []

theorem Recopying.step (h : Recopying W repo dest pre st)
    (hturn : copySkill W repo st s = some st') :
    Recopying W repo dest (pre ++ [s]) st' := by
  refine ⟨h.copied.step hturn, h.copying.step hturn, ?_⟩
  rcases copySkill_cases hturn with ⟨why, -, rfl⟩ | ⟨t, -, -, rfl⟩ <;> exact h.archived

/-- A turn does not raise if no file was in the way before the loop, and none is a skill's
directory. -/
theorem exists_copySkill (hc : Copied W repo dest pre st)
    (hpre : ∀ t ∈ pre, ∀ y, (t.path, y) ∉ repo)
    (hfree : refusal W s.name = none → (∀ y, ([], y) ∉ dest) ∧ ∀ y, ([s.name], y) ∉ dest) :
    ∃ st', copySkill W repo st s = some st' := by
  unfold copySkill
  cases hok : refusal W s.name with
  | some why => exact ⟨_, rfl⟩
  | none =>
    obtain ⟨htop, hname⟩ := hfree hok
    have hclear : st.dest.Clear [s.name] := by
      rintro ⟨p, y⟩ hy hp
      rcases List.prefix_cons_iff.mp hp with rfl | ⟨q, rfl, hq⟩
      · exact htop y ((hc.kept [] y fun _ _ he => nomatch he).mp hy)
      · obtain rfl := List.prefix_nil.mp hq
        by_cases hn : s.name ∈ st.repoNames
        · obtain ⟨t, ht, hmem⟩ := hc.origin _ hn [] y hy
          rw [List.append_nil] at hmem
          exact hpre t ht y hmem
        · exact hname y ((hc.kept [s.name] y fun n hmem he => hn (by cases he; exact hmem)).mp hy)
    obtain ⟨t, ht⟩ := Tree.replaceDir_isSome_iff.mpr hclear
    simp only
    rw [ht]
    exact ⟨_, rfl⟩

/-- An entry that is not stale, and can be read, is left where it is. -/
theorem archiveEntry_of_not_stale (h : visible entry = true → ∀ x, ([entry, skillMd], x) ∈ st.dest →
    ¬ Stale st.repoNames entry x ∧ ∃ text, x.read = some text) :
    archiveEntry st entry = some st := by
  unfold archiveEntry
  by_cases hv : visible entry = true
  · rw [if_neg (not_not.mpr hv)]
    cases hg : st.dest.get? [entry, skillMd] with
    | none => rfl
    | some x =>
      obtain ⟨hstale, text, hread⟩ := h hv x (Tree.get?_eq_some_iff.mp hg)
      simp only [hread, if_neg hstale]
  · rw [if_pos hv]

/-- The first loop of a second run comes to its end, -/
theorem Ended.recopies (hwalk : repo.Walk skillMd visible repoFiles)
    (h : Ended W repo dest repoFiles st₁ st) :
    (forEach (copySkill W repo) (syncSkillDirs repoFiles).1 ⟨st.dest, [], [], [], []⟩).2 = true ∧
      Recopying W repo st.dest (syncSkillDirs repoFiles).1
        (forEach (copySkill W repo) (syncSkillDirs repoFiles).1 ⟨st.dest, [], [], [], []⟩).1 := by
  have hdir : ∀ t ∈ (syncSkillDirs repoFiles).1, ∀ y, (t.path, y) ∉ repo := by
    intro t ht y hy
    rw [syncSkillDirs_eq] at ht
    obtain ⟨x, hx, -⟩ := exists_of_mem_skillDirs ht
    cases Tree.eq_nil_of_mem hy (hwalk.mem_iff.mp hx).1
  have hturns : Along (copySkill W repo) (fun _ _ s => s ∈ (syncSkillDirs repoFiles).1) []
      (syncSkillDirs repoFiles).1
      ⟨st.dest, [], [], [], []⟩ := along_true.imp_mem fun _ _ _ hs _ => hs
  obtain ⟨hends, hrecopying, -⟩ := forEach_ends
    (I := fun pre st' => Recopying W repo st.dest pre st' ∧ ∀ t ∈ pre, ∀ y, (t.path, y) ∉ repo)
    (fun pre st' s ⟨hre, hpre⟩ hs => by
      obtain ⟨st'', hturn⟩ := exists_copySkill hre.copied hpre (h.not_file hwalk hs)
      refine ⟨st'', hturn, hre.step hturn, fun t ht => ?_⟩
      rcases List.mem_append.mp ht with ht | ht
      · exact hpre t ht
      · exact hdir t (List.mem_singleton.mp ht ▸ hs))
    ⟨⟨copied_start W repo st.dest, copying_start W repo st.dest, rfl⟩,
      fun t ht => absurd ht List.not_mem_nil⟩ hturns
  exact ⟨hends, hrecopying⟩

/-- and has changed no file. -/
theorem Recopying.same (h : Ended W repo dest repoFiles st₁ st)
    (hre : Recopying W repo st.dest (syncSkillDirs repoFiles).1 st₂) :
    (p, x) ∈ st₂.dest ↔ (p, x) ∈ st.dest := by
  by_cases hn : ∃ n ∈ st₂.repoNames, p.head? = some n
  · obtain ⟨n, hn, he⟩ := hn
    obtain ⟨r, rfl⟩ := List.head?_eq_some_iff.mp he
    obtain ⟨hok, s, hs, rfl⟩ := (hre.copied.names n).mp hn
    obtain ⟨l, hl⟩ := exists_lastOf hs
    rw [hre.copying.live _ _ hok hl, h.live_iff hs hok hl]
  · exact hre.copied.kept p x fun n hmem he => hn ⟨n, hmem, he⟩

/-- **Syncing converges in one run**: a second run over the same repository changes nothing. -/
theorem sync_converges (hwalk : repo.Walk skillMd visible repoFiles)
    (hends : (syncSkills W repo dest repoFiles).2 = true) :
    Converged W repo dest repoFiles (syncSkills W repo dest repoFiles)
      (syncSkills W repo (syncSkills W repo dest repoFiles).1.dest repoFiles) := by
  obtain ⟨st₁, h⟩ := exists_ended hends
  generalize syncSkills W repo dest repoFiles = out at h ⊢
  obtain ⟨hcopies, hre⟩ := h.recopies hwalk
  have hagain : syncSkills W repo out.1.dest repoFiles = forEach archiveEntry
      (entries (forEach (copySkill W repo) (syncSkillDirs repoFiles).1
        ⟨out.1.dest, [], [], [], []⟩).1.dest)
      (forEach (copySkill W repo) (syncSkillDirs repoFiles).1 ⟨out.1.dest, [], [], [], []⟩).1 :=
    if_neg (not_not.mpr ⟨hcopies, h.found⟩)
  generalize (forEach (copySkill W repo) (syncSkillDirs repoFiles).1
    ⟨out.1.dest, [], [], [], []⟩).1 = st₂ at hre hagain
  have hnames : ∀ n, n ∈ st₂.repoNames ↔ n ∈ st₁.repoNames :=
    fun n => (hre.copied.names n).trans (h.copied.names n).symm
  have hleave : ∀ e, archiveEntry st₂ e = some st₂ := fun e =>
      archiveEntry_of_not_stale fun hv x hx => by
    obtain ⟨hstale, hread⟩ := h.left hv ((hre.same h).mp hx)
    refine ⟨fun hs => hstale ?_, hread⟩
    simpa only [Stale, hnames] using hs
  rw [forEach_fixed hleave] at hagain
  rw [hagain]
  refine ⟨rfl, fun p x => hre.same h, hre.archived, fun e x hv hx hauto => ?_,
    fun e he hn hun => h.untouched he (mt h.mem_synced.mpr hn) hun⟩
  have hstale := (h.left hv hx).1
  rw [h.mem_synced, h.mem_synced]
  by_contra hno
  rw [not_or] at hno
  exact hstale ⟨hauto, hno.2, hno.1⟩

/-- An auto-created skill `bar`, and a note in the trash. -/
def barSkill : Tree where
  files := [([trash, "note".toList], .text "keep".toList),
    (["bar".toList, skillMd], .text
      (unlines ["---".toList, "name: bar".toList, "installer: auto-skill".toList, "---".toList]))]
  nodup := by decide
  free := by decide

/-- The names of a tree, where they are in their order. -/
theorem entries_eq {t : Tree} {names : List Text} (h : t.names = names)
    (hsorted : names.Pairwise fun n m => leText n m = true) :
    entries t = names := by
  rw [entries, h]
  exact List.mergeSort_of_pairwise hsorted

/-- A repository with `foo` only: `bar` is archived. -/
theorem sync_converges_sample :
    Converged syncPlaces (oneSkill fooLines) barSkill (oneFile fooLines)
      (syncSkills syncPlaces (oneSkill fooLines) barSkill (oneFile fooLines))
      (syncSkills syncPlaces (oneSkill fooLines)
        (syncSkills syncPlaces (oneSkill fooLines) barSkill (oneFile fooLines)).1.dest
        (oneFile fooLines)) ∧
    (syncSkills syncPlaces (oneSkill fooLines) barSkill (oneFile fooLines)).1.archived =
        ["bar".toList] := by
  have hrun : syncSkills syncPlaces (oneSkill fooLines) barSkill (oneFile fooLines) =
      forEach archiveEntry [trash, "bar".toList, "foo".toList]
        (forEach (copySkill syncPlaces (oneSkill fooLines)) (syncSkillDirs (oneFile fooLines)).1
            ⟨barSkill, [], [], [], []⟩).1 := by
    have hentries :
        entries (forEach (copySkill syncPlaces (oneSkill fooLines))
        (syncSkillDirs (oneFile fooLines)).1
        ⟨barSkill, [], [], [], []⟩).1.dest = [trash, "bar".toList, "foo".toList] :=
      entries_eq (by decide +kernel) (by decide +kernel)
    rw [← hentries, syncSkills, if_neg]
    decide +kernel
  refine ⟨sync_converges (walk_oneFile fooLines) ?_, ?_⟩
  · rw [hrun]
    decide +kernel
  · rw [hrun]
    decide +kernel

/-! ### The trash -/

/-- What is archived comes into the trash: it is at no synced name, is not auto-created, and is not
untouched. -/
theorem not_untouched_trash :
    ¬ ∀ (W : SyncPlaces) (repo dest : Tree) (repoFiles : List (Path Text × File)),
    repo.Walk skillMd visible repoFiles → (syncSkills W repo dest repoFiles).2 = true →
      ∀ e, e ∉ (syncSkills W repo dest repoFiles).1.synced → Unstamped dest e →
        SameEntry dest (syncSkills W repo dest repoFiles).1.dest e := by
  intro h
  have hrun : syncSkills syncPlaces noSkills barSkill [] =
      forEach archiveEntry [trash, "bar".toList] ⟨barSkill, [], [], [], []⟩ := by
    have hentries : entries barSkill = [trash, "bar".toList] :=
      entries_eq (by decide +kernel) (by decide +kernel)
    rw [← hentries]
    rfl
  have hun : Unstamped barSkill trash := by
    intro x hx
    have hnone : barSkill.get? [trash, skillMd] = none := by decide +kernel
    rw [Tree.get?_eq_some_iff.mpr hx] at hnone
    cases hnone
  have hsame := h syncPlaces noSkills barSkill [] ⟨List.Perm.refl _, List.Pairwise.nil⟩
    (by rw [hrun]; decide +kernel) trash
    (by rw [hrun]; decide +kernel) hun ["bar".toList, skillMd]
    (.text (unlines ["---".toList, "name: bar".toList, "installer: auto-skill".toList,
      "---".toList]))
  rw [hrun, Tree.mem_def, Tree.mem_def] at hsame
  have hnone := hsame.mp (by decide +kernel)
  revert hnone
  decide +kernel

end OracleSkills.Tools
