import OracleSkills.Tools.SyncKeeps

/-!
# Skills of one name

Syncing drops the categories: a skill is copied to `<dest>/<name>`. What cannot be copied is
reported, for "silently dropping the skill would look identical to 'synced fine' in the log". Of two
skills of one name in two categories the second is copied over the first, and both are counted in
`synced`.

`live_iff` says what stands at the name of a skill after a run, the directory of the last skill of
that name, and `none_shadowed_iff` that every skill is live or rejected if and only if no two of one
name differ.
-/

namespace OracleSkills.Tools

open Python Frontmatter Files

/-- The last of the skills of this name. -/
def lastOf (n : Text) (found : List Skill) : Option Skill := (found.filter (·.name = n)).getLast?

/-- At a name that is not refused stands the directory of the last skill of that name. -/
def Live (W : SyncPlaces) (repo : Tree) (found : List Skill) (dest : Tree) : Prop :=
  ∀ n s, refusal W n = none → lastOf n found = some s → ∀ r x, (n :: r, x) ∈ dest ↔
    (s.path ++ r, x) ∈ repo

/-- The lists name the skills that are not refused, and those that are. -/
structure Told (W : SyncPlaces) (found : List Skill) (st : Syncing) : Prop where
  synced : st.synced = (found.filter fun s => refusal W s.name = none).map (·.name)
  rejected : st.rejected = found.filterMap fun s =>
    (refusal W s.name).map fun why => ⟨s.name, pathText W.repo s.path, why⟩

/-- The skill is live: `<dest>/<name>` is an exact copy of its directory. -/
def LiveCopy (repo dest : Tree) (s : Skill) : Prop :=
  ∀ r x, (s.name :: r, x) ∈ dest ↔ (s.path ++ r, x) ∈ repo

/-- The skill is listed in `rejected`. -/
def Syncing.Rejects (W : SyncPlaces) (st : Syncing) (s : Skill) : Prop :=
  ∃ r ∈ st.rejected, r.name = s.name ∧ r.dir = pathText W.repo s.path

/-- Every skill of the repository is rejected or live, and those counted in `synced` are live. -/
structure NoneShadowed (W : SyncPlaces) (repo : Tree) (found : List Skill) (st : Syncing) :
    Prop where
  live : ∀ s ∈ found, st.Rejects W s ∨ LiveCopy repo st.dest s
  counted : ∀ s ∈ found, s.name ∈ st.synced → LiveCopy repo st.dest s

/-- Skills of one name that is not refused have the same files. -/
def Unshadowed (W : SyncPlaces) (repo : Tree) (found : List Skill) : Prop :=
  ∀ s ∈ found, ∀ s' ∈ found, refusal W s.name = none → s'.name = s.name →
    ∀ r x, (s.path ++ r, x) ∈ repo ↔ (s'.path ++ r, x) ∈ repo

variable {W : SyncPlaces} {repo dest : Tree} {repoFiles : List (Path Text × File)}
  {found pre : List Skill}
  {done : List Text} {st st' st₁ : Syncing} {s : Skill} {entry n : Text} {r : Path Text} {x : File}

/-! ### The first loop -/

theorem lastOf_concat : lastOf n (pre ++ [s]) = if s.name = n then some s else lastOf n pre := by
  unfold lastOf
  rw [List.filter_append]
  split_ifs with h
  · rw [List.filter_cons_of_pos (by simpa using h), List.filter_nil, List.getLast?_append,
      List.getLast?_singleton, Option.some_or]
  · rw [List.filter_cons_of_neg (by simpa using h), List.filter_nil, List.append_nil]

theorem lastOf_name (h : lastOf n found = some s) : s ∈ found ∧ s.name = n := by
  have hmem := List.mem_of_getLast? h
  exact ⟨List.mem_of_mem_filter hmem, by simpa using List.of_mem_filter hmem⟩

theorem exists_lastOf (h : s ∈ found) : ∃ l, lastOf s.name found = some l := by
  have hmem : s ∈ found.filter (·.name = s.name) := List.mem_filter.mpr ⟨h, by simp⟩
  exact ⟨_, List.getLast?_eq_some_getLast (List.ne_nil_of_mem hmem)⟩

/-- What holds after the turns for the skills `pre`. -/
structure Copying (W : SyncPlaces) (repo : Tree) (pre : List Skill) (st : Syncing) : Prop where
  live : Live W repo pre st.dest
  told : Told W pre st

theorem copying_start (W : SyncPlaces) (repo dest : Tree) :
    Copying W repo [] ⟨dest, [], [], [], []⟩ :=
  ⟨fun _ _ _ h => (nomatch h), rfl, rfl⟩

theorem Copying.step (h : Copying W repo pre st) (hturn : copySkill W repo st s = some st') :
    Copying W repo (pre ++ [s]) st' := by
  rcases copySkill_cases hturn with ⟨why, href, rfl⟩ | ⟨t, href, hr, rfl⟩
  · refine ⟨fun n l hn hl => ?_, ?_, ?_⟩
    · rw [lastOf_concat] at hl
      split_ifs at hl with hname
      · rw [hname, hn] at href
        cases href
      · exact h.live n l hn hl
    · rw [List.filter_append, List.filter_cons_of_neg (by simp [href]), List.filter_nil,
        List.append_nil]
      exact h.told.synced
    · simp only
      rw [List.filterMap_append, h.told.rejected]
      simp [href]
  · refine ⟨fun n l hn hl r x => ?_, ?_, ?_⟩
    · rw [lastOf_concat] at hl
      split_ifs at hl with hname
      · cases hl
        subst hname
        rw [← Tree.mem_below]
        exact Tree.append_mem_replaceDir hr
      · rw [Tree.mem_replaceDir_of_not_prefix hr]
        · exact h.live n l hn hl r x
        · rw [singleton_prefix_iff, List.head?_cons, Option.some.injEq]
          exact fun he => hname he.symm
    · simp only
      rw [List.filter_append, List.map_append, h.told.synced]
      simp [href]
    · simp only
      rw [List.filterMap_append, h.told.rejected]
      simp [href]

/-! ### The second loop -/

/-- The entries `done` have been read. -/
def ReadAll (st₁ : Syncing) (done : List Text) : Prop :=
  ∀ e ∈ done, visible e → ∀ x, ([e, skillMd], x) ∈ st₁.dest → ∃ text, x.read = some text

/-- What holds after the turns for the entries `done`. -/
structure Archiving (st₁ : Syncing) (done : List Text) (st : Syncing) : Prop where
  archived : Archived st₁ done st
  read : ReadAll st₁ done
  synced : st.synced = st₁.synced
  rejected : st.rejected = st₁.rejected

theorem archiving_start (st₁ : Syncing) : Archiving st₁ [] st₁ :=
  ⟨archived_start st₁, fun _ he => absurd he List.not_mem_nil, rfl, rfl⟩

theorem Archiving.step (h : Archiving st₁ done st) (hdone : entry ∉ done)
    (hturn : archiveEntry st entry = some st') :
    Archiving st₁ (done ++ [entry]) st' := by
  obtain ⟨hread, hcases⟩ := archiveEntry_cases hturn
  have hlists : st'.synced = st.synced ∧ st'.rejected = st.rejected := by
    rcases hcases with ⟨-, rfl⟩ | ⟨-, t, -, rfl⟩ <;> exact ⟨rfl, rfl⟩
  refine ⟨h.archived.step hdone hturn, fun e he hv x hx => ?_, hlists.1.trans h.synced,
    hlists.2.trans h.rejected⟩
  rcases List.mem_append.mp he with he | he
  · exact h.read e he hv x hx
  · obtain rfl := List.mem_singleton.mp he
    exact hread hv x ((h.archived.entry_iff hv hdone).mpr hx)

/-! ### A run -/

/-- A run that has come to its end, with the state `st₁` between its loops. -/
structure Ended (W : SyncPlaces) (repo dest : Tree) (repoFiles : List (Path Text × File))
    (st₁ st : Syncing) : Prop where
  found : (syncSkillDirs repoFiles).2 = true
  copied : Copied W repo dest (syncSkillDirs repoFiles).1 st₁
  copying : Copying W repo (syncSkillDirs repoFiles).1 st₁
  archiving : Archiving st₁ (entries st₁.dest) st

theorem exists_ended (h : (syncSkills W repo dest repoFiles).2 = true) :
    ∃ st₁, Ended W repo dest repoFiles st₁ (syncSkills W repo dest repoFiles).1 := by
  unfold syncSkills at h ⊢
  simp only at h ⊢
  by_cases hend : (forEach (copySkill W repo) (syncSkillDirs repoFiles).1
      ⟨dest, [], [], [], []⟩).2 = true ∧
      (syncSkillDirs repoFiles).2 = true
  · rw [if_neg (not_not.mpr hend)] at h ⊢
    obtain ⟨hcopied, hcopying⟩ := forEach_invariant_of_ends
      (I := fun pre st => Copied W repo dest pre st ∧ Copying W repo pre st)
      (fun _ _ _ _ h _ hturn => ⟨h.1.step hturn, h.2.step hturn⟩) ⟨copied_start W repo dest,
        copying_start W repo dest⟩
      along_true hend.1
    have harchiving := forEach_invariant_of_ends
      (fun _ _ _ _ h hdone hturn => Archiving.step h hdone hturn)
      (archiving_start _) (along_not_mem (nodup_entries _)) h
    exact ⟨_, hend.2, hcopied, hcopying, harchiving⟩
  · rw [if_pos hend] at h
    cases h

/-- The name of a skill that is not refused is not hidden, -/
theorem ne_trash_of_refusal (h : refusal W n = none) : n ≠ trash := by
  have hbad : badSegment n = none := by
    unfold refusal at h
    cases hbad : badSegment n with
    | none => rfl
    | some why =>
      rw [hbad] at h
      cases h
  exact ne_trash (visible_of_badSegment hbad)

/-- and its skill is not archived. -/
theorem Ended.name_iff (h : Ended W repo dest repoFiles st₁ st) (hn : n ∈ st₁.repoNames) :
    (n :: r, x) ∈ st.dest ↔ (n :: r, x) ∈ st₁.dest := by
  have htrash := ne_trash_of_refusal ((h.copied.names n).mp hn).1
  rw [h.archiving.archived.files]
  constructor
  · rintro (⟨hx, -⟩ | ⟨e, -, -, r', hp, -⟩)
    · exact hx
    · exact absurd (List.cons.inj hp).1 htrash
  · refine fun hx => Or.inl ⟨hx, fun e _ ha => ⟨fun hp => ?_, fun hp => ?_⟩⟩
    · obtain ⟨-, y, -, -, -, hno⟩ := ha
      rw [List.cons_prefix_cons] at hp
      exact hno (hp.1 ▸ hn)
    · rw [List.cons_prefix_cons] at hp
      exact htrash hp.1.symm

/-- **What is live at the name of a skill** is the last skill of that name. -/
theorem Ended.live_iff (h : Ended W repo dest repoFiles st₁ st)
    (hs : s ∈ (syncSkillDirs repoFiles).1) (hok : refusal W s.name = none) {l : Skill}
    (hl : lastOf s.name (syncSkillDirs repoFiles).1 = some l) :
    (s.name :: r, x) ∈ st.dest ↔ (l.path ++ r, x) ∈ repo := by
  rw [h.name_iff ((h.copied.names _).mpr ⟨hok, s, hs, rfl⟩)]
  exact h.copying.live _ _ hok hl r x

theorem Ended.rejects_iff (h : Ended W repo dest repoFiles st₁ st)
    (hs : s ∈ (syncSkillDirs repoFiles).1) :
    st.Rejects W s ↔ refusal W s.name ≠ none := by
  unfold Syncing.Rejects
  rw [h.archiving.rejected, h.copying.told.rejected]
  constructor
  · rintro ⟨e, he, hname, -⟩
    obtain ⟨t, -, ht⟩ := List.mem_filterMap.mp he
    obtain ⟨why, hwhy, rfl⟩ := Option.map_eq_some_iff.mp ht
    rw [← hname, hwhy]
    exact Option.some_ne_none _
  · intro hne
    obtain ⟨why, hwhy⟩ := Option.ne_none_iff_exists'.mp hne
    exact ⟨_, List.mem_filterMap.mpr ⟨s, hs, by rw [hwhy]; rfl⟩, rfl, rfl⟩

theorem Ended.mem_synced (h : Ended W repo dest repoFiles st₁ st) :
    n ∈ st.synced ↔ n ∈ st₁.repoNames := by
  rw [h.archiving.synced, h.copying.told.synced, h.copied.names, List.mem_map]
  constructor
  · rintro ⟨s, hs, rfl⟩
    rw [List.mem_filter, decide_eq_true_eq] at hs
    exact ⟨hs.2, s, hs.1, rfl⟩
  · rintro ⟨hok, s, hs, rfl⟩
    exact ⟨s, List.mem_filter.mpr ⟨hs, by simpa using hok⟩, rfl⟩

/-- **No skill is shadowed** by a run that comes to its end, if and only if skills of one name that
is not refused have the same files. -/
theorem none_shadowed_iff (hends : (syncSkills W repo dest repoFiles).2 = true) :
    NoneShadowed W repo (syncSkillDirs repoFiles).1 (syncSkills W repo dest repoFiles).1 ↔
      Unshadowed W repo (syncSkillDirs repoFiles).1 := by
  obtain ⟨st₁, h⟩ := exists_ended hends
  constructor
  · intro hnone s hs s' hs' hok hname r x
    have hlive : ∀ t ∈ (syncSkillDirs repoFiles).1, t.name = s.name →
        LiveCopy repo (syncSkills W repo dest repoFiles).1.dest t :=
      fun t ht htn => (hnone.live t ht).resolve_left fun hrej =>
        (h.rejects_iff ht).mp hrej (htn ▸ hok)
    rw [← hlive s hs rfl r x, ← hlive s' hs' hname r x, hname]
  · intro hsame
    have hlive : ∀ s ∈ (syncSkillDirs repoFiles).1, refusal W s.name = none →
        LiveCopy repo (syncSkills W repo dest repoFiles).1.dest s := by
      intro s hs hok r x
      obtain ⟨l, hl⟩ := exists_lastOf hs
      obtain ⟨hmem, hname⟩ := lastOf_name hl
      rw [h.live_iff hs hok hl, hsame s hs l hmem hok hname]
    refine ⟨fun s hs => ?_,
      fun s hs hcounted => hlive s hs ((h.copied.names _).mp (h.mem_synced.mp hcounted)).1⟩
    by_cases hok : refusal W s.name = none
    · exact Or.inr (hlive s hs hok)
    · exact Or.inl ((h.rejects_iff hs).mpr hok)

/-! ### Two categories -/

/-- A skill `foo` in the category `c`, and another one in `d`. -/
def twoSkills (second : File) : Tree where
  files := [(["c".toList, "foo".toList, skillMd], .text (unlines fooLines)),
    (["d".toList, "foo".toList, skillMd], second)]
  nodup := by simp
  free := by simp

/-- What a walk finds there. -/
def twoFiles (second : File) : List (Path Text × File) :=
  [(["c".toList, "foo".toList], .text (unlines fooLines)), (["d".toList, "foo".toList], second)]

theorem walk_twoFiles (second : File) :
    (twoSkills second).Walk skillMd visible (twoFiles second) := by
  have h : (twoSkills second).holding skillMd visible = twoFiles second := by
    unfold Tree.holding twoSkills twoFiles
    rfl
  refine ⟨by rw [h], ?_⟩
  simp [twoFiles]

/-- Where both have the same file, both are live. -/
theorem none_shadowed_iff_sample :
    NoneShadowed syncPlaces (twoSkills (.text (unlines fooLines)))
      (syncSkillDirs (twoFiles (.text (unlines fooLines)))).1
      (syncSkills syncPlaces (twoSkills (.text (unlines fooLines))) (ownSkill "foo".toList)
          (twoFiles (.text (unlines fooLines)))).1 := by
  have hfound : (syncSkillDirs (twoFiles (.text (unlines fooLines)))).1 =
      [⟨"foo".toList, ["c".toList, "foo".toList], syncFm (unlines fooLines)⟩,
        ⟨"foo".toList, ["d".toList, "foo".toList], syncFm (unlines fooLines)⟩] := rfl
  have hbelow : ∀ s ∈ (syncSkillDirs (twoFiles (.text (unlines fooLines)))).1, ∀ r x,
      (s.path ++ r, x) ∈ twoSkills (.text (unlines fooLines)) ↔ r = [skillMd] ∧
          x = .text (unlines fooLines) := by
    intro s hs r x
    rw [hfound] at hs
    rcases List.mem_pair.mp hs with rfl | rfl <;> simp [Tree.mem_def, twoSkills]
  refine (none_shadowed_iff (by decide +kernel)).mpr fun s hs s' hs' _ _ r x => ?_
  rw [hbelow s hs, hbelow s' hs']

/-- The first one is counted in `synced`, and is nowhere. -/
theorem not_live_category :
    ¬ ∀ (W : SyncPlaces) (repo dest : Tree) (repoFiles : List (Path Text × File)),
    repo.Walk skillMd visible repoFiles → (syncSkills W repo dest repoFiles).2 = true →
      NoneShadowed W repo (syncSkillDirs repoFiles).1 (syncSkills W repo dest repoFiles).1 := by
  intro h
  have hends : (syncSkills syncPlaces (twoSkills ownFile) (ownSkill "foo".toList)
      (twoFiles ownFile)).2 = true := by decide +kernel
  have hnone := h syncPlaces (twoSkills ownFile) (ownSkill "foo".toList) (twoFiles ownFile)
    (walk_twoFiles ownFile) hends
  have hfound : (syncSkillDirs (twoFiles ownFile)).1 =
    [⟨"foo".toList, ["c".toList, "foo".toList], syncFm (unlines fooLines)⟩,
    ⟨"foo".toList, ["d".toList, "foo".toList], ownFile.fm⟩] := rfl
  have hlive := hnone.counted ⟨"foo".toList, ["c".toList, "foo".toList], syncFm (unlines fooLines)⟩
    (by rw [hfound]; exact List.mem_cons_self ..) (by decide +kernel) [skillMd]
      (.text (unlines fooLines))
  have hmem := hlive.mpr (List.mem_cons_self ..)
  rw [Tree.mem_def] at hmem
  revert hmem
  decide +kernel

end OracleSkills.Tools
