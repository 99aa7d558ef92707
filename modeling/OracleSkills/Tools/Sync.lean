import OracleSkills.Python.Loop
import OracleSkills.Tools.SkillDirs

/-!
# Syncing

`sync_skills.py` makes the catalog live for one oracle: it copies every skill of the repository
to `<dest>/<name>`, flattened, and then goes through `<dest>` and moves each auto-created skill
that the repository no longer has to `<dest>/.auto-skill-trash/`, "Nothing is Deleted". Both loops
remove what is in their way: the first whatever is at `<dest>/<name>`, the second whatever the
trash already has under the entry's name.

`copyLoop_spec` says what is in `<dest>` after the first loop, and `archiveLoop_spec` what is there
after the second one, file by file.

What is *not* formalized: symbolic links in the trees, and the modes and times of files.
-/

namespace OracleSkills.Tools

open Python Frontmatter Files

/-- An entry of `rejected`. -/
structure Refused where
  name : Text
  dir : Text
  reason : Text

/-- `<dest>`, `repo_names`, and the lists to report. -/
structure Syncing where
  dest : Tree
  repoNames : List Text
  synced : List Text
  archived : List Text
  rejected : List Refused

/-- Where the two trees are, and what `realpath` says of paths. -/
structure SyncPlaces where
  realpath : Text → Text
  /-- `--dest`. -/
  dest : Text
  /-- `repo_skills`. -/
  repo : Text

/-- `.auto-skill-trash`. -/
def trash : Text := ".auto-skill-trash".toList

/-- Why the name of a skill is refused. -/
def refusal (W : SyncPlaces) (name : Text) : Option Text :=
  match badSegment name with
  | some why => some why
  | none =>
    if ¬ inside W.realpath W.dest (joinPath W.dest name) then
      some "destination resolves outside --dest".toList else none

/-- The turn of the first loop for one skill; `none` where it raises. -/
def copySkill (W : SyncPlaces) (repo : Tree) (st : Syncing) (s : Skill) : Option Syncing :=
  match refusal W s.name with
  | some why => some { st with rejected := st.rejected ++ [⟨s.name, pathText W.repo s.path, why⟩] }
  | none =>
    match st.dest.replaceDir [s.name] (repo.below s.path) with
    | none => none
    | some dest => some { st with dest := dest, repoNames := st.repoNames.insert s.name, synced := st.synced ++ [s.name] }

/-- Is the skill an auto-created one that the repository no longer has? -/
def Stale (repoNames : List Text) (entry : Text) (x : File) : Prop :=
  autoSkill x.fm ∧ x.fm.getD "name".toList entry ∉ repoNames ∧ entry ∉ repoNames

instance (repoNames : List Text) (entry : Text) (x : File) : Decidable (Stale repoNames entry x) :=
  inferInstanceAs (Decidable (_ ∧ _ ∧ _))

/-- The turn of the second loop for one entry of `<dest>`. -/
def archiveEntry (st : Syncing) (entry : Text) : Option Syncing :=
  if ¬ visible entry then some st
  else
    match st.dest.get? [entry, skillMd] with
    | none => some st
    | some x =>
      match x.read with
      | none => none
      | some _ =>
        if Stale st.repoNames entry x then
          match st.dest.replaceDir [trash, entry] (st.dest.below [entry]) with
          | none => none
          | some dest =>
            some { st with dest := dest.without [entry], archived := st.archived ++ [entry] }
        else some st

/-- `sorted(os.listdir(dest))`. -/
def entries (dest : Tree) : List Text := dest.names.mergeSort leText

/-- `sync_skills.py::main`, on the `SKILL.md` files of the repository in the order in which they are
found: what it has done, and whether it comes to its end. -/
def syncSkills (W : SyncPlaces) (repo dest : Tree) (repoFiles : List (Path Text × File)) :
    Syncing × Bool :=
  let found := syncSkillDirs repoFiles
  let copied := forEach (copySkill W repo) found.1 ⟨dest, [], [], [], []⟩
  if ¬ (copied.2 ∧ found.2) then (copied.1, false) else
    forEach archiveEntry (entries copied.1.dest) copied.1

variable {W : SyncPlaces} {repo dest : Tree} {pre : List Skill} {done : List Text}
  {st st' st₁ : Syncing} {s : Skill} {entry : Text} {p r : Path Text} {x : File}

/-- A directory at the top has the files below it whose paths begin with its name. -/
theorem singleton_prefix_iff : [entry] <+: p ↔ p.head? = some entry := by
  cases p with
  | nil => simp
  | cons n p => simp [List.cons_prefix_cons, eq_comm]

/-! ### The first loop -/

/-- What the first loop has done after the turns for the skills `pre`. -/
structure Copied (W : SyncPlaces) (repo dest : Tree) (pre : List Skill) (st : Syncing) : Prop where
  /-- The names are those of the skills that are not refused. -/
  names : ∀ n, n ∈ st.repoNames ↔ refusal W n = none ∧ ∃ s ∈ pre, s.name = n
  /-- No file had one of them, -/
  free : ∀ n ∈ st.repoNames, ∀ y, ([n], y) ∉ dest
  /-- what is not at one of them is as it was, -/
  kept : ∀ p x, (∀ n ∈ st.repoNames, p.head? ≠ some n) → ((p, x) ∈ st.dest ↔ (p, x) ∈ dest)
  /-- and what is there comes from the directory of a skill. -/
  origin : ∀ n ∈ st.repoNames, ∀ r x, (n :: r, x) ∈ st.dest → ∃ s ∈ pre, (s.path ++ r, x) ∈ repo

theorem copied_start (W : SyncPlaces) (repo dest : Tree) :
    Copied W repo dest [] ⟨dest, [], [], [], []⟩ where
  names n := by simp
  free n hn := absurd hn List.not_mem_nil
  kept _ _ _ := Iff.rfl
  origin n hn := absurd hn List.not_mem_nil

/-- **A turn of the first loop** refuses its skill, or copies it. -/
theorem copySkill_cases (hturn : copySkill W repo st s = some st') :
    (∃ why, refusal W s.name = some why ∧
        st' = { st with rejected := st.rejected ++ [⟨s.name, pathText W.repo s.path, why⟩] }) ∨
      ∃ t, refusal W s.name = none ∧ st.dest.replaceDir [s.name] (repo.below s.path) = some t ∧
        st' = { st with dest := t, repoNames := st.repoNames.insert s.name, synced := st.synced ++ [s.name] } := by
  unfold copySkill at hturn
  cases href : refusal W s.name with
  | some why =>
    rw [href] at hturn
    cases hturn
    exact Or.inl ⟨why, rfl, rfl⟩
  | none =>
    rw [href] at hturn
    simp only at hturn
    cases hr : st.dest.replaceDir [s.name] (repo.below s.path) with
    | none =>
      rw [hr] at hturn
      cases hturn
    | some t =>
      rw [hr] at hturn
      cases hturn
      exact Or.inr ⟨t, rfl, rfl, rfl⟩

theorem exists_mem_concat {n : Text} :
    (∃ t ∈ pre ++ [s], t.name = n) ↔ (∃ t ∈ pre, t.name = n) ∨ s.name = n := by
  simp [or_and_right, exists_or]

/-- A skill that is refused leaves everything as it is. -/
theorem Copied.refuse (h : Copied W repo dest pre st) {why : Text}
    (href : refusal W s.name = some why) (rejected : List Refused) :
    Copied W repo dest (pre ++ [s]) { st with rejected := rejected } where
  names n := by
    rw [exists_mem_concat, h.names]
    constructor
    · exact fun ⟨hok, hn⟩ => ⟨hok, Or.inl hn⟩
    · rintro ⟨hok, hn | rfl⟩
      · exact ⟨hok, hn⟩
      · rw [href] at hok
        cases hok
  free := h.free
  kept := h.kept
  origin n hn r x hx := by
    obtain ⟨t, ht, hmem⟩ := h.origin n hn r x hx
    exact ⟨t, List.mem_append_left _ ht, hmem⟩

/-- A skill that is copied replaces what is at its name. -/
theorem Copied.copy {t : Tree} (h : Copied W repo dest pre st) (href : refusal W s.name = none)
    (hr : st.dest.replaceDir [s.name] (repo.below s.path) = some t) (synced : List Text) :
    Copied W repo dest (pre ++ [s])
        { st with dest := t, repoNames := st.repoNames.insert s.name, synced := synced } := by
  have hnames : ∀ n, n ∈ st.repoNames.insert s.name ↔ n = s.name ∨ n ∈ st.repoNames :=
    fun n => List.mem_insert_iff
  refine ⟨fun n => ?_, fun n hn y hy => ?_, fun p x hp => ?_, fun n hn r x hx => ?_⟩
  · rw [hnames, exists_mem_concat, h.names]
    constructor
    · rintro (rfl | ⟨hok, hn⟩)
      · exact ⟨href, Or.inr rfl⟩
      · exact ⟨hok, Or.inl hn⟩
    · rintro ⟨hok, hn | rfl⟩
      · exact Or.inr ⟨hok, hn⟩
      · exact Or.inl rfl
  · by_cases hold : n ∈ st.repoNames
    · exact h.free n hold y hy
    · -- a file of that name would still be there, and in the way
      have hns : n = s.name := ((hnames n).mp hn).resolve_right hold
      have hmem : ([n], y) ∈ st.dest :=
        (h.kept [n] y fun m hm hmn => hold (by cases hmn; exact hm)).mpr hy
      exact Tree.clear_of_replaceDir hr _ hmem (hns ▸ List.prefix_refl _)
  · have hs : ¬ [s.name] <+: p := by
      rw [singleton_prefix_iff]
      exact hp _ ((hnames _).mpr (Or.inl rfl))
    rw [Tree.mem_replaceDir_of_not_prefix hr hs]
    exact h.kept p x fun n hn => hp n ((hnames n).mpr (Or.inr hn))
  · by_cases hns : n = s.name
    · subst hns
      exact ⟨s, List.mem_append_right _ (List.mem_singleton.mpr rfl),
        Tree.mem_below.mp ((Tree.append_mem_replaceDir hr).mp hx)⟩
    · have hs : ¬ [s.name] <+: n :: r := by
        rw [singleton_prefix_iff, List.head?_cons, Option.some.injEq]
        exact hns
      rw [Tree.mem_replaceDir_of_not_prefix hr hs] at hx
      obtain ⟨t', ht, hmem⟩ := h.origin n (((hnames n).mp hn).resolve_left hns) r x hx
      exact ⟨t', List.mem_append_left _ ht, hmem⟩

theorem Copied.step (h : Copied W repo dest pre st) (hturn : copySkill W repo st s = some st') :
    Copied W repo dest (pre ++ [s]) st' := by
  rcases copySkill_cases hturn with ⟨why, href, rfl⟩ | ⟨t, href, hr, rfl⟩
  · exact h.refuse href _
  · exact h.copy href hr _

/-! ### The second loop -/

/-- The entry is to be archived: it is not hidden, and its skill is one that the repository no
longer has. -/
def Archivable (st : Syncing) (entry : Text) : Prop :=
  visible entry ∧ ∃ x, ([entry, skillMd], x) ∈ st.dest ∧ Stale st.repoNames entry x

/-- **A turn of the second loop** can read its entry, unless it is hidden, and moves it if it is to
be archived. -/
theorem archiveEntry_cases (hturn : archiveEntry st entry = some st') :
    (visible entry → ∀ x, ([entry, skillMd], x) ∈ st.dest → ∃ text, x.read = some text) ∧
      (¬ Archivable st entry ∧ st' = st ∨
        Archivable st entry ∧
          ∃ t, st.dest.replaceDir [trash, entry] (st.dest.below [entry]) = some t ∧
          st' = { st with dest := t.without [entry], archived := st.archived ++ [entry] }) := by
  unfold archiveEntry at hturn
  by_cases hv : visible entry = true
  · rw [if_neg (not_not.mpr hv)] at hturn
    cases hg : st.dest.get? [entry, skillMd] with
    | none =>
      rw [hg] at hturn
      cases hturn
      have hno : ∀ x, ([entry, skillMd], x) ∉ st.dest := by
        intro x hx
        rw [Tree.get?_eq_some_iff.mpr hx] at hg
        cases hg
      exact ⟨fun _ x hx => absurd hx (hno x), Or.inl ⟨fun ⟨_, x, hx, _⟩ => hno x hx, rfl⟩⟩
    | some x =>
      rw [hg] at hturn
      have hx := Tree.get?_eq_some_iff.mp hg
      simp only at hturn
      cases hread : x.read with
      | none =>
        rw [hread] at hturn
        cases hturn
      | some text =>
        rw [hread] at hturn
        simp only at hturn
        refine ⟨fun _ y hy => ⟨text, Tree.eq_of_mem hx hy ▸ hread⟩, ?_⟩
        by_cases hstale : Stale st.repoNames entry x
        · rw [if_pos hstale] at hturn
          cases hr : st.dest.replaceDir [trash, entry] (st.dest.below [entry]) with
          | none =>
            rw [hr] at hturn
            cases hturn
          | some t =>
            rw [hr] at hturn
            cases hturn
            exact Or.inr ⟨⟨hv, x, hx, hstale⟩, t, rfl, rfl⟩
        · rw [if_neg hstale] at hturn
          cases hturn
          refine Or.inl ⟨?_, rfl⟩
          rintro ⟨-, y, hy, hy'⟩
          rw [Tree.eq_of_mem hx hy] at hstale
          exact hstale hy'
  · rw [if_pos hv] at hturn
    cases hturn
    exact ⟨fun h => absurd h hv, Or.inl ⟨fun ha => hv ha.1, rfl⟩⟩

/-- What the second loop, which began in the state `st₁`, has done after the turns for the entries
`done`. -/
structure Archived (st₁ : Syncing) (done : List Text) (st : Syncing) : Prop where
  names : st.repoNames = st₁.repoNames
  /-- The trash is the directory of no other entry's file. -/
  free : ∀ e ∈ done, Archivable st₁ e → ∀ y, ([trash, e], y) ∉ st₁.dest
  /-- What is there is what was there, except for the entries that are archived and for what the
  trash had under their names, and what has been moved. -/
  files : ∀ p x, (p, x) ∈ st.dest ↔
    ((p, x) ∈ st₁.dest ∧ ∀ e ∈ done, Archivable st₁ e → ¬ [e] <+: p ∧ ¬ [trash, e] <+: p) ∨
      ∃ e ∈ done, Archivable st₁ e ∧ ∃ r, p = trash :: e :: r ∧ (e :: r, x) ∈ st₁.dest

theorem archived_start (st₁ : Syncing) : Archived st₁ [] st₁ where
  names := rfl
  free e he := absurd he List.not_mem_nil
  files p x := by simp

theorem not_visible_trash : visible trash = false := by decide +kernel

theorem ne_trash (h : visible entry = true) : entry ≠ trash := by
  rintro rfl
  rw [not_visible_trash] at h
  cases h

/-- An entry that has not had its turn is as it was. -/
theorem Archived.entry_iff (h : Archived st₁ done st) (hv : visible entry = true)
    (hdone : entry ∉ done) :
    (entry :: r, x) ∈ st.dest ↔ (entry :: r, x) ∈ st₁.dest := by
  rw [h.files]
  constructor
  · rintro (⟨hx, -⟩ | ⟨e, -, -, r', hp, -⟩)
    · exact hx
    · exact absurd (List.cons.inj hp).1 (ne_trash hv)
  · refine fun hx => Or.inl ⟨hx, fun e he _ => ⟨fun hp => ?_, fun hp => ?_⟩⟩
    · rw [List.cons_prefix_cons] at hp
      exact hdone (hp.1 ▸ he)
    · rw [List.cons_prefix_cons] at hp
      exact ne_trash hv hp.1.symm

/-- A turn that archives nothing. -/
theorem Archived.still (h : Archived st₁ done st) (hno : ¬ Archivable st₁ entry) :
    Archived st₁ (done ++ [entry]) st where
  names := h.names
  free e he ha := by
    rcases List.mem_append.mp he with he | he
    · exact h.free e he ha
    · rw [List.mem_singleton.mp he] at ha
      exact absurd ha hno
  files p x := by
    have hall : (∀ e ∈ done ++ [entry], Archivable st₁ e → ¬ [e] <+: p ∧ ¬ [trash, e] <+: p) ↔
        ∀ e ∈ done, Archivable st₁ e → ¬ [e] <+: p ∧ ¬ [trash, e] <+: p := by
      rw [List.forall_mem_append, List.forall_mem_singleton]
      exact ⟨And.left, fun h => ⟨h, fun ha => absurd ha hno⟩⟩
    have hex : (∃ e ∈ done ++ [entry], Archivable st₁ e ∧ ∃ r, p = trash :: e :: r ∧
        (e :: r, x) ∈ st₁.dest) ↔
        ∃ e ∈ done, Archivable st₁ e ∧ ∃ r, p = trash :: e :: r ∧ (e :: r, x) ∈ st₁.dest := by
      constructor
      · rintro ⟨e, he, ha, hr⟩
        rcases List.mem_append.mp he with he | he
        · exact ⟨e, he, ha, hr⟩
        · rw [List.mem_singleton.mp he] at ha
          exact absurd ha hno
      · exact fun ⟨e, he, hr⟩ => ⟨e, List.mem_append_left _ he, hr⟩
    rw [hall, hex]
    exact h.files p x

/-- A turn that moves an entry. -/
theorem Archived.move {t : Tree} (h : Archived st₁ done st) (ha : Archivable st₁ entry)
    (hdone : entry ∉ done) (hr : st.dest.replaceDir [trash, entry] (st.dest.below [entry]) = some t)
    (archived : List Text) :
    Archived st₁ (done ++ [entry]) { st with dest := t.without [entry], archived := archived } where
  names := h.names
  free e he hae y hy := by
    rcases List.mem_append.mp he with he | he
    · exact h.free e he hae y hy
    · -- a file under the entry's name in the trash would still be there, and in the way
      rw [List.mem_singleton.mp he] at hy
      refine Tree.clear_of_replaceDir hr _
        ((h.files _ _).mpr (Or.inl ⟨hy, fun e he ha => ⟨fun hp => ?_, fun hp => ?_⟩⟩))
        (List.prefix_refl _)
      · rw [List.cons_prefix_cons] at hp
        exact ne_trash ha.1 hp.1
      · simp only [List.cons_prefix_cons, List.nil_prefix, and_true, true_and] at hp
        exact hdone (hp ▸ he)
  files p x := by
    rw [Tree.mem_without, Tree.mem_replaceDir hr]
    constructor
    · rintro ⟨⟨hx, ht⟩ | ⟨q, rfl, hx⟩, he⟩
      · rcases (h.files p x).mp hx with ⟨hx, hall⟩ | ⟨e, hmem, hae, r, hp, hx⟩
        · refine Or.inl ⟨hx, fun e hmem hae => ?_⟩
          rcases List.mem_append.mp hmem with hmem | hmem
          · exact hall e hmem hae
          · rw [List.mem_singleton.mp hmem]
            exact ⟨he, ht⟩
        · exact Or.inr ⟨e, List.mem_append_left _ hmem, hae, r, hp, hx⟩
      · rw [Tree.mem_below] at hx
        exact Or.inr ⟨entry, List.mem_append_right _ (List.mem_singleton.mpr rfl), ha, q, rfl,
          (h.entry_iff ha.1 hdone).mp hx⟩
    · rintro (⟨hx, hall⟩ | ⟨e, hmem, hae, r, rfl, hx⟩)
      · obtain ⟨he, ht⟩ := hall entry (List.mem_append_right _ (List.mem_singleton.mpr rfl)) ha
        refine ⟨Or.inl
          ⟨(h.files p x).mpr (Or.inl ⟨hx, fun e hmem => hall e (List.mem_append_left _ hmem)⟩), ht⟩,
          he⟩
      · have hne : ¬ [entry] <+: trash :: e :: r := by
          rw [List.cons_prefix_cons]
          exact fun hp => ne_trash ha.1 hp.1
        rcases List.mem_append.mp hmem with hmem | hmem
        · refine ⟨Or.inl ⟨(h.files _ _).mpr (Or.inr ⟨e, hmem, hae, r, rfl, hx⟩), fun hp => ?_⟩, hne⟩
          simp only [List.cons_prefix_cons, List.nil_prefix, and_true, true_and] at hp
          exact hdone (hp ▸ hmem)
        · obtain rfl := List.mem_singleton.mp hmem
          exact ⟨Or.inr ⟨r, rfl, Tree.mem_below.mpr ((h.entry_iff ha.1 hdone).mpr hx)⟩, hne⟩

/-- An entry that has not had its turn is to be archived if it was to be. -/
theorem Archived.archivable_iff (h : Archived st₁ done st) (hdone : entry ∉ done) :
    Archivable st entry ↔ Archivable st₁ entry := by
  unfold Archivable
  rw [h.names]
  refine and_congr_right fun hv => exists_congr fun x => and_congr_left fun _ => ?_
  exact h.entry_iff hv hdone

theorem Archived.step (h : Archived st₁ done st) (hdone : entry ∉ done)
    (hturn : archiveEntry st entry = some st') :
    Archived st₁ (done ++ [entry]) st' := by
  obtain ⟨-, ⟨hno, rfl⟩ | ⟨ha, t, hr, rfl⟩⟩ := archiveEntry_cases hturn
  · exact h.still fun ha => hno ((h.archivable_iff hdone).mpr ha)
  · exact h.move ((h.archivable_iff hdone).mp ha) hdone hr _

/-! ### A run -/

theorem mem_entries : entry ∈ entries dest ↔ ∃ r x, (entry :: r, x) ∈ dest := by
  unfold entries
  rw [List.mem_mergeSort, Tree.mem_names]

theorem nodup_entries (dest : Tree) : (entries dest).Nodup :=
  (List.mergeSort_perm _ _).nodup_iff.mpr dest.nodup_names

/-- What the first loop has done when it ends. -/
theorem copyLoop_spec (W : SyncPlaces) (repo dest : Tree) (found : List Skill) :
    ∃ pre rest, found = pre ++ rest ∧
      Copied W repo dest pre (forEach (copySkill W repo) found ⟨dest, [], [], [], []⟩).1 ∧
      ((forEach (copySkill W repo) found ⟨dest, [], [], [], []⟩).2 = true → rest = []) :=
  forEach_invariant (fun _ _ _ _ h _ hturn => Copied.step h hturn)
    (copied_start W repo dest) along_true

/-- What the second loop has done when it ends. -/
theorem archiveLoop_spec (st₁ : Syncing) :
    ∃ done rest, entries st₁.dest = done ++ rest ∧
      Archived st₁ done (forEach archiveEntry (entries st₁.dest) st₁).1 ∧
      ((forEach archiveEntry (entries st₁.dest) st₁).2 = true → rest = []) :=
  forEach_invariant (fun _ _ _ _ h hdone hturn => Archived.step h hdone hturn) (archived_start st₁)
    (along_not_mem (nodup_entries st₁.dest))

/-- **Where a run has got to**: it has stopped in the first loop, after the turns for the skills
`pre`, or in the second one, which it enters after all of them, or it has come to its end. -/
theorem syncSkills_spec (W : SyncPlaces) (repo dest : Tree) (repoFiles : List (Path Text × File)) :
    (∃ pre rest, (syncSkillDirs repoFiles).1 = pre ++ rest ∧
      Copied W repo dest pre (syncSkills W repo dest repoFiles).1 ∧
      (syncSkills W repo dest repoFiles).2 = false) ∨
    ∃ st₁ done rest, Copied W repo dest (syncSkillDirs repoFiles).1 st₁ ∧
      (syncSkillDirs repoFiles).2 = true ∧
      entries st₁.dest = done ++ rest ∧ Archived st₁ done (syncSkills W repo dest repoFiles).1 ∧
        ((syncSkills W repo dest repoFiles).2 = true → rest = []) := by
  obtain ⟨pre, rest, hfound, hcopied, hrest⟩ :=
    copyLoop_spec W repo dest (syncSkillDirs repoFiles).1
  unfold syncSkills
  simp only
  split_ifs with hend
  · obtain ⟨hfirst, hfound'⟩ := hend
    rw [hrest hfirst, List.append_nil] at hfound
    obtain ⟨done, rest', harchive⟩ :=
      archiveLoop_spec
        (forEach (copySkill W repo) (syncSkillDirs repoFiles).1 ⟨dest, [], [], [], []⟩).1
    exact Or.inr ⟨_, done, rest', hfound ▸ hcopied, hfound', harchive⟩
  · exact Or.inl ⟨pre, rest, hfound, hcopied, rfl⟩

end OracleSkills.Tools
