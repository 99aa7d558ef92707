import OracleSkills.Tools.Accounting
import OracleSkills.Tools.Sync

/-!
# Bad files

A `SKILL.md` that cannot be opened, or does not decode, raises where `_skill_dirs` reads it: in the
middle of the loop that removes and copies. `shutil.copytree` raises, too, at a file below a skill's
directory that cannot be opened, and copies one that does not decode.

A source here may have such files (`Entry.broken`). Its walk and its copies are the tools' own
(`collectFrom_ofTree`, `syncFrom_ofTree`). `unstopped_iff`: a run comes to its end, and goes turn by
turn as it would if the bad files were absent, if and only if that run comes to its end, the walk
meets no bad file, and none is below a directory that is copied.
-/

namespace OracleSkills.Tools

open Python Frontmatter Files

/-! ### Sources -/

/-- A file of a source, or one that cannot be opened: it may not be read, or is a link that leads
nowhere. -/
inductive Entry where
  | file (x : File)
  | broken

/-- A directory with what is below it, which may be bad. -/
abbrev Source := Files.Tree Text Entry

/-- What `open(path).read()` makes of it: a file that cannot be opened raises as one that does not
decode. -/
def Entry.opened : Entry → File
  | .file x => x
  | .broken => .binary []

/-- What can be copied of it. -/
def Entry.file? : Entry → Option File
  | .file x => some x
  | .broken => none

/-- A `SKILL.md` that cannot be opened, or does not decode. -/
def Bad (p : Path Text) (e : Entry) : Prop := p.getLast? = some skillMd ∧ e.opened.read = none

instance (p : Path Text) (e : Entry) : Decidable (Bad p e) := inferInstanceAs (Decidable (_ ∧ _))

namespace Source

/-- The source without its bad files. -/
def clean (src : Source) : Source := src.select fun p e => if Bad p e then none else some e

/-- The files of the source that can be opened. -/
def files (src : Source) : Tree := src.select fun _ e => e.file?

/-- `copytree` opens every file below the directory. -/
def Copyable (src : Source) (d : Path Text) : Prop := ∀ f ∈ (src.below d).files, f.2.file? ≠ none

instance (src : Source) (d : Path Text) : Decidable (src.Copyable d) :=
  inferInstanceAs (Decidable (∀ f ∈ (src.below d).files, f.2.file? ≠ none))

/-- No bad file is below the directory. -/
def Sound (src : Source) (d : Path Text) : Prop := ∀ p e, (p, e) ∈ src → d <+: p → ¬ Bad p e

/-- A source in which every file can be opened. -/
def ofTree (t : Tree) : Source := t.select fun _ x => some (.file x)

end Source

/-- The skills that `_skill_dirs` yields, and whether it comes to its end. -/
def found (srcFiles : List (Path Text × Entry)) : List Skill × Bool :=
  collectSkillDirs (srcFiles.map fun f => (f.1, f.2.opened))

/-- The files of a walk that are not bad. -/
def good (srcFiles : List (Path Text × Entry)) : List (Path Text × Entry) :=
  srcFiles.filter fun f => f.2.opened.read ≠ none

variable {src : Source} {srcFiles : List (Path Text × Entry)} {t : Tree} {d p : Path Text}
  {e : Entry} {x : File} {s : Skill}

namespace Source

theorem mem_clean : (p, e) ∈ src.clean ↔ (p, e) ∈ src ∧ ¬ Bad p e := by
  rw [clean, Tree.mem_select]
  constructor
  · rintro ⟨y, hy, h⟩
    split_ifs at h with hbad
    cases h
    exact ⟨hy, hbad⟩
  · exact fun ⟨hy, hbad⟩ => ⟨e, hy, if_neg hbad⟩

theorem mem_files : (p, x) ∈ src.files ↔ (p, .file x) ∈ src := by
  rw [files, Tree.mem_select]
  constructor
  · rintro ⟨e, he, h⟩
    cases e with
    | file y =>
      cases h
      exact he
    | broken => cases h
  · exact fun h => ⟨_, h, rfl⟩

theorem copyable_iff : src.Copyable d ↔ ∀ p, (d ++ p, .broken) ∉ src := by
  constructor
  · intro h p hp
    exact h (p, .broken) (Tree.mem_below.mpr hp) rfl
  · rintro h ⟨p, e⟩ hf
    cases e with
    | file x => exact Option.some_ne_none x
    | broken => exact absurd (Tree.mem_below.mp hf) (h p)

/-- Without its bad files a source is the same below a directory that has none. -/
theorem clean_below (h : src.Sound d) : src.clean.files.below d = src.files.below d := by
  unfold files clean
  rw [Tree.select_select]
  refine Tree.below_select_congr fun p e he hd => ?_
  rw [if_neg (h p e he hd)]
  rfl

theorem clean_copyable (h : src.Sound d) : src.clean.Copyable d ↔ src.Copyable d := by
  rw [copyable_iff, copyable_iff]
  refine forall_congr' fun p => not_congr ?_
  rw [mem_clean]
  exact and_iff_left_of_imp fun hp => h _ _ hp (List.prefix_append d p)

theorem ofTree_files (t : Tree) : (ofTree t).files = t := by
  have hfiles : (ofTree t).files.files = t.files := by
    unfold files ofTree
    rw [Tree.select_select]
    exact List.filterMap_some
  revert hfiles
  cases (ofTree t).files
  rintro rfl
  rfl

theorem ofTree_copyable (t : Tree) (d : Path Text) : (ofTree t).Copyable d := by
  rw [copyable_iff]
  intro p hp
  obtain ⟨x, -, h⟩ := Tree.mem_select.mp hp
  cases h

end Source

/-! ### Walks -/

/-- The walk comes to its end exactly if it meets no bad file. -/
theorem found_ends_iff : (found srcFiles).2 = true ↔ ∀ f ∈ srcFiles, f.2.opened.read ≠ none := by
  rw [found, skillDirs_ends_iff, List.forall_mem_map]
  simp only [Option.ne_none_iff_exists']

theorem good_of_ends (h : (found srcFiles).2 = true) : good srcFiles = srcFiles :=
  List.filter_eq_self.mpr fun f hf => by simpa using found_ends_iff.mp h f hf

/-- A skill's own file is not bad. -/
theorem own_of_mem_found (hwalk : src.Walk skillMd visible srcFiles) (hs : s ∈ (found srcFiles).1) :
    ∃ e, (s.path ++ [skillMd], e) ∈ src ∧ e.opened.read ≠ none := by
  obtain ⟨x, hx, hof⟩ := exists_of_mem_skillDirs hs
  obtain ⟨⟨p, e⟩, hf, heq⟩ := List.mem_map.mp hx
  cases heq
  obtain ⟨text, hread⟩ := hof.readable
  exact ⟨e, (hwalk.mem_iff.mp hf).1, by rw [hread]; exact Option.some_ne_none text⟩

/-! ### Copying -/

/-- A loop that copies the directories of skills. -/
structure Copier (σ : Type*) where
  /-- The turn for one skill; `none` where it raises. -/
  turn : Tree → σ → Skill → Option σ
  /-- The turn comes to `copytree`. -/
  copies : σ → Skill → Bool
  /-- A turn looks at the skill's directory, -/
  turn_congr : ∀ {t t' st s}, t.below s.path = t'.below s.path → turn t st s = turn t' st s
  /-- if it copies it, -/
  turn_of_not : ∀ {t t' st s}, copies st s = false → turn t st s = turn t' st s
  /-- and then takes everything in it. -/
  copied : ∀ {t t' st st' s}, copies st s = true → turn t st s = some st' →
    turn t' st s = some st' →
    ∀ q x, q ≠ [skillMd] → ((s.path ++ q, x) ∈ t ↔ (s.path ++ q, x) ∈ t')

section

variable {σ : Type*}

/-- The turn for a skill of a source. -/
def Copier.turnFrom (c : Copier σ) (src : Source) (st : σ) (s : Skill) : Option σ :=
  if c.copies st s ∧ ¬ src.Copyable s.path then none else c.turn src.files st s

/-- A skill that is copied has no bad file below its directory. -/
def Copier.Takes (c : Copier σ) (src : Source) (_ : List Skill) (st : σ) (s : Skill) : Prop :=
  c.copies st s = true → src.Sound s.path

variable {c : Copier σ} {st st' : σ} {ss : List Skill}

theorem turnFrom_ofTree (c : Copier σ) (t : Tree) : c.turnFrom (.ofTree t) = c.turn t := by
  funext st s
  rw [Copier.turnFrom, if_neg (fun h => h.2 (Source.ofTree_copyable t s.path)), Source.ofTree_files]

theorem turn_of_turnFrom (h : c.turnFrom src st s = some st') :
    c.turn src.files st s = some st' ∧ (c.copies st s = true → src.Copyable s.path) := by
  unfold Copier.turnFrom at h
  split_ifs at h with hc
  exact ⟨h, fun hcopies => by_contra fun hno => hc ⟨hcopies, hno⟩⟩

/-- **A turn** does what it would do without the bad files exactly if it takes none along. -/
theorem turnFrom_eq_iff {e : Entry} (hown : (s.path ++ [skillMd], e) ∈ src)
    (he : e.opened.read ≠ none) (h : c.turnFrom src.clean st s = some st') :
    c.turnFrom src st s = c.turnFrom src.clean st s ↔
        (c.copies st s = true → src.Sound s.path) := by
  obtain ⟨hclean, -⟩ := turn_of_turnFrom h
  constructor
  · intro heq hcopies p e' hp hd hbad
    rw [h] at heq
    obtain ⟨hturn, hcopyable⟩ := turn_of_turnFrom heq
    obtain ⟨q, rfl⟩ := hd
    cases e' with
    | broken => exact Source.copyable_iff.mp (hcopyable hcopies) q hp
    | file x =>
      have hq : q ≠ [skillMd] := by
        rintro rfl
        rw [Tree.eq_of_mem hp hown] at hbad
        exact he hbad.2
      have hx := (c.copied hcopies hturn hclean q x hq).mp (Source.mem_files.mpr hp)
      exact (Source.mem_clean.mp (Source.mem_files.mp hx)).2 hbad
  · intro hsound
    unfold Copier.turnFrom
    by_cases hcopies : c.copies st s = true
    · simp only [Source.clean_copyable (hsound hcopies)]
      rw [c.turn_congr (Source.clean_below (hsound hcopies))]
    · rw [if_neg (fun hc => hcopies hc.1), if_neg (fun hc => hcopies hc.1)]
      exact c.turn_of_not (by simpa using hcopies)

/-- **A loop** goes as it would go without the bad files exactly if no turn takes one along. -/
theorem turns_iff (hwalk : src.Walk skillMd visible srcFiles)
    (hends : (forEach (c.turnFrom src.clean) (found srcFiles).1 st).2 = true) :
    (∀ done t, Reaches (c.turnFrom src) (found srcFiles).1 st done t ↔
        Reaches (c.turnFrom src.clean) (found srcFiles).1 st done t) ↔
      Along (c.turnFrom src.clean) (c.Takes src) [] (found srcFiles).1 st := by
  rw [reaches_iff_along hends]
  refine along_congr_of_ends hends fun _ st st' s hs hturn => ?_
  obtain ⟨e, hown, he⟩ := own_of_mem_found hwalk hs
  exact turnFrom_eq_iff hown he hturn

end

/-! ### The two tools -/

/-- The turn of `collect_commit.py` comes to `copytree`. -/
def Outcome.copies : Outcome → Bool
  | .skipped | .rejected => false
  | .updated | .committed _ => true

variable {W : Places} {V : SyncPlaces}

theorem collectSkill_congr {t t' : Tree} {st : Collection} (h : t.below s.path = t'.below s.path) :
    collectSkill W t st s = collectSkill W t' st s := by
  simp only [collectSkill, place, copied, h]

theorem placement_below {t t' : Tree} {st st' : Collection} {target : Text} {dest q : Path Text}
    (h : placement t st s target dest = some st') (h' : placement t' st s target dest = some st')
    (hq : q ≠ [skillMd]) :
    (s.path ++ q, x) ∈ t ↔ (s.path ++ q, x) ∈ t' := by
  obtain ⟨u, hu, rfl⟩ := Option.map_eq_some_iff.mp h
  obtain ⟨u', hu', heq⟩ := Option.map_eq_some_iff.mp h'
  obtain rfl : u' = u := congrArg Collection.skills heq
  rw [← mem_copied_of_ne hq, ← mem_copied_of_ne hq, ← Tree.append_mem_replaceDir hu,
    ← Tree.append_mem_replaceDir hu']

theorem goes_iff_of_aims {st : Collection} {target : Text} {dest : Path Text} (he : Eligible s)
    (ha : Aims st s target dest) :
    (∃ target dest, Goes W st s target dest) ↔ badSegment target = none ∧
        inside W.realpath W.root (pathText W.root dest) = true := by
  constructor
  · rintro ⟨target', dest', hgoes⟩
    obtain ⟨rfl, rfl⟩ := ha.unique hgoes.aims
    exact ⟨hgoes.target_ok, hgoes.dest_inside⟩
  · exact fun h => ⟨target, dest, he, ha, h.1, h.2⟩

theorem sent_copies {target : Text} {dest : Path Text} {o : Outcome} (ho : o.copies = true) :
    (sent W target dest o).copies = true ↔ badSegment target = none ∧
        inside W.realpath W.root (pathText W.root dest) = true := by
  unfold sent
  split_ifs with h
  · exact iff_of_true ho h
  · exact iff_of_false Bool.false_ne_true h

/-- What comes to `copytree` has somewhere to go. -/
theorem copies_iff {st : Collection} :
    (outcome W st s).copies = true ↔ ∃ target dest, Goes W st s target dest := by
  unfold outcome
  split_ifs with he
  · cases hk : st.existing.get? s.name with
    | none => rw [goes_iff_of_aims he (.new hk rfl rfl), sent_copies rfl]
    | some known =>
      simp only
      split_ifs with hh hi
      · refine iff_of_false Bool.false_ne_true ?_
        rintro ⟨_, _, hgoes⟩
        exact hgoes.aims.hash_ne hk hh
      · rw [goes_iff_of_aims he (.update known hk hh hi rfl rfl), sent_copies rfl]
      · rw [goes_iff_of_aims he (.rename known hk hh hi rfl rfl), sent_copies rfl]
  · refine iff_of_false Bool.false_ne_true ?_
    rintro ⟨_, _, hgoes⟩
    exact he hgoes.eligible

theorem place_congr {t t' : Tree} {st : Collection} {target : Text} {dest : Path Text}
    (h : ¬ (badSegment target = none ∧ inside W.realpath W.root (pathText W.root dest) = true)) :
    place W t st s target dest = place W t' st s target dest := by
  unfold place
  cases hbad : badSegment target with
  | some why => rfl
  | none =>
    have hout : ¬ inside W.realpath W.root (pathText W.root dest) = true := fun hin => h ⟨hbad, hin⟩
    simp only [if_pos hout]

/-- A skill that does not come to be copied is not looked at. -/
theorem collectSkill_of_not_copies {t t' : Tree} {st : Collection}
    (h : (outcome W st s).copies = false) :
    collectSkill W t st s = collectSkill W t' st s := by
  rw [← Bool.not_eq_true, copies_iff] at h
  by_cases he : Eligible s
  · have haims : ∀ {target dest}, Aims st s target dest →
        collectSkill W t st s = collectSkill W t' st s := fun ha => by
      rw [collectSkill_of_aims W t he ha, collectSkill_of_aims W t' he ha]
      exact place_congr ((goes_iff_of_aims he ha).not.mp h)
    cases hk : st.existing.get? s.name with
    | none => exact haims (.new hk rfl rfl)
    | some known =>
      by_cases hh : known.hash = s.hash
      · rw [collectSkill_eq_skip he hk hh, collectSkill_eq_skip he hk hh]
      · by_cases hi : known.identity = s.identity
        · exact haims (.update known hk hh hi rfl rfl)
        · exact haims (.rename known hk hh hi rfl rfl)
  · by_cases hauto : autoSkill s.fm
    · cases hbad : (badSegment s.name).or (badSegment s.category) with
      | some why => simp only [collectSkill, if_neg (not_not.mpr hauto), hbad]
      | none =>
        rw [Option.or_eq_none_iff] at hbad
        exact absurd ⟨hauto, hbad.1, hbad.2⟩ he
    · rw [collectSkill_of_not_auto hauto, collectSkill_of_not_auto hauto]

/-- The loop of `collect_commit.py`. -/
def collecting (W : Places) : Copier Collection where
  turn := collectSkill W
  copies st s := (outcome W st s).copies
  turn_congr := collectSkill_congr
  turn_of_not := collectSkill_of_not_copies
  copied hcopies h h' q x hq := by
    obtain ⟨target, dest, hgoes⟩ := copies_iff.mp hcopies
    rw [hgoes.collectSkill_eq] at h h'
    exact placement_below h h' hq

/-- The loop of `sync_skills.py`. -/
def syncing (V : SyncPlaces) : Copier Syncing where
  turn := copySkill V
  copies _ s := (refusal V s.name).isNone
  turn_congr h := by simp only [copySkill, h]
  turn_of_not h := by
    simp only [Option.isNone_eq_false_iff, Option.isSome_iff_exists] at h
    obtain ⟨why, hwhy⟩ := h
    simp only [copySkill, hwhy]
  copied hcopies h h' q x hq := by
    rw [Option.isNone_iff_eq_none] at hcopies
    rcases copySkill_cases h with ⟨why, hwhy, -⟩ | ⟨u, -, hu, rfl⟩
    · rw [hcopies] at hwhy
      cases hwhy
    · rcases copySkill_cases h' with ⟨why, hwhy, -⟩ | ⟨u', -, hu', heq⟩
      · rw [hcopies] at hwhy
        cases hwhy
      · obtain rfl : u = u' := congrArg Syncing.dest heq
        rw [← Tree.mem_below, ← Tree.mem_below, ← Tree.append_mem_replaceDir hu,
          ← Tree.append_mem_replaceDir hu']

/-! ### Runs -/

/-- `collect_commit.py::main`, from a source with bad files. -/
def collectFrom (W : Places) (skills : Tree) (src : Source) (repoFiles : List (Path Text × File))
    (srcFiles : List (Path Text × Entry)) : Collection × Bool :=
  if ¬ (collectSkillDirs repoFiles).2 then (⟨skills, [], [], [], [], [], []⟩, false)
  else
    let run := forEach ((collecting W).turnFrom src) (found srcFiles).1 (start skills repoFiles)
    (run.1, run.2 && (found srcFiles).2)

/-- `sync_skills.py::main`, from a repository with bad files. -/
def syncFrom (V : SyncPlaces) (repo : Source) (dest : Tree) (repoFiles : List (Path Text × Entry)) :
    Syncing × Bool :=
  let copied := forEach ((syncing V).turnFrom repo) (found repoFiles).1 ⟨dest, [], [], [], []⟩
  if ¬ (copied.2 ∧ (found repoFiles).2) then (copied.1, false) else
    forEach archiveEntry (entries copied.1.dest) copied.1

theorem found_ofTree (files : List (Path Text × File)) :
    found (files.map fun f => (f.1, .file f.2)) = collectSkillDirs files := by
  rw [found, List.map_map]
  exact congrArg _ (List.map_id' files)

/-- **Without bad files** these are the tools' runs. -/
theorem collectFrom_ofTree (W : Places) (skills t : Tree)
    (repoFiles files : List (Path Text × File)) :
    collectFrom W skills (.ofTree t) repoFiles (files.map fun f => (f.1, .file f.2)) =
        collectCommit W skills t repoFiles files := by
  simp only [collectFrom, collectCommit, turnFrom_ofTree, found_ofTree]
  rfl

theorem syncFrom_ofTree (V : SyncPlaces) (t dest : Tree) (files : List (Path Text × File)) :
    syncFrom V (.ofTree t) dest (files.map fun f => (f.1, .file f.2)) =
        syncSkills V t dest files := by
  simp only [syncFrom, syncSkills, turnFrom_ofTree, found_ofTree, syncSkillDirs_eq]
  rfl

/-- The run ends with its report, and goes turn by turn as the run without the bad files. -/
structure Unstopped {σ : Type*} (c : Copier σ) (src : Source) (srcFiles : List (Path Text × Entry))
    (st : σ) (run run₀ : σ × Bool) :
    Prop where
  ends : run.2 = true
  same : run.1 = run₀.1
  turns : ∀ done t, Reaches (c.turnFrom src) (found srcFiles).1 st done t ↔
    Reaches (c.turnFrom src.clean) (found (good srcFiles)).1 st done t

/-- The run without the bad files ends with its report, and meets and copies none of them. -/
structure Unmet {σ : Type*} (c : Copier σ) (src : Source) (srcFiles : List (Path Text × Entry))
    (st : σ) (run₀ : σ × Bool) :
    Prop where
  ends : run₀.2 = true
  walked : ∀ f ∈ srcFiles, f.2.opened.read ≠ none
  copied : Along (c.turnFrom src.clean) (c.Takes src) [] (found (good srcFiles)).1 st

section

variable {σ : Type*} {c : Copier σ} {st : σ}

/-- A loop that goes as another ends as it does. -/
theorem forEach_of_reaches {body body' : σ → Skill → Option σ} {ss : List Skill}
    (h : ∀ done t, Reaches body ss st done t → Reaches body' ss st done t)
    (hends : (forEach body ss st).2 = true) :
    forEach body' ss st = forEach body ss st := by
  obtain ⟨rest, hss, ht⟩ :=
    h ss (forEach body ss st).1 ⟨[], (List.append_nil ss).symm, by rw [← hends]⟩
  rw [ht, ← hends]

/-- **The runs of a loop** that ends with the walk: the run over the source is the one over the
source without its bad files, if and only if that one ends, and no bad file is met or copied. -/
theorem unstopped_loop (hwalk : src.Walk skillMd visible srcFiles)
    (hfound : (found srcFiles).2 = true) :
    ((forEach (c.turnFrom src) (found srcFiles).1 st).2 = true ∧
        ∀ done t, Reaches (c.turnFrom src) (found srcFiles).1 st done t ↔
          Reaches (c.turnFrom src.clean) (found (good srcFiles)).1 st done t) ↔
      (forEach (c.turnFrom src.clean) (found (good srcFiles)).1 st).2 = true ∧
        Along (c.turnFrom src.clean) (c.Takes src) [] (found (good srcFiles)).1 st := by
  rw [good_of_ends hfound]
  constructor
  · rintro ⟨hends, hreaches⟩
    have hends₀ : (forEach (c.turnFrom src.clean) (found srcFiles).1 st).2 = true := by
      rw [forEach_of_reaches (fun done t => (hreaches done t).mp) hends]
      exact hends
    exact ⟨hends₀, (turns_iff hwalk hends₀).mp hreaches⟩
  · rintro ⟨hends₀, hcopied⟩
    have hreaches := (turns_iff hwalk hends₀).mpr hcopied
    refine ⟨?_, hreaches⟩
    rw [forEach_of_reaches (fun done t => (hreaches done t).mpr) hends₀]
    exact hends₀

theorem forEach_eq_of_turns (hfound : (found srcFiles).2 = true)
    (hends : (forEach (c.turnFrom src) (found srcFiles).1 st).2 = true)
    (hturns : ∀ done t, Reaches (c.turnFrom src) (found srcFiles).1 st done t ↔
      Reaches (c.turnFrom src.clean) (found (good srcFiles)).1 st done t) :
    forEach (c.turnFrom src) (found srcFiles).1 st =
        forEach (c.turnFrom src.clean) (found (good srcFiles)).1 st := by
  rw [good_of_ends hfound] at hturns ⊢
  exact (forEach_of_reaches (fun done t => (hturns done t).mp) hends).symm

end

/-- The run of `collect_commit.py`. -/
theorem collectFrom_unstopped_iff (W : Places) (tree : Tree) (repoFiles : List (Path Text × File))
    (hwalk : src.Walk skillMd visible srcFiles) :
    Unstopped (collecting W) src srcFiles (start tree repoFiles)
        (collectFrom W tree src repoFiles srcFiles)
        (collectFrom W tree src.clean repoFiles (good srcFiles)) ↔
      Unmet (collecting W) src srcFiles (start tree repoFiles)
          (collectFrom W tree src.clean repoFiles (good srcFiles)) := by
  unfold collectFrom
  by_cases hrepo : (collectSkillDirs repoFiles).2 = true
  · rw [if_neg (not_not.mpr hrepo), if_neg (not_not.mpr hrepo)]
    constructor
    · rintro ⟨hends, -, hturns⟩
      obtain ⟨hrun, hfound⟩ := (Bool.and_eq_true _ _).mp hends
      obtain ⟨hends₀, hcopied⟩ := (unstopped_loop hwalk hfound).mp ⟨hrun, hturns⟩
      refine ⟨(Bool.and_eq_true _ _).mpr ⟨hends₀, ?_⟩, found_ends_iff.mp hfound, hcopied⟩
      rw [good_of_ends hfound]
      exact hfound
    · rintro ⟨hends, hwalked, hcopied⟩
      have hfound := found_ends_iff.mpr hwalked
      have hrun₀ := ((Bool.and_eq_true _ _).mp hends).1
      obtain ⟨hrun, hturns⟩ := (unstopped_loop hwalk hfound).mpr ⟨hrun₀, hcopied⟩
      refine ⟨?_, ?_, hturns⟩
      · simp only [hrun, hfound, Bool.and_self]
      · show (forEach _ _ _).1 = (forEach _ _ _).1
        rw [forEach_eq_of_turns hfound hrun hturns]
  · rw [if_pos hrepo, if_pos hrepo]
    constructor
    · rintro ⟨hends, -, -⟩
      cases hends
    · rintro ⟨hends, -, -⟩
      cases hends

/-- The run of `sync_skills.py`, whose archiving comes after the copies. -/
theorem syncFrom_unstopped_iff (V : SyncPlaces) (tree : Tree)
    (hwalk : src.Walk skillMd visible srcFiles) :
    Unstopped (syncing V) src srcFiles ⟨tree, [], [], [], []⟩ (syncFrom V src tree srcFiles)
        (syncFrom V src.clean tree (good srcFiles)) ↔
      Unmet (syncing V) src srcFiles ⟨tree, [], [], [], []⟩
          (syncFrom V src.clean tree (good srcFiles)) := by
  unfold syncFrom
  constructor
  · rintro ⟨hends, hsame, hturns⟩
    by_cases hcopy : (forEach ((syncing V).turnFrom src) (found srcFiles).1
        ⟨tree, [], [], [], []⟩).2 = true ∧
        (found srcFiles).2 = true
    · obtain ⟨hends₀, hcopied⟩ := (unstopped_loop hwalk hcopy.2).mp ⟨hcopy.1, hturns⟩
      refine ⟨?_, found_ends_iff.mp hcopy.2, hcopied⟩
      rw [if_neg (not_not.mpr hcopy), forEach_eq_of_turns hcopy.2 hcopy.1 hturns] at hends
      rw [if_neg (not_not.mpr ⟨hends₀, by rw [good_of_ends hcopy.2]; exact hcopy.2⟩)]
      exact hends
    · rw [if_pos hcopy] at hends
      cases hends
  · rintro ⟨hends, hwalked, hcopied⟩
    have hfound := found_ends_iff.mpr hwalked
    by_cases hcopy : (forEach ((syncing V).turnFrom src.clean) (found (good srcFiles)).1
        ⟨tree, [], [], [], []⟩).2 = true ∧
        (found (good srcFiles)).2 = true
    · obtain ⟨hrun, hturns⟩ := (unstopped_loop hwalk hfound).mpr ⟨hcopy.1, hcopied⟩
      rw [if_neg (not_not.mpr hcopy)] at hends
      have heq := forEach_eq_of_turns hfound hrun hturns
      refine ⟨?_, ?_, hturns⟩
      · rw [if_neg (not_not.mpr ⟨hrun, hfound⟩), heq]
        exact hends
      · rw [if_neg (not_not.mpr ⟨hrun, hfound⟩), if_neg (not_not.mpr hcopy), heq]
    · rw [if_pos hcopy] at hends
      cases hends

/-- **One bad file** does not stop `collect_commit.py` or `sync_skills.py`, if and only if the run
without the bad files comes to its end, and the walk of the source meets no bad file, and no
directory that is copied has one below it. -/
theorem unstopped_iff (W : Places) (V : SyncPlaces) (tree : Tree)
    (repoFiles : List (Path Text × File)) (hwalk : src.Walk skillMd visible srcFiles) :
    (Unstopped (collecting W) src srcFiles (start tree repoFiles)
        (collectFrom W tree src repoFiles srcFiles)
        (collectFrom W tree src.clean repoFiles (good srcFiles)) ↔
      Unmet (collecting W) src srcFiles (start tree repoFiles)
        (collectFrom W tree src.clean repoFiles (good srcFiles))) ∧
    (Unstopped (syncing V) src srcFiles ⟨tree, [], [], [], []⟩ (syncFrom V src tree srcFiles)
        (syncFrom V src.clean tree (good srcFiles)) ↔
      Unmet (syncing V) src srcFiles ⟨tree, [], [], [], []⟩
          (syncFrom V src.clean tree (good srcFiles))) :=
  ⟨collectFrom_unstopped_iff W tree repoFiles hwalk, syncFrom_unstopped_iff V tree hwalk⟩

/-! ### A file that does not decode -/

/-- A repository with the skill `foo`, and a `SKILL.md` of bytes that are no text. -/
def spoilt : Source where
  files := [(["c".toList, "bad".toList, skillMd], .file (.binary [0xff])),
    (["c".toList, "foo".toList, skillMd], .file (.text (unlines fooLines)))]
  nodup := by decide
  free := by decide

/-- The walk through it. -/
def spoiltFiles : List (Path Text × Entry) :=
  [(["c".toList, "bad".toList], .file (.binary [0xff])),
    (["c".toList, "foo".toList], .file (.text (unlines fooLines)))]

theorem walk_spoilt : spoilt.Walk skillMd visible spoiltFiles := by
  constructor
  · have h : spoilt.holding skillMd visible = spoiltFiles := by
      unfold Tree.holding spoilt spoiltFiles
      rfl
    rw [h]
  · simp [spoiltFiles]

theorem unstopped_iff_spoilt :
    (Unstopped (collecting samplePlaces) spoilt spoiltFiles (start noSkills [])
        (collectFrom samplePlaces noSkills spoilt [] spoiltFiles)
        (collectFrom samplePlaces noSkills spoilt.clean [] (good spoiltFiles)) ↔
      Unmet (collecting samplePlaces) spoilt spoiltFiles (start noSkills [])
        (collectFrom samplePlaces noSkills spoilt.clean [] (good spoiltFiles))) :=
  (unstopped_iff samplePlaces ⟨id, "dest".toList, "repo".toList⟩ noSkills [] walk_spoilt).1

/-- Neither tool comes to its end. -/
theorem stopped_spoilt :
    ¬ ∀ (W : Places) (V : SyncPlaces) (tree : Tree) (src : Source) (srcFiles : List (Path Text × Entry)),
    src.Walk skillMd visible srcFiles →
      Unstopped (collecting W) src srcFiles (start tree []) (collectFrom W tree src [] srcFiles)
          (collectFrom W tree src.clean [] (good srcFiles)) ∧
        Unstopped (syncing V) src srcFiles ⟨tree, [], [], [], []⟩ (syncFrom V src tree srcFiles)
          (syncFrom V src.clean tree (good srcFiles)) := by
  intro h
  have hends :=
    (h samplePlaces ⟨id, "dest".toList, "repo".toList⟩ noSkills spoilt spoiltFiles
      walk_spoilt).1.ends
  revert hends
  decide +kernel

end OracleSkills.Tools
