import OracleSkills.Files.Steps
import OracleSkills.Tools.CollectTwice
import OracleSkills.Tools.SyncKeeps

/-!
# A run that is interrupted

To place a skill both tools call `shutil.rmtree` on the directory that is there, and then
`shutil.copytree`, which go file by file; `collect_commit.py` then writes the `SKILL.md` of a
renamed copy once more. A copy may fail, and the process may stop, at any file.

`Placer.Point` is what a run leaves behind if it ends at any such point. `complete_iff`: a directory
that was there before the run, and to which a skill is copied, is at every point complete, as it was
or as it is to be, if and only if there is none: between the two calls nothing is there. A placement
that comes to its end is the model's (`Placer.placed`).

What is *not* formalized: symbolic links in the trees, which `rmtree` refuses.
-/

namespace OracleSkills.Tools

open Python Frontmatter Files

/-! ### Loops that place skills -/

/-- A loop in which a turn may replace a directory of a tree. -/
structure Placer (σ : Type*) where
  turn : σ → Skill → Option σ
  tree : σ → Tree
  /-- The turn replaces the directory by this. -/
  Puts : σ → Skill → Path Text → Tree → Prop
  placed : ∀ {st s d c}, Puts st s d c → ∃ st', turn st s = some st' ∧
    (tree st).replaceDir d c = some (tree st')

/-- The loop of `collect_commit.py`. -/
def collectPlacer (W : Places) (src : Tree) : Placer Collection where
  turn := collectSkill W src
  tree := Collection.skills
  Puts st s d c := ∃ target, Goes W st s target d ∧ st.skills.Clear d ∧ c = copied src s target
  placed := by
    rintro st s d c ⟨target, hgoes, hclear, rfl⟩
    obtain ⟨skills, hr⟩ := Tree.replaceDir_isSome_iff.mpr hclear
    obtain ⟨st', hturn, hplaced⟩ := hgoes.placed hr
    exact ⟨st', hturn, by rw [hr, hplaced.skills]⟩

/-- The first loop of `sync_skills.py`. -/
def syncPlacer (V : SyncPlaces) (repo : Tree) : Placer Syncing where
  turn := copySkill V repo
  tree := Syncing.dest
  Puts st s d c := refusal V s.name = none ∧ d = [s.name] ∧ st.dest.Clear d ∧ c = repo.below s.path
  placed := by
    rintro st s d c ⟨href, rfl, hclear, rfl⟩
    obtain ⟨dest, hr⟩ := Tree.replaceDir_isSome_iff.mpr hclear
    refine ⟨{ st with
      dest := dest, repoNames := st.repoNames.insert s.name, synced := st.synced ++ [s.name] },
      ?_, hr⟩
    simp only [copySkill, href, hr]

/-! ### Points at which a run may end -/

section

variable {σ : Type*} (P : Placer σ) (ss : List Skill) (st₀ : σ)

/-- The loop has its turn for `s` in the state `st`. -/
def Placer.Turn (st : σ) (s : Skill) : Prop :=
  ∃ done rest, ss = done ++ s :: rest ∧ forEach P.turn done st₀ = (st, true)

/-- What a run leaves behind that ends at any point. -/
inductive Placer.Point : Tree → Prop
  /-- Before a turn, -/
  | before (st : σ) (s : Skill) (h : P.Turn ss st₀ st s) : Placer.Point (P.tree st)
  /-- in a turn, after some of its files, -/
  | within (st : σ) (s : Skill) (d : Path Text) (c : Tree) (gone : List (Path Text))
      (writes : List (Path Text × File)) (T : Tree)
      (h : P.Turn ss st₀ st s) (hputs : P.Puts st s d c)
        (hsteps : Tree.Replacement (P.tree st) d c gone writes)
      (hstops : (P.tree st).Stops (Tree.replacing d gone writes) T) : Placer.Point T
  /-- or at its end. -/
  | done : Placer.Point (P.tree (forEach P.turn ss st₀).1)

/-- Every directory that was there, and to which a skill is copied, is the complete old one or the
complete new one. -/
def Placer.Complete (T : Tree) : Prop :=
  ∀ st s d c, P.Turn ss st₀ st s → P.Puts st s d c → (∃ q x, (d ++ q, x) ∈ P.tree st₀) →
    (∀ q x, (d ++ q, x) ∈ T ↔ (d ++ q, x) ∈ P.tree st₀) ∨
      ∃ st' s' c', P.Turn ss st₀ st' s' ∧ P.Puts st' s' d c' ∧ ∀ q x, (d ++ q, x) ∈ T ↔ (q, x) ∈ c'

/-- No directory to which a skill is copied was there. -/
def Placer.AllNew : Prop :=
  ∀ st s d c, P.Turn ss st₀ st s → P.Puts st s d c → ∀ q x, (d ++ q, x) ∉ P.tree st₀

variable {P ss st₀} {st : σ} {s : Skill} {d : Path Text} {c : Tree}

/-- **A placement** that comes to its end is a turn of the loop. -/
theorem Placer.ended (hputs : P.Puts st s d c) {gone : List (Path Text)}
    {writes : List (Path Text × File)}
    (hsteps : Tree.Replacement (P.tree st) d c gone writes) (hall : Tree.Complete c writes) :
    ∃ st' T, P.turn st s = some st' ∧ (P.tree st).runOps (Tree.replacing d gone writes) = some T ∧
      ∀ q x, (q, x) ∈ T ↔ (q, x) ∈ P.tree st' := by
  obtain ⟨st', hturn, hr⟩ := P.placed hputs
  obtain ⟨T, hT, hmem⟩ := Tree.run_replacement hsteps hall hr
  exact ⟨st', T, hturn, hT, hmem⟩

/-- **The directories are complete** at every point exactly if none was there, as every copy has a
file. -/
theorem Placer.complete_iff
    (hfile : ∀ st s d c, P.Turn ss st₀ st s → P.Puts st s d c → ∃ q x, (q, x) ∈ c) :
    (∀ T, P.Point ss st₀ T → P.Complete ss st₀ T) ↔ P.AllNew ss st₀ := by
  constructor
  · intro h st s d c hturn hputs q x hx
    obtain ⟨gone, writes, hsteps, -⟩ := Tree.exists_replacement (P.tree st) d c
    obtain ⟨T, hstops, hmem⟩ := hsteps.stops_emptied
    have hempty : ∀ q x, (d ++ q, x) ∉ T := fun q x hq =>
      ((hmem _ _).mp hq).2 (List.prefix_append d q)
    rcases h T (.within st s d c gone writes T hturn hputs hsteps hstops) st s d c hturn hputs ⟨q,
      x, hx⟩ with hold | hnew
    · exact hempty q x ((hold q x).mpr hx)
    · obtain ⟨st', s', c', hturn', hputs', hsame⟩ := hnew
      obtain ⟨r, y, hy⟩ := hfile st' s' d c' hturn' hputs'
      exact hempty r y ((hsame r y).mpr hy)
  · intro h T _ st s d c hturn hputs ⟨q, x, hx⟩
    exact absurd hx (h st s d c hturn hputs q x)

end

/-! ### The two tools -/

/-- What the second loop of `sync_skills.py` leaves behind: it removes an entry of the trash, file
by file, and moves a directory there. -/
inductive ArchivePoint (st₀ : Syncing) : Tree → Prop
  | between (done : List Text) (st : Syncing)
    (h : Reaches archiveEntry (entries st₀.dest) st₀ done st) : ArchivePoint st₀ st.dest
  | removing (done : List Text) (st : Syncing) (entry : Text) (gone : List (Path Text)) (T : Tree)
      (h : Reaches archiveEntry (entries st₀.dest) st₀ done st) (hentry : Archivable st entry)
      (hgone : ∀ p ∈ gone, [trash, entry] <+: p)
        (hT : st.dest.runOps (gone.map .unlink) = some T) : ArchivePoint st₀ T

/-- The skills that `collect_commit.py` has a turn for, if it comes to its loop. -/
def handled (repoFiles srcFiles : List (Path Text × File)) : List Skill :=
  if (collectSkillDirs repoFiles).2 then (collectSkillDirs srcFiles).1 else []

/-- What a run of `collect_commit.py` leaves behind. -/
def CollectPoint (W : Places) (skills src : Tree) (repoFiles srcFiles : List (Path Text × File)) :
    Tree → Prop :=
  (collectPlacer W src).Point (handled repoFiles srcFiles) (start skills repoFiles)

/-- What a run of `sync_skills.py` leaves behind. -/
def SyncPoint (V : SyncPlaces) (repo dest : Tree) (repoFiles : List (Path Text × File))
    (T : Tree) : Prop :=
  (syncPlacer V repo).Point (syncSkillDirs repoFiles).1 ⟨dest, [], [], [], []⟩ T ∨
    (forEach (copySkill V repo) (syncSkillDirs repoFiles).1 ⟨dest, [], [], [], []⟩).2 = true ∧
      ArchivePoint (forEach (copySkill V repo) (syncSkillDirs repoFiles).1 ⟨dest, [], [], [], []⟩).1
        T

variable {W : Places} {V : SyncPlaces} {src : Tree} {srcFiles repoFiles : List (Path Text × File)}

/-- The skill of a turn has a file of its own. -/
theorem own_of_turn {σ : Type*} {P : Placer σ} {st₀ st : σ} {s : Skill} {ss : List Skill}
    (hwalk : src.Walk skillMd visible srcFiles) (hss : ss ⊆ (collectSkillDirs srcFiles).1)
    (h : P.Turn ss st₀ st s) :
    ∃ x, ([skillMd], x) ∈ src.below s.path := by
  obtain ⟨done, rest, heq, -⟩ := h
  have hs : s ∈ (collectSkillDirs srcFiles).1 :=
    hss (heq ▸ List.mem_append_right _ (List.mem_cons_self ..))
  obtain ⟨x, hx, -⟩ := exists_of_mem_skillDirs hs
  exact ⟨x, Tree.mem_below.mpr (hwalk.mem_iff.mp hx).1⟩

/-- A copy has a file. -/
theorem exists_mem_copied {s : Skill} {x : File} (hx : ([skillMd], x) ∈ src.below s.path)
    (target : Text) :
    ∃ q x, (q, x) ∈ copied src s target := by
  unfold copied
  split_ifs
  · exact ⟨_, _, hx⟩
  · exact ⟨_, _, List.mem_map.mpr ⟨_, hx, rfl⟩⟩

/-- **A run that is interrupted** leaves each directory that was there, and to which it copies a
skill, the complete old or the complete new one, at every point and for either tool, if and only if
it copies to none that was there. -/
theorem interrupted_iff (W : Places) (V : SyncPlaces) (tree : Tree)
    (repoFiles : List (Path Text × File))
    (hwalk : src.Walk skillMd visible srcFiles) :
    ((∀ T, CollectPoint W tree src repoFiles srcFiles T →
        (collectPlacer W src).Complete (handled repoFiles srcFiles) (start tree repoFiles) T) ↔
      (collectPlacer W src).AllNew (handled repoFiles srcFiles) (start tree repoFiles)) ∧
    ((∀ T, SyncPoint V src tree srcFiles T →
      (syncPlacer V src).Complete (syncSkillDirs srcFiles).1 ⟨tree, [], [], [], []⟩ T) ↔
      (syncPlacer V src).AllNew (syncSkillDirs srcFiles).1 ⟨tree, [], [], [], []⟩) := by
  constructor
  · refine Placer.complete_iff ?_
    rintro st s d c hturn ⟨target, -, -, rfl⟩
    have hss : handled repoFiles srcFiles ⊆ (collectSkillDirs srcFiles).1 := by
      unfold handled
      split_ifs
      · exact List.Subset.refl _
      · exact List.nil_subset _
    obtain ⟨x, hx⟩ := own_of_turn hwalk hss hturn
    exact exists_mem_copied hx target
  · have hfile : ∀ st s d c,
        (syncPlacer V src).Turn (syncSkillDirs srcFiles).1 ⟨tree, [], [], [], []⟩ st s →
        (syncPlacer V src).Puts st s d c → ∃ q x, (q, x) ∈ c := by
      rintro st s d c hturn ⟨-, -, -, rfl⟩
      rw [syncSkillDirs_eq] at hturn
      obtain ⟨x, hx⟩ := own_of_turn hwalk (List.Subset.refl _) hturn
      exact ⟨_, _, hx⟩
    have hiff := Placer.complete_iff hfile
    constructor
    · exact fun h => hiff.mp fun T hT => h T (Or.inl hT)
    · exact fun h T _ st s d c hturn hputs ⟨q, x, hx⟩ => absurd hx (h st s d c hturn hputs q x)

/-! ### A skill that is not there, and one that is -/

/-- A repository with a skill `mine`. -/
def mineTree : Tree where
  files := [(["c".toList, "mine".toList, skillMd],
    .text (unlines ["---".toList, "name: mine".toList, "---".toList]))]
  nodup := by simp
  free := by simp

def mineFiles : List (Path Text × File) :=
  [(["c".toList, "mine".toList], .text (unlines ["---".toList, "name: mine".toList, "---".toList]))]

/-- The only turn is that for `foo`. -/
theorem turn_foo {σ : Type*} {P : Placer σ} {st₀ st : σ} {s : Skill}
    (h : P.Turn [fooSkill] st₀ st s) : s = fooSkill ∧ st = st₀ := by
  obtain ⟨done, rest, heq, hdone⟩ := h
  rcases done with - | ⟨e, done⟩
  · exact ⟨(List.cons.inj heq).1.symm, (Prod.mk.inj hdone).1.symm⟩
  · exact absurd (List.cons.inj heq).2 (by simp)

/-- Where `foo` comes beside `mine`, both directories are complete whenever a run ends. -/
theorem interrupted_iff_foo :
    (∀ T, CollectPoint samplePlaces mineTree (oneSkill fooLines) mineFiles (oneFile fooLines) T →
      (collectPlacer samplePlaces (oneSkill fooLines)).Complete
        (handled mineFiles (oneFile fooLines)) (start mineTree mineFiles) T) ∧
    (∀ T, SyncPoint syncPlaces (oneSkill fooLines) (ownSkill "mine".toList) (oneFile fooLines) T →
      (syncPlacer syncPlaces (oneSkill fooLines)).Complete (syncSkillDirs (oneFile fooLines)).1
        ⟨ownSkill "mine".toList, [], [], [], []⟩ T) := by
  constructor
  · refine (interrupted_iff samplePlaces syncPlaces mineTree mineFiles
      (walk_oneFile fooLines)).1.mpr ?_
    rintro st s d c hturn ⟨target, hgoes, -, -⟩ q x hx
    have hhandled : handled mineFiles (oneFile fooLines) = [fooSkill] := by
      rw [handled, if_pos (by decide +kernel)]
      rfl
    rw [hhandled] at hturn
    obtain ⟨rfl, rfl⟩ := turn_foo hturn
    have hnone : (start mineTree mineFiles).existing.get? fooSkill.name = none := by decide +kernel
    obtain ⟨-, rfl⟩ := hgoes.aims.unique (.new hnone rfl rfl)
    have hpath := congrArg Prod.fst (List.mem_singleton.mp hx)
    simp only [List.cons_append, List.cons.injEq] at hpath
    exact absurd hpath.2.1 (by decide +kernel)
  · refine (interrupted_iff samplePlaces syncPlaces (ownSkill "mine".toList) []
      (walk_oneFile fooLines)).2.mpr ?_
    rintro st s d c hturn ⟨-, rfl, -, -⟩ q x hx
    obtain ⟨rfl, -⟩ := turn_foo hturn
    have hpath := congrArg Prod.fst (List.mem_singleton.mp hx)
    exact absurd (List.cons.inj hpath).1 (by decide +kernel)

/-- Between the two calls `foo` is gone. -/
theorem not_complete_synced :
    ¬ ∀ (V : SyncPlaces) (repo dest : Tree) (repoFiles : List (Path Text × File)),
    repo.Walk skillMd visible repoFiles → ∀ T, SyncPoint V repo dest repoFiles T →
      (syncPlacer V repo).Complete (syncSkillDirs repoFiles).1 ⟨dest, [], [], [], []⟩ T := by
  intro h
  have hall := (Placer.complete_iff (P := syncPlacer syncPlaces (oneSkill fooLines)) fun st s d c hturn hputs => by
    obtain ⟨-, -, -, rfl⟩ := hputs
    obtain ⟨x, hx⟩ := own_of_turn (walk_oneFile fooLines) (List.Subset.refl _) hturn
    exact ⟨_, _, hx⟩).mp fun T hT => h syncPlaces _ (ownSkill "foo".toList) _ (walk_oneFile fooLines) T (Or.inl hT)
  exact hall ⟨ownSkill "foo".toList, [], [], [], []⟩ fooSkill ["foo".toList] _ ⟨[], [], rfl, rfl⟩
    ⟨by decide +kernel, rfl, by decide +kernel, rfl⟩ [skillMd] _ (List.mem_singleton.mpr rfl)

end OracleSkills.Tools
