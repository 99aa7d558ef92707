import OracleSkills.Tools.Collect

/-!
# What collecting leaves alone

A turn that places a skill removes what is at its destination. The index is by the names in the
frontmatters, the destination a path, so that another skill's directory may be there: one whose
folder has the name, one further down, or, where a category has a `SKILL.md` of its own, a whole
category. `Spares` says of a turn that it does not remove such a directory for good.

`collect_preserves_iff`: as long as every turn spares the skills that were there before the run,
each is there with its `SKILL.md` unchanged, or has been replaced by a newer one of the same skill
and is reported as updated; and every state that a run reaches is like that only if every turn
spares them.

What is *not* formalized: symbolic links. A skill that is reached through one is in no tree of the
model.
-/

namespace OracleSkills.Tools

open Python Frontmatter Files

/-- The file of the same skill in the source: of the same name, author and birth. -/
def SameSkill (src : Tree) (x y : File) : Prop :=
  ∃ q, SkillFile src q y ∧ y.name = x.name ∧ identity y.fm = identity x.fm

/-- The skill in `p` still has its `SKILL.md`, or is reported as updated and has that of the same
skill. -/
def Keeps (src : Tree) (st : Collection) (p : Path Text) (x : File) : Prop :=
  (p ++ [skillMd], x) ∈ st.skills ∨ x.name ∈ st.updated ∧ ∃ y, SameSkill src x y ∧
    (p ++ [skillMd], y) ∈ st.skills

/-- Every skill that was there before the run is kept. -/
def Preserves (skills src : Tree) (st : Collection) : Prop :=
  ∀ p x, SkillFile skills p x → Keeps src st p x

/-- What is copied puts the same `SKILL.md` at `r` again, or, of a skill that is reported as
updated with this turn or before it, that of the same skill. -/
def Restores (src : Tree) (st : Collection) (s : Skill) (target : Text) (r : Path Text)
    (x : File) : Prop :=
  (r ++ [skillMd], x) ∈ copied src s target ∨
    (x.name ∈ st.updated ∨ (x.name = s.name ∧ Updates st s)) ∧
      ∃ y, SameSkill src x y ∧ (r ++ [skillMd], y) ∈ copied src s target

/-- If the skill comes to be placed, and no file is in its way, then every skill at its destination
or below it is restored. -/
def Spares (W : Places) (skills src : Tree) (st : Collection) (s : Skill) : Prop :=
  ∀ target dest, Goes W st s target dest → st.skills.Clear dest →
    ∀ r x, SkillFile skills (dest ++ r) x → Restores src st s target r x

variable {W : Places} {skills src : Tree} {st st' : Collection} {s : Skill} {target : Text}
  {dest p r : Path Text} {x : File}

theorem Keeps.still (h : Keeps src st p x) (hst : Still st st') : Keeps src st' p x := by
  rcases h with h | ⟨hname, y, hy, h⟩
  · exact Or.inl (hst.skills ▸ h)
  · exact Or.inr ⟨hst.updated _ hname, y, hy, hst.skills ▸ h⟩

/-- What is at a destination after the skill is placed is what was copied, -/
theorem keeps_below_iff {t : Tree} (hr : st.skills.replaceDir dest (copied src s target) = some t)
    (hp : Placed st s target dest t st') :
    Keeps src st' (dest ++ r) x ↔ Restores src st s target r x := by
  unfold Keeps Restores
  simp only [hp.skills, hp.updated, List.append_assoc, Tree.append_mem_replaceDir hr]

/-- and what is elsewhere is what was there. -/
theorem Keeps.placed {t : Tree} (h : Keeps src st p x)
    (hr : st.skills.replaceDir dest (copied src s target) = some t)
    (hp : Placed st s target dest t st') (hd : ¬ dest <+: p) : Keeps src st' p x := by
  have hmem : ∀ y, (p ++ [skillMd], y) ∈ st.skills → (p ++ [skillMd], y) ∈ st'.skills := by
    intro y hy
    rw [hp.skills, Tree.mem_replaceDir_of_not_prefix hr]
    · exact hy
    · intro hpre
      rcases List.prefix_concat_iff.mp hpre with rfl | hpre
      · exact Tree.clear_of_replaceDir hr _ hy (List.prefix_refl _)
      · exact hd hpre
  rcases h with h | ⟨hname, y, hy, h⟩
  · exact Or.inl (hmem x h)
  · exact Or.inr ⟨(hp.updated _).mpr (Or.inl hname), y, hy, hmem y h⟩

/-- **A turn** keeps the skills exactly if it spares them. -/
theorem spares_iff (h : Preserves skills src st) :
    Spares W skills src st s ↔ ∀ st', collectSkill W src st s = some st' →
        Preserves skills src st' := by
  constructor
  · intro hspares st' hturn p x hx
    rcases collectSkill_cases hturn with hstill | ⟨target, dest, t, hgoes, hr, hplaced⟩
    · exact (h p x hx).still hstill
    · by_cases hd : dest <+: p
      · obtain ⟨r, rfl⟩ := hd
        rw [keeps_below_iff hr hplaced]
        exact hspares target dest hgoes (Tree.clear_of_replaceDir hr) r x hx
      · exact (h p x hx).placed hr hplaced hd
  · intro hturn target dest hgoes hclear r x hx
    obtain ⟨t, hr⟩ := Tree.replaceDir_isSome_iff.mpr hclear
    obtain ⟨st', heq, hplaced⟩ := hgoes.placed hr
    exact (keeps_below_iff hr hplaced).mp (hturn st' heq _ _ hx)

theorem preserves_start (skills src : Tree) (repoFiles : List (Path Text × File)) :
    Preserves skills src (start skills repoFiles) := fun _ _ hx =>
      Or.inl (Tree.mem_holding.mp hx.1).1

/-- The turns of a run all spare the skills that were there. -/
def AllSpare (W : Places) (skills src : Tree) (repoFiles srcFiles : List (Path Text × File)) :
    Prop :=
  Along (collectSkill W src) (fun _ => Spares W skills src) [] (collectSkillDirs srcFiles).1
    (start skills repoFiles)

/-- A run reaches the state `st`. -/
def CollectReaches (W : Places) (skills src : Tree) (repoFiles srcFiles : List (Path Text × File))
    (st : Collection) :
    Prop :=
  ∃ done, Reaches (collectSkill W src) (collectSkillDirs srcFiles).1
    (start skills repoFiles) done st

/-- Every state that a run reaches keeps the skills exactly if every turn spares them. -/
theorem allSpare_iff (W : Places) (skills src : Tree)
    (repoFiles srcFiles : List (Path Text × File)) :
    AllSpare W skills src repoFiles srcFiles ↔
      ∀ st, CollectReaches W skills src repoFiles srcFiles st → Preserves skills src st := by
  have hstep : ∀ (_ : List Skill) (st : Collection) (s : Skill), Preserves skills src st →
      (Spares W skills src st s ↔ ∀ st', collectSkill W src st s = some st' →
          Preserves skills src st') :=
    fun _ _ _ h => spares_iff h
  unfold AllSpare CollectReaches
  rw [along_iff (I := fun _ st => Preserves skills src st) hstep
    (preserves_start skills src repoFiles)]
  exact ⟨fun h st ⟨done, hst⟩ => h done st hst, fun h done st hst => h st ⟨done, hst⟩⟩

/-- **Collecting spares the other skills** exactly as long as every turn does: a run whose turns
all spare the skills that were there has kept each of them at its end, and if every state that a
run reaches keeps them, every turn has spared them. -/
theorem collect_preserves (W : Places) (skills src : Tree)
    (repoFiles srcFiles : List (Path Text × File)) :
    (AllSpare W skills src repoFiles srcFiles →
        Preserves skills src (collectCommit W skills src repoFiles srcFiles).1) ∧
      ((∀ st, CollectReaches W skills src repoFiles srcFiles st → Preserves skills src st) →
        AllSpare W skills src repoFiles srcFiles) := by
  refine ⟨fun h => ?_, (allSpare_iff W skills src repoFiles srcFiles).mpr⟩
  unfold collectCommit
  split_ifs with hend
  · obtain ⟨done, rest, hxs, hdone⟩ :=
      exists_forEach (collectSkill W src) (collectSkillDirs srcFiles).1 (start skills repoFiles)
    exact (allSpare_iff W skills src repoFiles srcFiles).mp h _ ⟨done, rest, hxs, hdone⟩
  · exact preserves_start skills src []

/-! ### A skill swept away -/

/-- A skill `bar` of somebody's own, in a folder `foo`. -/
def barLines : List Text := ["---".toList, "name: bar".toList, "---".toList]

/-- `foo` is new, and is placed at `c/foo`: `bar` is gone, and no list says so. -/
theorem not_preserves_foo :
    ¬ ∀ (W : Places) (skills src : Tree) (repoFiles srcFiles : List (Path Text × File)),
    skills.Walk skillMd visible repoFiles → src.Walk skillMd visible srcFiles →
      Preserves skills src (collectCommit W skills src repoFiles srcFiles).1 := by
  intro h
  have hbar : SkillFile (oneSkill barLines) ["c".toList, "foo".toList]
      (.text (unlines barLines)) := by
    unfold SkillFile
    decide +kernel
  have hkeep := h samplePlaces (oneSkill barLines) (oneSkill fooLines) (oneFile barLines)
    (oneFile fooLines)
    (walk_oneFile _) (walk_oneFile _) _ _ hbar
  rcases hkeep with hkeep | ⟨hkeep, -⟩
  · rw [Tree.mem_def] at hkeep
    revert hkeep
    decide +kernel
  · revert hkeep
    decide +kernel

end OracleSkills.Tools
