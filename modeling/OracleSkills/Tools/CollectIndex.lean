import OracleSkills.Tools.CollectSpares
import OracleSkills.Tools.CollectTwice
import OracleSkills.Tools.Renamed

/-!
# The index of a run

`collect_commit.py` scans `skills/` once, and from then on keeps its index in step with what it
places. In a tree where each skill's name is its folder's and no other's, another scan should give
the index that the run has ended with. The index has the target of a skill that is renamed; the copy
has it only if `.replace(f"name: {name}", f"name: {target}", 1)` meets the line that `_fm` reads.

`collect_rescans_iff`: every state that a run reaches, and so its last one, is scanned to its index
if what each turn copies `Fits`: in the `SKILL.md` of a skill that is renamed the first
`name: <name>` is where its name is read from (`Renames`), and the directory brings or removes no
other skill of the index. Where each `SKILL.md` of the source is written as it should be
(`File.Regular`), only then. Of trees in which the skills stand at `<category>/<name>`, none inside
another, the turns fit if the sources can be renamed at all (`allFit_of_shelved`).

What is *not* formalized: symbolic links, which the trees do not have, and the decoding of bytes,
which a file either withstands or not. The converse is not shown of files that are not as they
should be written: there an occurrence that overlaps the closing fence, or a second name, can cut
the frontmatter or go on with it so that the target is read by accident.
-/

namespace OracleSkills.Tools

open Python Frontmatter Files

/-- The name of a directory of `skills/`. -/
def folder (p : Path Text) : Text := p.getLast?.getD "skills".toList

/-- Each skill's name is its folder's, and no other skill's. -/
structure Tidy (t : Tree) : Prop where
  readable : Readable t
  folder_eq : ∀ p x, SkillFile t p x → folder p = x.name
  unique : ∀ p q x y, SkillFile t p x → SkillFile t q y → x.name = y.name → p = q

/-- Scanning the tree again gives the index. -/
structure Rescans (st : Collection) : Prop where
  tidy : Tidy st.skills
  scan : ∀ files, st.skills.Walk skillMd visible files → (collectSkillDirs files).2 = true ∧
    ∀ n, (index (collectSkillDirs files).1).get? n = st.existing.get? n

/-- The entry of a skill. -/
def entryOf (p : Path Text) (x : File) : Known := ⟨x.hash, p, identity x.fm⟩

/-- What the skill's directory in the source says of a copy of it that is placed as `target`. -/
structure Fits (src : Tree) (st : Collection) (s : Skill) (target : Text) (dest : Path Text) :
    Prop where
  /-- The `SKILL.md` of a skill that is renamed has its first `name: <name>` where its name is read
  from. -/
  renames : target ≠ s.name →
    ∃ x text, (s.path ++ [skillMd], x) ∈ src ∧ x.read = some text ∧ Renames s.name target text
  /-- Each `SKILL.md` of the directory can be decoded, -/
  readable : Readable (src.below s.path)
  /-- a skill further down in it is in the index as it is copied along, -/
  others : ∀ q x, SkillFile (src.below s.path) q x → q ≠ [] →
    x.name ≠ target ∧ st.existing.get? x.name = some (entryOf (dest ++ q) x)
  /-- and so is each other skill of the index that stands in the destination. -/
  kept : ∀ n known, n ≠ target → st.existing.get? n = some known → dest <+: known.path →
    ∃ q x, SkillFile (src.below s.path) q x ∧ q ≠ [] ∧ x.name = n ∧ known = entryOf (dest ++ q) x

/-- What the turn copies fits, if the skill comes to be placed and no file is in its way. -/
def TurnFits (W : Places) (src : Tree) (st : Collection) (s : Skill) : Prop :=
  ∀ target dest, Goes W st s target dest → st.skills.Clear dest → Fits src st s target dest

/-- The index has the skills of the tree, which is tidy. -/
structure Indexed (st : Collection) : Prop where
  tidy : Tidy st.skills
  agrees : ∀ n known, st.existing.get? n = some known ↔ ∃ p x, SkillFile st.skills p x ∧
    x.name = n ∧ known = entryOf p x

variable {W : Places} {skills src t : Tree} {st st' : Collection} {s : Skill} {target : Text}
  {dest p q : Path Text} {x : File} {repoFiles srcFiles : List (Path Text × File)}

/-! ### Scanning -/

/-- The index of a scan has the skills of the tree. -/
theorem index_scan (ht : Tidy t) (hwalk : t.Walk skillMd visible repoFiles) {n : Text}
    {known : Known} :
    (index (collectSkillDirs repoFiles).1).get? n = some known ↔ ∃ p x, SkillFile t p x ∧
        x.name = n ∧ known = entryOf p x := by
  have hof : ∀ {s : Skill}, s ∈ (collectSkillDirs repoFiles).1 →
      ∃ x, SkillFile t s.path x ∧ x.name = s.name ∧
          (⟨s.hash, s.path, s.identity⟩ : Known) = entryOf s.path x := by
    intro s hs
    obtain ⟨x, hx, hof⟩ := exists_of_mem_skillDirs hs
    refine ⟨x, ⟨hwalk.1.mem_iff.mp hx, hof.name ▸ hof.named⟩, hof.name.symm, ?_⟩
    rw [Skill.hash, Skill.identity, hof.fm]
    rfl
  constructor
  · intro h
    obtain ⟨s, hs, rfl, rfl⟩ := exists_of_index h
    obtain ⟨x, hx, hname, hentry⟩ := hof hs
    exact ⟨s.path, x, hx, hname, hentry⟩
  · rintro ⟨p, x, hx, rfl, rfl⟩
    obtain ⟨s, hs, hpath, hsx⟩ :=
      exists_mem_skillDirs (skillDirs_ends hwalk ht.readable) (hwalk.1.mem_iff.mpr hx.1) hx.2
    obtain ⟨known, hk⟩ := Option.ne_none_iff_exists'.mp (index_ne_none hs)
    rw [← hsx.name, hk, Option.some.injEq]
    -- the entry is that of a skill of the same name
    obtain ⟨s', hs', hname, rfl⟩ := exists_of_index hk
    obtain ⟨y, hy, hyname, hentry⟩ := hof hs'
    have hpath' : s'.path = p := ht.unique _ _ _ _ hy hx (by rw [hyname, hname, hsx.name])
    rw [hpath'] at hy
    rw [hentry, hpath', Tree.eq_of_mem (Tree.mem_holding.mp hy.1).1 (Tree.mem_holding.mp hx.1).1]

theorem indexed_iff_rescans : Indexed st ↔ Rescans st := by
  constructor
  · intro h
    refine ⟨h.tidy, fun files hwalk =>
      ⟨skillDirs_ends hwalk h.tidy.readable, fun n => Option.ext fun known => ?_⟩⟩
    rw [index_scan h.tidy hwalk, h.agrees]
  · intro h
    obtain ⟨files, hwalk⟩ := st.skills.exists_walk skillMd visible
    refine ⟨h.tidy, fun n known => ?_⟩
    rw [← (h.scan files hwalk).2 n, index_scan h.tidy hwalk]

/-! ### A turn -/

/-- The name of a skill of a tree that is indexed is in the index, as the skill is. -/
theorem Indexed.entry (h : Indexed st) (hx : SkillFile st.skills p x) :
    st.existing.get? x.name = some (entryOf p x) :=
  (h.agrees _ _).mpr ⟨p, x, hx, rfl, rfl⟩

/-- A skill is placed where a walk finds it, in a folder of its name, -/
theorem Indexed.placeable (h : Indexed st) (hgoes : Goes W st s target dest) :
    dest.all visible ∧ folder dest = target := by
  have hfolder : ∀ n, folder [s.category, n] = n := fun _ => rfl
  have hvisible : ∀ {n}, badSegment n = none → [s.category, n].all visible := fun hn => by
    simp [visible_of_badSegment hgoes.eligible.category_ok, visible_of_badSegment hn]
  cases hgoes.aims with
  | new _ ht hd =>
    subst hd
    exact ⟨hvisible hgoes.eligible.name_ok, ht ▸ hfolder _⟩
  | update known hk _ _ ht hd =>
    obtain ⟨p, x, hx, hname, rfl⟩ := (h.agrees _ _).mp hk
    rw [hd, ht, ← hname]
    exact ⟨(Tree.mem_holding.mp hx.1).2, h.tidy.folder_eq _ _ hx⟩
  | rename _ _ _ _ _ hd =>
    subst hd
    exact ⟨hvisible hgoes.target_ok, hfolder _⟩

/-- and no other skill has its target's name. -/
theorem Indexed.target_unique (h : Indexed st) (hgoes : Goes W st s target dest)
    (hx : SkillFile st.skills p x) (hname : x.name = target) : p = dest := by
  have hentry := h.entry hx
  rw [hname] at hentry
  cases hgoes.aims with
  | new hk ht =>
    rw [ht, hk] at hentry
    cases hentry
  | update known hk _ _ ht hd =>
    rw [ht, hk, Option.some.injEq] at hentry
    rw [hd, hentry]
    rfl
  | rename known hk _ _ ht =>
    have hfresh := freshTarget_not_mem st.existing.keys s.name s.author
    rw [← ht, ← Dict.get?_eq_none_iff] at hfresh
    rw [hfresh] at hentry
    cases hentry

/-- A tree with a `SKILL.md` at its top is no file. -/
theorem not_file_of_holding (hx : ([], x) ∈ t.holding skillMd visible) (y : File) :
    ([], y) ∉ t := by
  intro hy
  cases Tree.eq_nil_of_mem hy (Tree.mem_holding.mp hx).1

/-- The skills after a skill has been placed: those outside of its destination, and the copies. -/
theorem skillFile_placed (hr : st.skills.replaceDir dest (copied src s target) = some t)
    (hvisible : dest.all visible)
    (htop : ([], x) ∈ (copied src s target).holding skillMd visible) {y : File} :
    SkillFile t p y ↔ (SkillFile st.skills p y ∧ ¬ dest <+: p) ∨ ∃ q, p = dest ++ q ∧
        SkillFile (copied src s target) q y := by
  unfold SkillFile
  rw [Tree.mem_holding_replaceDir hr (not_file_of_holding htop) hvisible]
  constructor
  · rintro ⟨⟨hy, hp⟩ | ⟨q, hq, hy⟩, hname⟩
    · exact Or.inl ⟨⟨hy, hname⟩, hp⟩
    · exact Or.inr ⟨q, hq, hy, hname⟩
  · rintro (⟨⟨hy, hname⟩, hp⟩ | ⟨q, hq, hy, hname⟩)
    · exact ⟨Or.inl ⟨hy, hp⟩, hname⟩
    · exact ⟨Or.inr ⟨q, hq, hy⟩, hname⟩

/-- What is copied is read as the skill `target`, and leaves the rest of the index true. -/
structure Copies (src : Tree) (st : Collection) (s : Skill) (target : Text) (dest : Path Text) :
    Prop where
  named : ∃ x, ([], x) ∈ (copied src s target).holding skillMd visible ∧ x.name = target ∧
    entryOf dest x = ⟨s.hash, dest, s.identity⟩
  readable : Readable (copied src s target)
  others : ∀ q x, SkillFile (copied src s target) q x → q ≠ [] →
    x.name ≠ target ∧ st.existing.get? x.name = some (entryOf (dest ++ q) x)
  kept : ∀ n known, n ≠ target → st.existing.get? n = some known → dest <+: known.path →
    ∃ q x, SkillFile (copied src s target) q x ∧ x.name = n ∧ known = entryOf (dest ++ q) x

/-- **A copy that is read as the target keeps the index**, -/
theorem Indexed.placed (h : Indexed st) (hgoes : Goes W st s target dest)
    (hr : st.skills.replaceDir dest (copied src s target) = some t)
    (hplaced : Placed st s target dest t st')
    (hcopies : Copies src st s target dest) : Indexed st' := by
  obtain ⟨x₀, hx₀, hname₀, hentry₀⟩ := hcopies.named
  obtain ⟨hvisible, hfolder⟩ := h.placeable hgoes
  have hskill : ∀ {p y}, SkillFile st'.skills p y ↔
      (SkillFile st.skills p y ∧ ¬ dest <+: p) ∨ ∃ q, p = dest ++ q ∧
          SkillFile (copied src s target) q y := by
    rw [hplaced.skills]
    exact skillFile_placed hr hvisible hx₀
  have htop : SkillFile (copied src s target) [] x₀ :=
    ⟨hx₀, hname₀ ▸ ne_nil_of_badSegment hgoes.target_ok⟩
  have hunique : ∀ {y}, SkillFile (copied src s target) [] y → y = x₀ := fun hy =>
    Tree.eq_of_mem (Tree.mem_holding.mp hy.1).1 (Tree.mem_holding.mp hx₀).1
  -- every skill of the new tree is in the new index
  have hindex : ∀ p y, SkillFile st'.skills p y →
      st'.existing.get? y.name = some (entryOf p y) := by
    intro p y hy
    rw [hplaced.existing]
    rcases hskill.mp hy with ⟨hold, hp⟩ | ⟨q, rfl, hc⟩
    · have hne : y.name ≠ target := by
        intro hname
        exact hp (h.target_unique hgoes hold hname ▸ List.prefix_refl _)
      rw [Dict.get?_set_of_ne _ hne, h.entry hold]
    · by_cases hq : q = []
      · subst hq
        rw [hunique hc, hname₀, Dict.get?_set_self, List.append_nil, hentry₀]
      · obtain ⟨hne, hold⟩ := hcopies.others q y hc hq
        rw [Dict.get?_set_of_ne _ hne, hold]
  refine ⟨⟨fun p y hy => ?_, fun p y hy => ?_, fun p q y z hy hz hname => ?_⟩,
    fun n known => ⟨fun hn => ?_, ?_⟩⟩
  · rw [hplaced.skills, Tree.mem_holding_replaceDir hr (not_file_of_holding hx₀) hvisible] at hy
    rcases hy with ⟨hy, -⟩ | ⟨q, -, hy⟩
    · exact h.tidy.readable p y hy
    · exact hcopies.readable q y hy
  · rcases hskill.mp hy with ⟨hold, -⟩ | ⟨q, rfl, hc⟩
    · exact h.tidy.folder_eq p y hold
    · by_cases hq : q = []
      · subst hq
        rw [List.append_nil, hfolder, hunique hc, hname₀]
      · obtain ⟨p, z, hz, hname, hentry⟩ := (h.agrees _ _).mp (hcopies.others q y hc hq).2
        have hpath : dest ++ q = p := congrArg Known.path hentry
        rw [hpath, h.tidy.folder_eq p z hz, hname]
  · have hy' := hindex p y hy
    rw [hname, hindex q z hz, Option.some.injEq] at hy'
    exact (congrArg Known.path hy').symm
  · by_cases hnt : n = target
    · rw [hplaced.existing, hnt, Dict.get?_set_self, Option.some.injEq] at hn
      refine ⟨dest, x₀, hskill.mpr (Or.inr ⟨[], (List.append_nil _).symm, htop⟩),
        hname₀.trans hnt.symm, ?_⟩
      rw [← hn, hentry₀]
    · rw [hplaced.existing, Dict.get?_set_of_ne _ hnt] at hn
      obtain ⟨p, y, hy, hname, rfl⟩ := (h.agrees _ _).mp hn
      by_cases hp : dest <+: p
      · obtain ⟨q, z, hz, hzname, hentry⟩ := hcopies.kept n _ hnt hn hp
        exact ⟨dest ++ q, z, hskill.mpr (Or.inr ⟨q, rfl, hz⟩), hzname, hentry⟩
      · exact ⟨p, y, hskill.mpr (Or.inl ⟨hy, hp⟩), hname, rfl⟩
  · rintro ⟨p, y, hy, rfl, rfl⟩
    exact hindex p y hy

/-- and only such a copy does. -/
theorem Indexed.copies (h : Indexed st) (hgoes : Goes W st s target dest)
    (hr : st.skills.replaceDir dest (copied src s target) = some t)
    (hplaced : Placed st s target dest t st')
    (h' : Indexed st') : Copies src st s target dest := by
  obtain ⟨hvisible, -⟩ := h.placeable hgoes
  have hself : st'.existing.get? target = some ⟨s.hash, dest, s.identity⟩ := by
    rw [hplaced.existing, Dict.get?_set_self]
  have hother : ∀ {n}, n ≠ target → st'.existing.get? n = st.existing.get? n := fun hn => by
    rw [hplaced.existing, Dict.get?_set_of_ne _ hn]
  obtain ⟨p, x, hx, hname, hentry⟩ := (h'.agrees _ _).mp hself
  obtain rfl : dest = p := congrArg Known.path hentry
  have htop : ([], x) ∈ (copied src s target).holding skillMd visible := by
    have hmem := (Tree.mem_holding.mp hx.1).1
    rw [hplaced.skills, Tree.append_mem_replaceDir hr] at hmem
    exact Tree.mem_holding.mpr ⟨hmem, rfl⟩
  have hskill : ∀ {p y}, SkillFile st'.skills p y ↔
      (SkillFile st.skills p y ∧ ¬ dest <+: p) ∨ ∃ q, p = dest ++ q ∧
          SkillFile (copied src s target) q y := by
    rw [hplaced.skills]
    exact skillFile_placed hr hvisible htop
  refine ⟨⟨x, htop, hname, hentry.symm⟩, fun q y hy => ?_, fun q y hy hq => ?_,
    fun n known hn hk hp => ?_⟩
  · refine h'.tidy.readable (dest ++ q) y ?_
    rw [hplaced.skills, Tree.mem_holding_replaceDir hr (not_file_of_holding htop) hvisible]
    exact Or.inr ⟨q, rfl, hy⟩
  · have hy' := hskill.mpr (Or.inr ⟨q, rfl, hy⟩)
    have hne : y.name ≠ target := by
      intro he
      exact hq (List.append_right_eq_self.mp (h'.tidy.unique _ _ _ _ hy' hx (he.trans hname.symm)))
    exact ⟨hne, by rw [← hother hne, h'.entry hy']⟩
  · rw [← hother hn] at hk
    obtain ⟨p, y, hy, hyname, rfl⟩ := (h'.agrees _ _).mp hk
    rcases hskill.mp hy with ⟨-, hno⟩ | ⟨q, rfl, hc⟩
    · exact absurd hp hno
    · exact ⟨q, y, hc, hyname, rfl⟩

/-! ### What is copied, by the source -/

theorem mem_holding_copied_of_ne (hq : q ≠ []) :
    (q, x) ∈ (copied src s target).holding skillMd visible ↔
        (q, x) ∈ (src.below s.path).holding skillMd visible := by
  have hne : q ++ [skillMd] ≠ [skillMd] := fun h => hq (List.append_left_eq_self.mp h)
  rw [Tree.mem_holding, Tree.mem_holding, mem_copied_of_ne hne, Tree.mem_below]

theorem skillFile_copied_of_ne (hq : q ≠ []) :
    SkillFile (copied src s target) q x ↔ SkillFile (src.below s.path) q x :=
  and_congr_left fun _ => mem_holding_copied_of_ne hq

/-- The target of a skill that comes to be placed is a name as the reader of frontmatters reads
it. -/
theorem Goes.segment (h : Goes W st s target dest) (hof : s.Of x) :
    (Segment s.name ∧ OneLine s.name) ∧ Segment target ∧ OneLine target := by
  have hname := hof.oneLine_name
  have htarget : OneLine target := by
    cases h.aims with
    | new _ ht => exact ht ▸ hname
    | update _ _ _ _ ht => exact ht ▸ hname
    | rename _ _ _ _ ht => exact ht ▸ oneLine_freshTarget _ hname hof.oneLine_author
  exact ⟨⟨segment_of_badSegment h.eligible.name_ok hname, hname⟩,
    segment_of_badSegment h.target_ok htarget, htarget⟩

/-- **The copy of the skill's own file** is read as the target, with the skill's hash and identity,
and the same body. -/
theorem Goes.exists_copy (h : Goes W st s target dest)
    (hx : (s.path, x) ∈ src.holding skillMd visible) (hof : s.Of x)
    (hrenames : target ≠ s.name → ∃ x text, (s.path ++ [skillMd], x) ∈ src ∧ x.read = some text ∧
      Renames s.name target text) :
    ∃ y, ([], y) ∈ (copied src s target).holding skillMd visible ∧ (∃ text, y.read = some text) ∧
        ReadsAs target x y := by
  have hmem := (Tree.mem_holding.mp hx).1
  have htop : ∀ {y}, y = (if target = s.name then x else renameText s.name target x) →
      ([], y) ∈ (copied src s target).holding skillMd visible := fun hy =>
    Tree.mem_holding.mpr ⟨mem_copied_skillMd.mpr ⟨x, hmem, hy⟩, rfl⟩
  by_cases ht : target = s.name
  · exact ⟨x, htop (if_pos ht).symm, hof.readable, ⟨hof.name ▸ ht.symm, rfl, rfl, rfl⟩⟩
  · obtain ⟨z, text, hz, hread, hren⟩ := hrenames ht
    obtain rfl := Tree.eq_of_mem hz hmem
    obtain ⟨⟨hname, hline⟩, htarget, htline⟩ := h.segment hof
    exact ⟨_, htop (if_neg ht).symm, ⟨_, read_renameText s.name hread htline⟩,
      hren.readsAs hread hname hline htarget htline⟩

/-- What fits is read as the target when it has been copied, and leaves the rest of the index
true. -/
theorem Fits.copies (h : Fits src st s target dest) (hgoes : Goes W st s target dest)
    (hy : Yielded src s) :
    Copies src st s target dest := by
  obtain ⟨x, hx, hof⟩ := hy
  obtain ⟨y, hy, hread, hreads⟩ := hgoes.exists_copy hx hof h.renames
  refine ⟨⟨y, hy, hreads.name, ?_⟩, fun q z hz => ?_, fun q z hz hq => ?_,
    fun n known hn hk hp => ?_⟩
  · rw [entryOf, hreads.hash, hreads.identity, Skill.hash, Skill.identity, hof.fm]
    rfl
  · by_cases hq : q = []
    · subst hq
      rwa [Tree.eq_of_mem (Tree.mem_holding.mp hz).1 (Tree.mem_holding.mp hy).1]
    · exact h.readable q z ((mem_holding_copied_of_ne hq).mp hz)
  · exact h.others q z ((skillFile_copied_of_ne hq).mp hz) hq
  · obtain ⟨q, z, hz, hq, hname, hentry⟩ := h.kept n known hn hk hp
    exact ⟨q, z, (skillFile_copied_of_ne hq).mpr hz, hname, hentry⟩

theorem Indexed.still (h : Indexed st) (hst : Still st st') : Indexed st' where
  tidy := hst.skills ▸ h.tidy
  agrees := by
    rw [hst.skills, hst.existing]
    exact h.agrees

/-- **A turn** keeps the index if what it copies fits. -/
theorem Indexed.step (h : Indexed st) (hy : Yielded src s) (hfits : TurnFits W src st s)
    (hturn : collectSkill W src st s = some st') : Indexed st' := by
  rcases collectSkill_cases hturn with hstill | ⟨target, dest, t, hgoes, hr, hplaced⟩
  · exact h.still hstill
  · exact h.placed hgoes hr hplaced
      ((hfits target dest hgoes (Tree.clear_of_replaceDir hr)).copies hgoes hy)

/-- **A turn that keeps the index** fits, if the skill's `SKILL.md` is written as it should be. -/
theorem Indexed.turnFits (h : Indexed st) (hy : Yielded src s)
    (hreg : ∀ p x, SkillFile src p x → x.Regular)
    (hturn : ∀ st', collectSkill W src st s = some st' → Indexed st') : TurnFits W src st s := by
  intro target dest hgoes hclear
  obtain ⟨t, hr⟩ := Tree.replaceDir_isSome_iff.mpr hclear
  obtain ⟨st', heq, hplaced⟩ := hgoes.placed hr
  have hcopies := h.copies hgoes hr hplaced (hturn st' heq)
  obtain ⟨x, hx, hof⟩ := hy
  obtain ⟨text, hread⟩ := hof.readable
  have hmem := (Tree.mem_holding.mp hx).1
  obtain ⟨⟨hname, hline⟩, htarget, htline⟩ := hgoes.segment hof
  refine ⟨fun hne => ⟨x, text, hmem, hread, ?_⟩, fun q z hz => ?_, fun q z hz hq => ?_,
    fun n known hn hk hp => ?_⟩
  · obtain ⟨y, hy, hyname, -⟩ := hcopies.named
    obtain ⟨x', hx', rfl⟩ := mem_copied_skillMd.mp (Tree.mem_holding.mp hy).1
    obtain rfl := Tree.eq_of_mem hx' hmem
    rw [if_neg hne] at hyname
    exact (hreg s.path x' ⟨hx, hof.name ▸ hof.named⟩).renames hof hread hname htarget
      htline hne hyname
  · by_cases hq : q = []
    · subst hq
      rw [Tree.mem_holding, Tree.mem_below] at hz
      exact ⟨text, Tree.eq_of_mem hz.1 hmem ▸ hread⟩
    · exact hcopies.readable q z ((mem_holding_copied_of_ne hq).mpr hz)
  · exact hcopies.others q z ((skillFile_copied_of_ne hq).mpr hz) hq
  · obtain ⟨q, z, hz, hname', hentry⟩ := hcopies.kept n known hn hk hp
    have hq : q ≠ [] := by
      rintro rfl
      obtain ⟨y, hy, hyname, -⟩ := hcopies.named
      rw [Tree.eq_of_mem (Tree.mem_holding.mp hz.1).1 (Tree.mem_holding.mp hy).1, hyname] at hname'
      exact hn hname'.symm
    exact ⟨q, z, (skillFile_copied_of_ne hq).mp hz, hq, hname', hentry⟩

/-! ### Every run -/

theorem indexed_start (ht : Tidy skills) (hwalk : skills.Walk skillMd visible repoFiles) :
    Indexed (start skills repoFiles) :=
  ⟨ht, fun _ _ => index_scan ht hwalk⟩

/-- What the turns of a run copy all fits. -/
def AllFit (W : Places) (skills src : Tree) (repoFiles srcFiles : List (Path Text × File)) : Prop :=
  Along (collectSkill W src) (fun _ => TurnFits W src) [] (collectSkillDirs srcFiles).1
    (start skills repoFiles)

/-- Every state that a run reaches is indexed, if what its turns copy fits. -/
theorem AllFit.indexed (hwalk : skills.Walk skillMd visible repoFiles)
    (hsrc : src.Walk skillMd visible srcFiles)
    (ht : Tidy skills) (h : AllFit W skills src repoFiles srcFiles)
    (hst : CollectReaches W skills src repoFiles srcFiles st) :
    Indexed st := by
  obtain ⟨done, hst⟩ := hst
  exact Along.reaches (I := fun _ => Indexed)
    (fun _ _ _ s hs hI hfits hturn => hI.step (yielded_of_mem hsrc hs) hfits hturn)
      (indexed_start ht hwalk) h done st hst

/-- A run ends in a state that it reaches. -/
theorem reaches_end (hends : (collectSkillDirs repoFiles).2 = true) :
    CollectReaches W skills src repoFiles srcFiles
        (collectCommit W skills src repoFiles srcFiles).1 := by
  rw [collectCommit, if_neg (not_not.mpr hends)]
  obtain ⟨done, rest, hxs, hdone⟩ :=
    exists_forEach (collectSkill W src) (collectSkillDirs srcFiles).1 (start skills repoFiles)
  exact ⟨done, rest, hxs, hdone⟩

/-- **The index is what another scan gives**, in every state that a run reaches and so at its end,
if what every turn copies fits; and where each `SKILL.md` of the source is written as it should be,
only then. -/
theorem collect_rescans_iff (hwalk : skills.Walk skillMd visible repoFiles)
    (hsrc : src.Walk skillMd visible srcFiles) (ht : Tidy skills) :
    (AllFit W skills src repoFiles srcFiles →
      (∀ st, CollectReaches W skills src repoFiles srcFiles st → Rescans st) ∧
      Rescans (collectCommit W skills src repoFiles srcFiles).1) ∧
    ((∀ p x, SkillFile src p x → x.Regular) →
      (∀ st, CollectReaches W skills src repoFiles srcFiles st → Rescans st) →
      AllFit W skills src repoFiles srcFiles) := by
  constructor
  · intro h
    have hall : ∀ st, CollectReaches W skills src repoFiles srcFiles st →
        Rescans st := fun st hst =>
      indexed_iff_rescans.mp (h.indexed hwalk hsrc ht hst)
    exact ⟨hall, hall _ (reaches_end (skillDirs_ends hwalk ht.readable))⟩
  · intro hreg hall
    refine along_of_reaches (I := fun _ => Indexed) (fun _ st s hs hI hnext => ?_)
      (indexed_start ht hwalk)
      fun done st hst => indexed_iff_rescans.mpr (hall st ⟨done, hst⟩)
    exact hI.turnFits (yielded_of_mem hsrc hs) hreg hnext

theorem tidy_oneSkill {lines : List Text} (h : (File.text (unlines lines)).name = "foo".toList) :
    Tidy (oneSkill lines) := by
  have hpath : ∀ {p x}, SkillFile (oneSkill lines) p x → p = ["c".toList, "foo".toList] ∧
      x = .text (unlines lines) := by
    intro p x hx
    have hmem := (walk_oneFile lines).1.mem_iff.mpr hx.1
    cases List.mem_singleton.mp hmem
    exact ⟨rfl, rfl⟩
  refine ⟨readable_oneSkill lines, fun p x hx => ?_, fun p q x y hx hy _ => ?_⟩
  · obtain ⟨rfl, rfl⟩ := hpath hx
    exact h.symm
  · rw [(hpath hx).1, (hpath hy).1]

/-- Bob's `foo`, as the walk yields it. -/
def bobSkill : Skill := ⟨"foo".toList, ["c".toList, "foo".toList], collectFm (unlines bobLines)⟩

/-- Beside Alice's `foo` it fits, as `foo-bob`. -/
theorem turnFits_bob :
    TurnFits samplePlaces (oneSkill bobLines) (start (oneSkill aliceLines) (oneFile aliceLines))
    bobSkill := by
  intro target dest hgoes _
  have hknown : (start (oneSkill aliceLines) (oneFile aliceLines)).existing =
      [("foo".toList, ⟨"1".toList, ["c".toList, "foo".toList], "alice".toList, []⟩)] := by
        decide +kernel
  have hfresh : freshTarget (start (oneSkill aliceLines) (oneFile aliceLines)).existing.keys
      bobSkill.name bobSkill.author =
      "foo-bob".toList := by decide +kernel
  obtain ⟨rfl, rfl⟩ := hgoes.aims.unique
    (.rename ⟨"1".toList, ["c".toList, "foo".toList], "alice".toList, []⟩
    (by rw [hknown]; rfl) (by decide +kernel) (by decide +kernel) hfresh.symm rfl)
  have hbelow : ((oneSkill bobLines).below bobSkill.path).holding skillMd visible =
      [([], .text (unlines bobLines))] := by
    decide +kernel
  have htop : ∀ {q x}, (q, x) ∈ ((oneSkill bobLines).below bobSkill.path).holding skillMd visible →
      q = [] ∧ x = .text (unlines bobLines) := by
    intro q x hx
    rw [hbelow] at hx
    cases List.mem_singleton.mp hx
    exact ⟨rfl, rfl⟩
  refine ⟨fun _ => ⟨.text (unlines bobLines), unlines bobLines, ?_, ?_, ?_⟩, fun q x hx => ?_,
    fun q x hx hq => ?_, fun n known _ hk hp => ?_⟩
  · exact List.mem_singleton.mpr rfl
  · decide +kernel
  · refine ⟨['\n'], '\n' :: unlines (bobLines.tail.tail.dropLast), ['\n'],
      .of_all ?_ ?_ ?_ ?_ ?_, ?_⟩ <;> decide +kernel
  · rw [(htop hx).2]
    exact ⟨unlines bobLines, by decide +kernel⟩
  · exact absurd (htop hx.1).1 hq
  · rw [hknown, Dict.get?] at hk
    split_ifs at hk
    · cases hk
      exact absurd hp (by decide +kernel)
    · cases hk

theorem collect_rescans_iff_sample :
    Rescans (collectCommit samplePlaces (oneSkill aliceLines) (oneSkill bobLines)
      (oneFile aliceLines) (oneFile bobLines)).1 ∧
      (collectCommit samplePlaces (oneSkill aliceLines) (oneSkill bobLines) (oneFile aliceLines)
        (oneFile bobLines)).1.renamed =
        [("foo".toList, "foo-bob".toList)] := by
  have hfound : (collectSkillDirs (oneFile bobLines)).1 = [bobSkill] := rfl
  refine ⟨((collect_rescans_iff (walk_oneFile _) (walk_oneFile _)
    (tidy_oneSkill (by decide +kernel))).1 ?_).2, by decide +kernel⟩
  unfold AllFit
  rw [hfound]
  exact ⟨turnFits_bob, fun _ _ => trivial⟩

/-! ### Trees in which the skills stand apart -/

/-- The skills stand at `<category>/<name>`. -/
def Shelved (t : Tree) : Prop := ∀ p x, SkillFile t p x → ∃ c, p = [c, x.name]

/-- None of them stands inside another. -/
def Unnested (t : Tree) : Prop := ∀ p q x y, SkillFile t p x → SkillFile t (p ++ q) y → q = []

/-- A run may give the skill `e` the name `n`: its own, or one of those that it is renamed to. -/
def MayBeNamed (e : Skill) (n : Text) : Prop :=
  n = e.name ∨ ∃ k, n = candidate (e.name ++ '-' :: e.author) k

theorem mayBeNamed_of_aims (ha : Aims st s target dest) : MayBeNamed s target := by
  cases ha with
  | new _ ht => exact Or.inl ht
  | update _ _ _ _ ht => exact Or.inl ht
  | rename _ _ _ _ ht => exact Or.inr (ht ▸ freshFrom_candidate _ _ _ 0)

/-- Whatever name a run may give to a skill of the source, it is read from the copy. -/
def Renamable (src : Tree) : Prop :=
  ∀ s x, (s.path, x) ∈ src.holding skillMd visible → s.Of x → Eligible s →
    ∀ target, MayBeNamed s target → target ≠ s.name →
    ∃ text, x.read = some text ∧ Renames s.name target text

/-- The skills that the index has stand so. -/
def ShelvedIndex (st : Collection) : Prop :=
  ∀ n known, st.existing.get? n = some known → ∃ c, known.path = [c, n]

theorem shelvedIndex_start (hwalk : skills.Walk skillMd visible repoFiles) (h : Shelved skills) :
    ShelvedIndex (start skills repoFiles) := by
  intro n known hk
  obtain ⟨s, hs, rfl, rfl⟩ := exists_of_index hk
  obtain ⟨y, hy, hof⟩ := exists_of_mem_skillDirs hs
  rw [hof.name]
  exact h s.path y ⟨hwalk.1.mem_iff.mp hy, hof.name ▸ hof.named⟩

/-- A skill goes to a place of its target's name. -/
theorem ShelvedIndex.exists_dest (h : ShelvedIndex st) (ha : Aims st s target dest) :
    ∃ c, dest = [c, target] := by
  cases ha with
  | new _ ht hd => exact ⟨_, ht ▸ hd⟩
  | update known hk _ _ ht hd =>
    rw [ht, hd]
    exact h s.name known hk
  | rename _ _ _ _ _ hd => exact ⟨_, hd⟩

theorem ShelvedIndex.eq_of_prefix {known : Known} {n : Text} (h : ShelvedIndex st)
    (ha : Aims st s target dest)
    (hk : st.existing.get? n = some known) (hp : dest <+: known.path) : n = target := by
  obtain ⟨c, rfl⟩ := h.exists_dest ha
  obtain ⟨c', hpath⟩ := h n known hk
  rw [hpath] at hp
  have heq := hp.eq_of_length rfl
  simp only [List.cons.injEq] at heq
  exact heq.2.1.symm

theorem ShelvedIndex.step (h : ShelvedIndex st) (hturn : collectSkill W src st s = some st') :
    ShelvedIndex st' := by
  intro n known hk
  rcases collectSkill_cases hturn with hstill | ⟨target, dest, t, hgoes, hr, hplaced⟩
  · rw [hstill.existing] at hk
    exact h n known hk
  · rw [hplaced.existing] at hk
    by_cases hn : n = target
    · subst hn
      rw [Dict.get?_set_self, Option.some.injEq] at hk
      subst hk
      exact h.exists_dest hgoes.aims
    · rw [Dict.get?_set_of_ne _ hn] at hk
      exact h n known hk

theorem shelvedIndex_reaches {xs done : List Skill} (hwalk : skills.Walk skillMd visible repoFiles)
    (h : Shelved skills)
    (hst : Reaches (collectSkill W src) xs (start skills repoFiles) done st) : ShelvedIndex st := by
  have hturns : Along (collectSkill W src) (fun _ _ _ => True) [] xs (start skills repoFiles) :=
    along_true
  exact hturns.reaches (I := fun _ => ShelvedIndex) (fun _ _ _ _ _ hI _ hturn => hI.step hturn)
    (shelvedIndex_start hwalk h)
    done st hst

/-- In such a tree a turn finds no other skill in its destination. -/
theorem ShelvedIndex.turnFits (h : ShelvedIndex st) (hread : Readable src) (hun : Unnested src)
    (hren : Renamable src) (hy : Yielded src s) : TurnFits W src st s := by
  have hsource := fun q y => hy.mem_source (p := q) (x := y)
  obtain ⟨x, hx, hof⟩ := hy
  have hskill : SkillFile src s.path x := ⟨hx, hof.name ▸ hof.named⟩
  refine fun target dest hgoes _ =>
    ⟨fun hne => ?_, fun q y hq => hread _ y (hsource q y hq), fun q y hq hne => ?_,
    fun n known hn hk hp => absurd (h.eq_of_prefix hgoes.aims hk hp) hn⟩
  · obtain ⟨text, htext, hrenames⟩ :=
      hren s x hx hof hgoes.eligible target (mayBeNamed_of_aims hgoes.aims) hne
    exact ⟨x, text, (Tree.mem_holding.mp hx).1, htext, hrenames⟩
  · exact absurd (hun _ q x y hskill ⟨hsource q y hq.1, hq.2⟩) hne

/-- **Of two such trees every run's turns fit.** -/
theorem allFit_of_shelved (W : Places) (hwalk : skills.Walk skillMd visible repoFiles)
    (hsrc : src.Walk skillMd visible srcFiles)
    (h : Shelved skills) (hread : Readable src) (hun : Unnested src) (hren : Renamable src) :
    AllFit W skills src repoFiles srcFiles := by
  refine along_of_reaches (I := fun _ => ShelvedIndex) (fun _ st s hs hI _ => ?_)
    (shelvedIndex_start hwalk h)
    fun _ _ => shelvedIndex_reaches hwalk h
  exact hI.turnFits hread hun hren (yielded_of_mem hsrc hs)

/-! ### A name in quotes -/

/-- Bob's `foo`, with its name in quotes. -/
def quotedLines : List Text :=
  ["---".toList, "name: 'foo'".toList, "category: c".toList, "installer: auto-skill".toList,
    "created_by: bob".toList, "content_hash: 2".toList, "---".toList]

/-- It is placed as `foo-bob`, and its `SKILL.md` still says `foo`. -/
theorem not_rescans_quoted :
    ¬ ∀ (W : Places) (skills src : Tree) (repoFiles srcFiles : List (Path Text × File)),
    skills.Walk skillMd visible repoFiles → src.Walk skillMd visible srcFiles → Tidy skills →
      Rescans (collectCommit W skills src repoFiles srcFiles).1 := by
  intro h
  have hrescans := h samplePlaces (oneSkill aliceLines) (oneSkill quotedLines) (oneFile aliceLines)
    (oneFile quotedLines)
    (walk_oneFile _) (walk_oneFile _) (tidy_oneSkill (by decide +kernel))
  have hfile : SkillFile
      (collectCommit samplePlaces (oneSkill aliceLines) (oneSkill quotedLines) (oneFile aliceLines)
      (oneFile quotedLines)).1.skills ["c".toList, "foo-bob".toList]
          (.text (unlines quotedLines)) := by
    unfold SkillFile
    decide +kernel
  have hfolder := hrescans.tidy.folder_eq _ _ hfile
  revert hfolder
  decide +kernel

end OracleSkills.Tools
