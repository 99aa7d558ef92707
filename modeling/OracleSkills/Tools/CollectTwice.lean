import OracleSkills.Tools.Collect

/-!
# Collecting twice

A second run over the same source finds what the first one has placed in its index, and should
skip it all. It does so for a skill that is `Settled` in the tree that the first run
leaves: every skill directory of its name carries its hash, and there is one, or it is refused
again. `Settles` says of a turn of the first run that it settles its skill and does not unsettle an
earlier one.

`collect_idempotent`: if every `SKILL.md` can be decoded and every turn of a run settles, then a
second run, in whatever order it walks through the two trees, leaves every file as it is, and
skips or refuses every skill of the tool's.
-/

namespace OracleSkills.Tools

open Python Frontmatter Files

/-! ### Settled skills -/

/-- Every skill directory with this name carries this hash. -/
def AllCarry (t : Tree) (name hash : Text) : Prop :=
  ∀ p x, (p, x) ∈ t.holding skillMd visible → x.name = name → x.hash = hash

/-- There is a skill directory with this name. -/
def Has (t : Tree) (name : Text) : Prop := ∃ p x, (p, x) ∈ t.holding skillMd visible ∧ x.name = name

/-- A second run would skip the skill, or refuse it. -/
def Settled (W : Places) (t : Tree) (s : Skill) : Prop :=
  AllCarry t s.name s.hash ∧
    (Has t s.name ∨ inside W.realpath W.root (pathText W.root [s.category, s.name]) = false)

/-- The directory `p` is replaced in the turn for `s`. -/
def Replaced (W : Places) (st : Collection) (s : Skill) (p : Path Text) : Prop :=
  ∃ target dest, Goes W st s target dest ∧ dest <+: p

/-- A skill directory with this name is not replaced. -/
def Remains (W : Places) (st : Collection) (s : Skill) (name : Text) : Prop :=
  ∃ p x, (p, x) ∈ st.skills.holding skillMd visible ∧ x.name = name ∧ ¬ Replaced W st s p

/-- The turn for an eligible skill `s`, after those for the skills `pre`, settles it. -/
structure Settles (W : Places) (src : Tree) (pre : List Skill) (st : Collection) (s : Skill) :
    Prop where
  /-- The index has no other author's skill of that name, -/
  notOther : ¬ Collides st s
  /-- nor one whose directory is outside. -/
  known_inside : ∀ known, st.existing.get? s.name = some known → known.hash ≠ s.hash →
    inside W.realpath W.root (pathText W.root known.path) = true
  /-- If the skill is skipped, a directory of its name is there. -/
  there : ∀ known, st.existing.get? s.name = some known → known.hash = s.hash →
    Has st.skills s.name
  /-- Every directory of its name that is not replaced carries its hash. -/
  carry : ∀ p x, (p, x) ∈ st.skills.holding skillMd visible → x.name = s.name →
    ¬ Replaced W st s p → x.hash = s.hash
  /-- If the skill is placed, no file is in the way, -/
  clear : ∀ target dest, Goes W st s target dest → st.skills.Clear dest
  /-- what is copied along with it does not differ from what has been collected so far, -/
  brought : ∀ target dest, Goes W st s target dest → ∀ e ∈ pre ++ [s], Eligible e →
    AllCarry (src.below s.path) e.name e.hash
  /-- and no skill collected so far is removed without another of its name. -/
  spared : ∀ target dest, Goes W st s target dest → ∀ e ∈ pre, Eligible e →
    Has st.skills e.name → Remains W st s e.name ∨ Has (src.below s.path) e.name

/-- A skill that the walk through the source yields. -/
def Yielded (src : Tree) (s : Skill) : Prop :=
  ∃ y, (s.path, y) ∈ src.holding skillMd visible ∧ s.Of y

/-- The directories of the index can be walked to. -/
def Walkable (existing : Dict Text Known) : Prop :=
  ∀ n known, existing.get? n = some known → known.path.all visible

/-- Every `SKILL.md` that a walk finds can be decoded. -/
def Readable (t : Tree) : Prop :=
  ∀ p x, (p, x) ∈ t.holding skillMd visible → ∃ text, x.read = some text

/-- What holds in a run after the turns for the skills `pre`. -/
structure Stable (W : Places) (pre : List Skill) (st : Collection) : Prop where
  walkable : Walkable st.existing
  readable : Readable st.skills
  settled : ∀ e ∈ pre, Eligible e → Settled W st.skills e

variable {W : Places} {skills src t : Tree} {st st' : Collection} {s e : Skill} {target : Text}
  {dest p : Path Text} {pre : List Skill} {x : File}

/-! ### A turn settles its skill -/

/-- A skill that is not another author's is placed under its own name, in a directory that can be
walked to. -/
theorem Goes.of_settles (h : Goes W st s target dest) (hs : ¬ Collides st s)
    (hw : Walkable st.existing) :
    target = s.name ∧ dest.all visible := by
  have hvisible : [s.category, s.name].all visible := by
    simp [visible_of_badSegment h.eligible.category_ok, visible_of_badSegment h.eligible.name_ok]
  cases h.aims with
  | new _ ht hd => exact ⟨ht, hd ▸ hvisible⟩
  | update known hk _ _ ht hd => exact ⟨ht, hd ▸ hw _ _ hk⟩
  | rename known hk hh hi _ _ => exact absurd ⟨known, hk, hh, hi⟩ hs

theorem replaced_iff (h : Goes W st s target dest) : Replaced W st s p ↔ dest <+: p := by
  constructor
  · rintro ⟨target', dest', h', hp⟩
    rwa [(h.aims.unique h'.aims).2]
  · exact fun hp => ⟨target, dest, h, hp⟩

/-- The skill's directory in the source has its `SKILL.md` at the top, and is no file. -/
theorem Yielded.below (h : Yielded src s) :
    (∃ y, ([], y) ∈ (src.below s.path).holding skillMd visible ∧ s.Of y) ∧
        ∀ y, ([], y) ∉ src.below s.path := by
  obtain ⟨y, hy, hof⟩ := h
  obtain ⟨hmem, -⟩ := Tree.mem_holding.mp hy
  refine ⟨⟨y, Tree.mem_holding.mpr ⟨Tree.mem_below.mpr hmem, rfl⟩, hof⟩, fun z hz => ?_⟩
  rw [Tree.mem_below, List.append_nil] at hz
  cases Tree.eq_nil_of_mem hz hmem

/-- What a walk finds below the skill's directory, it finds in the source. -/
theorem Yielded.mem_source (h : Yielded src s)
    (hx : (p, x) ∈ (src.below s.path).holding skillMd visible) :
    (s.path ++ p, x) ∈ src.holding skillMd visible := by
  obtain ⟨y, hy, -⟩ := h
  rw [Tree.mem_holding] at hx hy ⊢
  refine ⟨?_, by rw [List.all_append, hy.2, hx.2]; rfl⟩
  rw [List.append_assoc]
  exact Tree.mem_below.mp hx.1

/-- After the skill has been placed, the skills of the tree are those that were not replaced, and
those of its directory in the source. -/
theorem holding_of_placed (hy : Yielded src s) (hd : dest.all visible) (ht : target = s.name)
    (hr : st.skills.replaceDir dest (copied src s target) = some t) :
    (p, x) ∈ t.holding skillMd visible ↔
      ((p, x) ∈ st.skills.holding skillMd visible ∧ ¬ dest <+: p) ∨
        ∃ q, p = dest ++ q ∧ (q, x) ∈ (src.below s.path).holding skillMd visible := by
  rw [copied, if_pos ht] at hr
  exact Tree.mem_holding_replaceDir hr hy.below.2 hd

/-- A turn in which nothing is placed keeps what has been settled. -/
theorem Stable.idles (hst : Stable W pre st) (h : Idles st s st')
    (hs : Eligible s → Settled W st.skills s) :
    Stable W (pre ++ [s]) st' where
  walkable := h.existing ▸ hst.walkable
  readable := h.skills ▸ hst.readable
  settled e he := by
    rw [h.skills]
    rcases List.mem_append.mp he with he | he
    · exact hst.settled e he
    · rw [List.mem_singleton.mp he]
      exact hs

/-- A turn that places its skill settles it, and keeps what has been settled. -/
theorem Stable.placed (hst : Stable W pre st) (hs : Settles W src pre st s) (hsrc : Readable src)
    (hy : Yielded src s)
    (hgoes : Goes W st s target dest) :
    ∃ st', collectSkill W src st s = some st' ∧ Stable W (pre ++ [s]) st' := by
  obtain ⟨ht, hd⟩ := hgoes.of_settles hs.notOther hst.walkable
  obtain ⟨t, hr⟩ := Tree.replaceDir_isSome_iff.mpr (hs.clear target dest hgoes)
  obtain ⟨st', heq, hplaced⟩ := hgoes.placed hr
  have hholding : ∀ {p x}, (p, x) ∈ t.holding skillMd visible ↔
      ((p, x) ∈ st.skills.holding skillMd visible ∧ ¬ dest <+: p) ∨
        ∃ q, p = dest ++ q ∧ (q, x) ∈ (src.below s.path).holding skillMd visible :=
          holding_of_placed hy hd ht hr
  refine ⟨st', heq, fun n known hk => ?_, ?_, fun e he hel => ?_⟩
  · rw [hplaced.existing] at hk
    rcases Dict.get?_of_get?_set hk with ⟨-, rfl⟩ | hk
    · exact hd
    · exact hst.walkable n known hk
  · rw [hplaced.skills]
    intro p x hx
    rcases hholding.mp hx with ⟨hx, -⟩ | ⟨q, -, hx⟩
    · exact hst.readable p x hx
    · exact hsrc _ x (hy.mem_source hx)
  · rw [hplaced.skills]
    have hpre : e ∈ pre ∨ e = s := (List.mem_append.mp he).imp_right List.mem_singleton.mp
    refine ⟨fun p x hx hname => ?_, ?_⟩
    · rcases hholding.mp hx with ⟨hx, hp⟩ | ⟨q, -, hx⟩
      · rcases hpre with hpre | rfl
        · exact (hst.settled e hpre hel).1 p x hx hname
        · exact hs.carry p x hx hname fun h => hp ((replaced_iff hgoes).mp h)
      · exact hs.brought target dest hgoes e he hel q x hx hname
    · rcases hpre with hpre | rfl
      · refine (hst.settled e hpre hel).2.imp_left fun hhas => ?_
        rcases hs.spared target dest hgoes e hpre hel hhas with
          ⟨p, x, hx, hname, hp⟩ | ⟨q, x, hx, hname⟩
        · exact ⟨p, x, hholding.mpr (Or.inl ⟨hx, fun h => hp ((replaced_iff hgoes).mpr h)⟩), hname⟩
        · exact ⟨_, x, hholding.mpr (Or.inr ⟨q, rfl, hx⟩), hname⟩
      · obtain ⟨y, hmem, hof⟩ := hy.below.1
        exact Or.inl ⟨_, y, hholding.mpr (Or.inr ⟨[], rfl, hmem⟩), hof.name.symm⟩

/-- **A turn that settles** does not raise, and keeps what has been settled. -/
theorem Settles.stable (h : Eligible s → Settles W src pre st s) (hsrc : Readable src)
    (hy : Yielded src s) (hst : Stable W pre st) :
    ∃ st', collectSkill W src st s = some st' ∧ Stable W (pre ++ [s]) st' := by
  by_cases he : Eligible s
  · have hs := h he
    cases hk : st.existing.get? s.name with
    | none =>
      by_cases hin : inside W.realpath W.root (pathText W.root [s.category, s.name]) = true
      · exact hst.placed hs hsrc hy ⟨he, .new hk rfl rfl, he.name_ok, hin⟩
      · rw [Bool.not_eq_true] at hin
        obtain ⟨st', heq, hidle⟩ : ∃ st', collectSkill W src st s = some st' ∧ Idles st s st' :=
          collectSkill_of_outside he hk hin
        refine ⟨st', heq,
          hst.idles hidle fun _ => ⟨fun p x hx hname => hs.carry p x hx hname ?_, Or.inr hin⟩⟩
        rintro ⟨target, dest, hgoes, -⟩
        have hdest := (hgoes.aims.unique (.new hk rfl rfl)).2
        rw [← hdest, hgoes.dest_inside] at hin
        cases hin
    | some known =>
      by_cases hh : known.hash = s.hash
      · obtain ⟨st', heq, hidle⟩ : ∃ st', collectSkill W src st s = some st' ∧ Idles st s st' :=
          collectSkill_of_known he hk hh
        refine ⟨st', heq, hst.idles hidle fun _ =>
          ⟨fun p x hx hname => hs.carry p x hx hname ?_, Or.inl (hs.there known hk hh)⟩⟩
        -- a skill that is in the index with its hash aims nowhere
        rintro ⟨target, dest, hgoes, -⟩
        exact hgoes.aims.hash_ne hk hh
      · by_cases hi : known.identity = s.identity
        · exact hst.placed hs hsrc hy ⟨he, .update known hk hh hi rfl rfl, he.name_ok,
            hs.known_inside known hk hh⟩
        · exact absurd ⟨known, hk, hh, hi⟩ hs.notOther
  · obtain ⟨st', heq, hidle⟩ : ∃ st', collectSkill W src st s = some st' ∧ Idles st s st' :=
      collectSkill_of_not_eligible he
    exact ⟨st', heq, hst.idles hidle fun h => absurd h he⟩

/-! ### The first run -/

/-- Every turn of the run settles its skill. -/
def AllSettle (W : Places) (skills src : Tree) (repoFiles srcFiles : List (Path Text × File)) :
    Prop :=
  Along (collectSkill W src) (fun pre st s => Eligible s → Settles W src pre st s) []
    (collectSkillDirs srcFiles).1
    (start skills repoFiles)

variable {repoFiles srcFiles : List (Path Text × File)}

theorem yielded_of_mem (hwalk : src.Walk skillMd visible srcFiles)
    (h : s ∈ (collectSkillDirs srcFiles).1) :
    Yielded src s := by
  obtain ⟨y, hy, hof⟩ := exists_of_mem_skillDirs h
  exact ⟨y, hwalk.1.mem_iff.mp hy, hof⟩

/-- A walk through a tree that can be read comes to its end, -/
theorem skillDirs_ends (hwalk : src.Walk skillMd visible srcFiles) (hsrc : Readable src) :
    (collectSkillDirs srcFiles).2 = true :=
  skillDirs_ends_iff.mpr fun f hf => hsrc f.1 f.2 (hwalk.1.mem_iff.mp hf)

/-- and yields all the skills. -/
theorem mem_of_yielded (hwalk : src.Walk skillMd visible srcFiles) (hsrc : Readable src)
    (h : Yielded src s) :
    s ∈ (collectSkillDirs srcFiles).1 := by
  obtain ⟨y, hy, hof⟩ := h
  obtain ⟨s', hs', hpath, hof'⟩ := exists_mem_skillDirs (skillDirs_ends hwalk hsrc)
    (hwalk.1.mem_iff.mpr hy)
    (hof.name ▸ hof.named)
  rwa [hof.unique hof' hpath.symm]

theorem stable_start (hwalk : skills.Walk skillMd visible repoFiles) (hskills : Readable skills) :
    Stable W [] (start skills repoFiles) where
  walkable n known hk := by
    obtain ⟨s, hs, -, rfl⟩ := exists_of_index hk
    obtain ⟨x, hx, -⟩ := exists_of_mem_skillDirs hs
    exact (hwalk.mem_iff.mp hx).2
  readable := hskills
  settled e he := absurd he List.not_mem_nil

/-- A run whose turns all settle comes to its end, and every eligible skill of the source is
settled. -/
theorem first_run (hR : skills.Walk skillMd visible repoFiles)
    (hS : src.Walk skillMd visible srcFiles) (hskills : Readable skills) (hsrc : Readable src)
    (h : AllSettle W skills src repoFiles srcFiles) :
    (collectCommit W skills src repoFiles srcFiles).2 = true ∧
      Stable W (collectSkillDirs srcFiles).1 (collectCommit W skills src repoFiles srcFiles).1 := by
  have hturns :
      Along (collectSkill W src) (fun pre st s => (Eligible s → Settles W src pre st s) ∧
      Yielded src s) []
      (collectSkillDirs srcFiles).1 (start skills repoFiles) :=
    h.imp_mem fun _ _ s hs hset => ⟨hset, yielded_of_mem hS hs⟩
  obtain ⟨hends, hstable⟩ := forEach_ends (I := Stable W)
    (fun _ _ _ hst hset => Settles.stable hset.1 hsrc hset.2 hst) (stable_start hR hskills) hturns
  rw [collectCommit_of_ends W skills src (skillDirs_ends hR hskills) (skillDirs_ends hS hsrc)]
  exact ⟨hends, hstable⟩

/-! ### The second run -/

/-- A run has left the tree as it was, and reports nothing but skips and refusals. -/
structure IdleRun (src t : Tree) (out : Collection × Bool) : Prop where
  ends : out.2 = true
  skills : out.1.skills = t
  committed : out.1.committed = []
  updated : out.1.updated = []
  renamed : out.1.renamed = []
  again : ∀ p x, SkillFile src p x → autoSkill x.fm → x.name ∈ out.1.skipped ∨
    ∃ r ∈ out.1.rejected, r.name = x.name

/-- What holds in such a run after the turns for the skills `pre`. -/
structure Idling (t : Tree) (existing : Dict Text Known) (pre : List Skill) (st : Collection) :
    Prop where
  skills : st.skills = t
  existing : st.existing = existing
  committed : st.committed = []
  updated : st.updated = []
  renamed : st.renamed = []
  said : ∀ e ∈ pre, autoSkill e.fm → e.name ∈ st.skipped ∨ ∃ r ∈ st.rejected, r.name = e.name

theorem Idling.step {existing : Dict Text Known} (h : Idling t existing pre st)
    (hs : Idles st s st') :
    Idling t existing (pre ++ [s]) st' where
  skills := hs.skills.trans h.skills
  existing := hs.existing.trans h.existing
  committed := hs.committed.trans h.committed
  updated := hs.updated.trans h.updated
  renamed := hs.renamed.trans h.renamed
  said e he hauto := by
    rcases List.mem_append.mp he with he | he
    · rcases h.said e he hauto with hskip | ⟨r, hr, hname⟩
      · exact Or.inl (hs.skipped hskip)
      · exact Or.inr ⟨r, hs.rejected hr, hname⟩
    · rw [List.mem_singleton.mp he] at hauto ⊢
      exact hs.said hauto

/-- The turn for a settled skill skips or refuses it. -/
theorem Settled.idles (hwalk : t.Walk skillMd visible repoFiles) (ht : Readable t)
    (h : Eligible s → Settled W t s)
    (hst : Idling t (index (collectSkillDirs repoFiles).1) pre st) :
    ∃ st', collectSkill W src st s = some st' ∧ Idles st s st' := by
  by_cases he : Eligible s
  · obtain ⟨hcarry, hhas⟩ := h he
    cases hk : st.existing.get? s.name with
    | some known =>
      apply collectSkill_of_known he hk
      -- the entry is that of a directory of its name
      rw [hst.existing] at hk
      obtain ⟨s', hs', hname, rfl⟩ := exists_of_index hk
      obtain ⟨x, hx, hof⟩ := exists_of_mem_skillDirs hs'
      have hhash := hcarry s'.path x (hwalk.1.mem_iff.mp hx) (by rw [← hof.name, hname])
      rw [← hhash]
      exact congrArg (Dict.getD "content_hash".toList []) hof.fm
    | none =>
      rcases hhas with ⟨p, x, hx, hname⟩ | hout
      · obtain ⟨s', hs', -, hof⟩ := exists_mem_skillDirs (skillDirs_ends hwalk ht)
          (hwalk.1.mem_iff.mpr hx)
          (by rw [hname]; exact ne_nil_of_badSegment he.name_ok)
        rw [hst.existing, ← hname, ← hof.name] at hk
        exact absurd hk (index_ne_none hs')
      · exact collectSkill_of_outside he hk hout
  · exact collectSkill_of_not_eligible he

/-- Where every eligible skill of the source is settled, a run over it is idle. -/
theorem second_run (hR : t.Walk skillMd visible repoFiles) (hS : src.Walk skillMd visible srcFiles)
    (ht : Readable t) (hsrc : Readable src) (h : ∀ s, Yielded src s → Eligible s → Settled W t s) :
    IdleRun src t (collectCommit W t src repoFiles srcFiles) := by
  have hturns :
      Along (collectSkill W src) (fun _ _ s => Yielded src s) [] (collectSkillDirs srcFiles).1
      (start t repoFiles) :=
    along_true.imp_mem fun _ _ s hs _ => yielded_of_mem hS hs
  have hstart : Idling t (index (collectSkillDirs repoFiles).1) [] (start t repoFiles) :=
    ⟨rfl, rfl, rfl, rfl, rfl, fun e he => absurd he List.not_mem_nil⟩
  obtain ⟨hends, hidle⟩ := forEach_ends (I := Idling t (index (collectSkillDirs repoFiles).1))
    (fun pre st s hst hy => by
      obtain ⟨st', heq, hidle⟩ : ∃ st', collectSkill W src st s = some st' ∧ Idles st s st' :=
        Settled.idles hR ht (h s hy) hst
      exact ⟨st', heq, hst.step hidle⟩) hstart hturns
  rw [collectCommit_of_ends W t src (skillDirs_ends hR ht) (skillDirs_ends hS hsrc)]
  refine ⟨hends, hidle.skills, hidle.committed, hidle.updated, hidle.renamed,
    fun p x hx hauto => ?_⟩
  obtain ⟨text, hread⟩ := hsrc p x hx.1
  have hy : Yielded src ⟨x.name, p, x.fm⟩ := ⟨x, hx.1, ⟨text, hread⟩, rfl, rfl, hx.2⟩
  exact hidle.said _ (mem_of_yielded hS hsrc hy) hauto

/-- A second run over the same source is idle, in whatever order it walks. -/
def Idempotent (W : Places) (skills src : Tree) (repoFiles srcFiles : List (Path Text × File)) :
    Prop :=
  ∀ repoFiles' srcFiles', (collectCommit W skills src repoFiles srcFiles).1.skills.Walk skillMd
    visible repoFiles' →
    src.Walk skillMd visible srcFiles' →
      IdleRun src (collectCommit W skills src repoFiles srcFiles).1.skills
        (collectCommit W (collectCommit W skills src repoFiles srcFiles).1.skills src
          repoFiles' srcFiles')

/-- **Collecting is idempotent**, if every `SKILL.md` can be decoded and every turn of the first run
settles its skill. -/
theorem collect_idempotent (hR : skills.Walk skillMd visible repoFiles)
    (hS : src.Walk skillMd visible srcFiles) (hskills : Readable skills) (hsrc : Readable src)
    (h : AllSettle W skills src repoFiles srcFiles) :
    Idempotent W skills src repoFiles srcFiles := by
  intro repoFiles' srcFiles' hR' hS'
  obtain ⟨-, hstable⟩ := first_run hR hS hskills hsrc h
  exact second_run hR' hS' hstable.readable hsrc fun s hy he =>
    hstable.settled s (mem_of_yielded hS hsrc hy) he

theorem readable_oneSkill (lines : List Text) : Readable (oneSkill lines) := by
  intro p x hx
  rw [← (walk_oneFile lines).1.mem_iff] at hx
  cases List.mem_singleton.mp hx
  exact ⟨_, rfl⟩

/-- The one skill `foo`, as the walk yields it. -/
def fooSkill : Skill := ⟨"foo".toList, ["c".toList, "foo".toList], collectFm (unlines fooLines)⟩

/-- In a repository without skills the new skill `foo` is settled. -/
theorem settles_foo : Settles samplePlaces (oneSkill fooLines) [] (start noSkills []) fooSkill where
  notOther h := by
    obtain ⟨known, hk, -⟩ := h
    cases hk
  known_inside known hk := by cases hk
  there known hk := by cases hk
  carry p x hx := absurd hx List.not_mem_nil
  clear _ _ _ _ hf := absurd hf List.not_mem_nil
  brought target dest _ e he _ p x hx hname := by
    have hbelow : ((oneSkill fooLines).below fooSkill.path).holding skillMd visible =
        [([], .text (unlines fooLines))] := by
      decide +kernel
    rw [hbelow] at hx
    cases List.mem_singleton.mp hx
    rw [List.nil_append, List.mem_singleton] at he
    rw [he]
    decide +kernel
  spared target dest _ e he := absurd he List.not_mem_nil

/-- The run that places it can be repeated. -/
theorem collect_idempotent_sample :
    Idempotent samplePlaces noSkills (oneSkill fooLines) [] (oneFile fooLines) := by
  refine collect_idempotent ⟨List.Perm.refl _, List.Pairwise.nil⟩ (walk_oneFile fooLines)
    (fun p x hx => absurd hx List.not_mem_nil) (readable_oneSkill fooLines) ?_
  have hfound : (collectSkillDirs (oneFile fooLines)).1 = [fooSkill] := rfl
  unfold AllSettle
  rw [hfound]
  exact ⟨fun _ => settles_foo, fun _ _ => trivial⟩

/-! ### A skill that is never settled -/

/-- A skill `foo` of one author, -/
def aliceLines : List Text :=
  ["---".toList, "name: foo".toList, "created_by: alice".toList, "content_hash: 1".toList,
    "---".toList]

/-- and one of another. -/
def bobLines : List Text :=
  ["---".toList, "name: foo".toList, "category: c".toList, "installer: auto-skill".toList,
    "created_by: bob".toList, "content_hash: 2".toList, "---".toList]

/-- Bob's skill, renamed. -/
def renamedLines : List Text :=
  ["---".toList, "name: foo-bob".toList, "category: c".toList, "installer: auto-skill".toList,
    "created_by: bob".toList, "content_hash: 2".toList, "---".toList]

/-- What a walk finds after one run. -/
def bothFiles : List (Path Text × File) :=
  [(["c".toList, "foo".toList], .text (unlines aliceLines)),
    (["c".toList, "foo-bob".toList], .text (unlines renamedLines))]

/-- Bob's `foo` is placed as `foo-bob`, and in a second run again, as `foo-bob-2`. -/
theorem not_idempotent_collision :
    ¬ ∀ (W : Places) (skills src : Tree) (repoFiles srcFiles : List (Path Text × File)),
    skills.Walk skillMd visible repoFiles → src.Walk skillMd visible srcFiles →
      Idempotent W skills src repoFiles srcFiles := by
  intro h
  have hwalk : (collectCommit samplePlaces (oneSkill aliceLines) (oneSkill bobLines)
      (oneFile aliceLines)
      (oneFile bobLines)).1.skills.Walk skillMd visible bothFiles := by
    have hholding :
        (collectCommit samplePlaces (oneSkill aliceLines) (oneSkill bobLines) (oneFile aliceLines)
        (oneFile bobLines)).1.skills.holding skillMd visible = bothFiles := by decide +kernel
    refine ⟨?_, by decide +kernel⟩
    rw [hholding]
  have hidle := h samplePlaces (oneSkill aliceLines) (oneSkill bobLines) (oneFile aliceLines)
    (oneFile bobLines)
    (walk_oneFile _) (walk_oneFile _) bothFiles (oneFile bobLines) hwalk (walk_oneFile _)
  have hrenamed := hidle.renamed
  revert hrenamed
  decide +kernel

end OracleSkills.Tools
