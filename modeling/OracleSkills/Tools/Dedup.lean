import OracleSkills.Tools.CollectIndex

/-!
# The same skill

A skill of the source whose name is in the index is "identical (same name + same content_hash)", and
skipped; or it is of the same author and birth, "SAME skill, edited since it was last collected",
and replaces the repository's; or it is renamed. All three are read off stamps in the two files: a
stamp that is missing counts as empty, and nothing says that it is that of the text under it.

`dedup_sound_iff`: where the stamps of the two trees tell skills apart (`StampsTell`), and no turn
puts a skill in the place of another one of the index (`AllApart`, as in trees whose skills stand at
`<category>/<name>`), a run skips and replaces the same skill only; and skills whose stamps do not
tell are not told apart when they meet. `stampsTell_of_stamped`: among skills that are stamped as
the writer stamps them, they tell.

What is *not* formalized: links inside the trees. The texts are the decoded ones.
-/

namespace OracleSkills.Tools

open Python Frontmatter Files

/-! ### The two files -/

/-- The `SKILL.md` of the repository's skill of that name, where the index has it. -/
def RepoFile (st : Collection) (s : Skill) (y : File) : Prop :=
  ∃ known, st.existing.get? s.name = some known ∧
    st.skills.get? (known.path ++ [skillMd]) = some y ∧ y.name = s.name

/-- The repository's skill of that name has the same body. -/
def SameBody (src : Tree) (st : Collection) (s : Skill) : Prop :=
  ∃ x y, src.get? (s.path ++ [skillMd]) = some x ∧ RepoFile st s y ∧ x.body = y.body

/-- Both files carry a `created_by` and a `created_at`, and these are equal. -/
def SameBirth (src : Tree) (st : Collection) (s : Skill) : Prop :=
  ∃ x y, src.get? (s.path ++ [skillMd]) = some x ∧ RepoFile st s y ∧ identity x.fm = identity y.fm ∧
    (identity x.fm).1 ≠ [] ∧ (identity x.fm).2 ≠ []

/-! ### A turn -/

section

variable (W : Places) (src : Tree) (st : Collection) (s : Skill)

/-- The skill is reported skipped. -/
def Skips : Prop := ∃ st', collectSkill W src st s = some st' ∧ st'.skipped ≠ st.skipped

/-- The skill is put where the repository's skill of that name is, which goes. -/
def Replaces : Prop :=
  ∃ known target dest skills st', st.existing.get? s.name = some known ∧ dest <+: known.path ∧
    collectSkill W src st s = some st' ∧ Goes W st s target dest ∧
    st.skills.replaceDir dest (copied src s target) = some skills ∧
      Placed st s target dest skills st'

/-- What the turn skips or replaces is the same skill. -/
structure Justified : Prop where
  skips : Skips W src st s → SameBody src st s
  replaces : Replaces W src st s → SameBirth src st s

end

variable {W : Places} {skills src : Tree} {st st' : Collection} {s : Skill} {known : Known}
  {target : Text} {dest : Path Text} {x y : File} {repoFiles srcFiles : List (Path Text × File)}

theorem place_skipped (h : place W src st s target dest = some st') : st'.skipped = st.skipped := by
  by_cases hok : badSegment target = none ∧ inside W.realpath W.root (pathText W.root dest) = true
  · rw [place_of_ok hok.1 hok.2, Option.map_eq_some_iff] at h
    obtain ⟨t, -, rfl⟩ := h
    rfl
  · have href : badSegment target ≠ none ∨
        inside W.realpath W.root (pathText W.root dest) = false := by
      rw [not_and_or] at hok
      exact hok.imp_right eq_false_of_ne_true
    obtain ⟨reason, extra, heq⟩ : ∃ reason extra, place W src st s target dest =
        some (st.refuse s.name reason extra) :=
      place_of_refused href
    rw [heq, Option.some.injEq] at h
    subst h
    rfl

theorem recorded_skipped : (recorded st s).skipped = st.skipped := by
  unfold recorded
  split
  · rfl
  · split_ifs <;> rfl

/-- A skill that aims somewhere is not skipped. -/
theorem not_skips_of_aims (he : Eligible s) (ha : Aims st s target dest) : ¬ Skips W src st s := by
  rintro ⟨st', hst, hne⟩
  rw [collectSkill_of_aims W src he ha] at hst
  exact hne ((place_skipped hst).trans recorded_skipped)

/-- **Skipped** are the skills in the index with an equal hash. -/
theorem skips_iff : Skips W src st s ↔ Eligible s ∧ ∃ known, st.existing.get? s.name = some known ∧
    known.hash = s.hash := by
  constructor
  · intro hskips
    by_cases he : Eligible s
    · refine ⟨he, ?_⟩
      cases hk : st.existing.get? s.name with
      | none => exact absurd hskips (not_skips_of_aims he (.new hk rfl rfl))
      | some known =>
        refine ⟨known, rfl, ?_⟩
        by_contra hh
        by_cases hi : known.identity = s.identity
        · exact not_skips_of_aims he (.update known hk hh hi rfl rfl) hskips
        · exact not_skips_of_aims he (.rename known hk hh hi rfl rfl) hskips
    · obtain ⟨st', hst, hne⟩ := hskips
      by_cases hauto : autoSkill s.fm
      · obtain ⟨reason, extra, heq⟩ : ∃ reason extra, collectSkill W src st s =
            some (st.refuse s.name reason extra) :=
          collectSkill_of_bad hauto he
        rw [heq] at hst
        cases hst
        exact absurd rfl hne
      · rw [collectSkill_of_not_auto hauto] at hst
        cases hst
        exact absurd rfl hne
  · rintro ⟨he, known, hk, hh⟩
    exact ⟨_, collectSkill_eq_skip he hk hh, by simp⟩

/-- **Replaced** is where a skill aims at the place of the one in the index, if it can be put
there. -/
theorem replaces_iff : Replaces W src st s ↔
    ∃ known target dest, st.existing.get? s.name = some known ∧ dest <+: known.path ∧
      Goes W st s target dest ∧
      st.skills.Clear dest := by
  constructor
  · rintro ⟨known, target, dest, skills, st', hk, hdest, -, hgoes, hr, -⟩
    exact ⟨known, target, dest, hk, hdest, hgoes, Tree.clear_of_replaceDir hr⟩
  · rintro ⟨known, target, dest, hk, hdest, hgoes, hclear⟩
    obtain ⟨skills, hr⟩ := Tree.replaceDir_isSome_iff.mpr hclear
    obtain ⟨st', hst, hplaced⟩ := hgoes.placed hr
    exact ⟨known, target, dest, skills, st', hk, hdest, hst, hgoes, hr, hplaced⟩

/-! ### The stamps -/

/-- The stamps of two files tell whether they are the same: equal hashes stand over equal bodies,
and equal identities of files that differ are not without a part. -/
structure Tell (x y : File) : Prop where
  hash : y.hash = x.hash → y.body = x.body
  birth : y.hash ≠ x.hash → identity y.fm = identity x.fm → (identity x.fm).1 ≠ [] ∧
    (identity x.fm).2 ≠ []

/-- A file of the two trees whose skill the index may have as `n`. -/
inductive Namesake (skills src : Tree) (n : Text) (y : File) : Prop where
  | repo {p : Path Text} (h : SkillFile skills p y) (hn : y.name = n) : Namesake skills src n y
  | source {e : Skill} (h : (e.path, y) ∈ src.holding skillMd visible) (hof : e.Of y)
      (he : Eligible e)
      (hn : MayBeNamed e n) : Namesake skills src n y

/-- Each skill of the source that is the tool's can be told from the skills that it may meet. -/
def StampsTell (skills src : Tree) : Prop :=
  ∀ s x, (s.path, x) ∈ src.holding skillMd visible → s.Of x → Eligible s →
    ∀ y, Namesake skills src s.name y → Tell x y

/-- The skill is copied to a place where no other skill of the index stands, and is read as its
target there. -/
structure Apart (src : Tree) (st : Collection) (s : Skill) (target : Text) (dest : Path Text) :
    Prop where
  renames : target ≠ s.name →
    ∃ x text, (s.path ++ [skillMd], x) ∈ src ∧ x.read = some text ∧ Renames s.name target text
  alone : ∀ n known, st.existing.get? n = some known → dest <+: known.path → n = target

/-- So it is if the skill comes to be placed and no file is in its way. -/
def TurnApart (W : Places) (src : Tree) (st : Collection) (s : Skill) : Prop :=
  ∀ target dest, Goes W st s target dest → st.skills.Clear dest → Apart src st s target dest

/-- So it is at every turn of a run. -/
@[irreducible] def AllApart (W : Places) (skills src : Tree)
    (repoFiles srcFiles : List (Path Text × File)) : Prop :=
  Along (collectSkill W src) (fun _ => TurnApart W src) [] (collectSkillDirs srcFiles).1
    (start skills repoFiles)

/-- Each entry of the index is that of a file which stands there, and is read as one of the two
trees is. -/
def TrueIndex (skills src : Tree) (st : Collection) : Prop :=
  ∀ n known, st.existing.get? n = some known → ∃ y₀ y, Namesake skills src n y₀ ∧ ReadsAs n y₀ y ∧
    (known.path ++ [skillMd], y) ∈ st.skills ∧ known = entryOf known.path y

theorem trueIndex_start (hwalk : skills.Walk skillMd visible repoFiles) :
    TrueIndex skills src (start skills repoFiles) := by
  intro n known hk
  obtain ⟨s, hs, rfl, rfl⟩ := exists_of_index hk
  obtain ⟨y, hy, hof⟩ := exists_of_mem_skillDirs hs
  have hfile : SkillFile skills s.path y := ⟨hwalk.1.mem_iff.mp hy, hof.name ▸ hof.named⟩
  refine ⟨y, y, .repo hfile hof.name.symm, ⟨hof.name.symm, rfl, rfl, rfl⟩,
    (Tree.mem_holding.mp hfile.1).1, ?_⟩
  rw [entryOf, Skill.hash, Skill.identity, hof.fm]
  rfl

/-- What stands outside of a destination stays there. -/
theorem mem_of_placed {t : Tree} (hr : st.skills.replaceDir dest (copied src s target) = some t)
    (hp : ¬ dest <+: p) (h : (p ++ [skillMd], y) ∈ st.skills) : (p ++ [skillMd], y) ∈ t := by
  refine (Tree.mem_replaceDir_of_not_prefix hr fun hdest => ?_).mpr h
  rcases List.prefix_concat_iff.mp hdest with rfl | hdest
  · exact Tree.clear_of_replaceDir hr _ h (List.prefix_refl _)
  · exact hp hdest

/-- **A turn keeps the index true.** -/
theorem TrueIndex.step (h : TrueIndex skills src st) (hy : Yielded src s)
    (hapart : TurnApart W src st s)
    (hturn : collectSkill W src st s = some st') : TrueIndex skills src st' := by
  intro n known hk
  rcases collectSkill_cases hturn with hstill | ⟨target, dest, t, hgoes, hr, hplaced⟩
  · rw [hstill.existing] at hk
    rw [hstill.skills]
    exact h n known hk
  have hap := hapart target dest hgoes (Tree.clear_of_replaceDir hr)
  rw [hplaced.existing] at hk
  rw [hplaced.skills]
  by_cases hn : n = target
  · subst hn
    rw [Dict.get?_set_self, Option.some.injEq] at hk
    subst hk
    obtain ⟨x, hx, hof⟩ := hy
    obtain ⟨z, hz, -, hreads⟩ := hgoes.exists_copy hx hof hap.renames
    refine ⟨x, z, .source hx hof hgoes.eligible (mayBeNamed_of_aims hgoes.aims), hreads, ?_, ?_⟩
    · exact (Tree.append_mem_replaceDir hr).mpr (Tree.mem_holding.mp hz).1
    · rw [entryOf, hreads.hash, hreads.identity, Skill.hash, Skill.identity, hof.fm]
      rfl
  · rw [Dict.get?_set_of_ne _ hn] at hk
    obtain ⟨y₀, y, hsake, hreads, hmem, hentry⟩ := h n known hk
    exact ⟨y₀, y, hsake, hreads, mem_of_placed hr (fun hp => hn (hap.alone n known hk hp)) hmem,
      hentry⟩

/-- A skill that is put where one of the index stands updates it. -/
theorem aims_of_replaced (hapart : Apart src st s target dest) (hgoes : Goes W st s target dest)
    (hk : st.existing.get? s.name = some known) (hp : dest <+: known.path) :
    known.hash ≠ s.hash ∧ known.identity = s.identity := by
  have hname : s.name = target := hapart.alone s.name known hk hp
  cases hgoes.aims with
  | new hk' =>
    rw [hk] at hk'
    cases hk'
  | update known' hk' hh hi =>
    rw [hk, Option.some.injEq] at hk'
    exact hk' ▸ ⟨hh, hi⟩
  | rename known' hk' _ _ ht =>
    have hfresh := freshTarget_not_mem st.existing.keys s.name s.author
    rw [← ht, ← hname, ← Dict.get?_eq_none_iff, hk] at hfresh
    cases hfresh

/-- **A turn is justified** where the index is true, if the stamps tell. -/
theorem justified_of_tell (h : TrueIndex skills src st) (htell : StampsTell skills src)
    (hy : Yielded src s) (hapart : TurnApart W src st s) : Justified W src st s := by
  obtain ⟨x, hx, hof⟩ := hy
  have hfile : src.get? (s.path ++ [skillMd]) = some x :=
    Tree.get?_eq_some_iff.mpr (Tree.mem_holding.mp hx).1
  have hhash : s.hash = x.hash := by rw [Skill.hash, hof.fm, File.hash]
  have hident : s.identity = identity x.fm := by rw [Skill.identity, hof.fm]
  have hfind : ∀ known, st.existing.get? s.name = some known → Eligible s →
      ∃ y₀ y, Tell x y₀ ∧ ReadsAs s.name y₀ y ∧ RepoFile st s y ∧ known = entryOf known.path y := by
    intro known hk he
    obtain ⟨y₀, y, hsake, hreads, hmem, hentry⟩ := h s.name known hk
    exact ⟨y₀, y, htell s x hx hof he y₀ hsake, hreads,
      ⟨known, hk, Tree.get?_eq_some_iff.mpr hmem, hreads.name⟩, hentry⟩
  constructor
  · intro hskips
    obtain ⟨he, known, hk, hh⟩ := skips_iff.mp hskips
    obtain ⟨y₀, y, ht, hreads, hrepo, hentry⟩ := hfind known hk he
    have hsame : y₀.hash = x.hash := by
      rw [← hreads.hash, ← hhash, ← hh, hentry]
      rfl
    exact ⟨x, y, hfile, hrepo, by rw [hreads.body, ht.hash hsame]⟩
  · intro hreplaces
    obtain ⟨known, target, dest, hk, hdest, hgoes, hclear⟩ := replaces_iff.mp hreplaces
    obtain ⟨hh, hi⟩ := aims_of_replaced (hapart target dest hgoes hclear) hgoes hk hdest
    obtain ⟨y₀, y, ht, hreads, hrepo, hentry⟩ := hfind known hk hgoes.eligible
    have hother : y₀.hash ≠ x.hash := by
      intro hsame
      rw [← hreads.hash, ← hhash] at hsame
      refine hh ?_
      rw [hentry, ← hsame]
      rfl
    have hsame : identity y.fm = identity x.fm := by
      rw [← hident, ← hi, hentry]
      rfl
    exact ⟨x, y, hfile, hrepo, hsame.symm, ht.birth hother (hreads.identity ▸ hsame)⟩

/-! ### Every run -/

/-- A run has its turn for `s` in the state `st`, after those for `done`. -/
def HandlesAfter (W : Places) (skills src : Tree) (repoFiles srcFiles : List (Path Text × File))
    (done : List Skill) (st : Collection) (s : Skill) : Prop :=
  (collectSkillDirs repoFiles).2 = true ∧
    ∃ rest, (collectSkillDirs srcFiles).1 = done ++ s :: rest ∧
    forEach (collectSkill W src) done (start skills repoFiles) = (st, true)

/-- A run has its turn for `s` in the state `st`. -/
def Handles (W : Places) (skills src : Tree) (repoFiles srcFiles : List (Path Text × File))
    (st : Collection) (s : Skill) : Prop :=
  ∃ done, HandlesAfter W skills src repoFiles srcFiles done st s

variable {done : List Skill} {n : Text}

/-- The index is true where a run has its turn, and the turn is one of those that keep it so. -/
theorem HandlesAfter.trueIndex (h : HandlesAfter W skills src repoFiles srcFiles done st s)
    (hwalk : skills.Walk skillMd visible repoFiles) (hsrc : src.Walk skillMd visible srcFiles)
    (hapart : AllApart W skills src repoFiles srcFiles) :
    TrueIndex skills src st ∧ Yielded src s ∧ TurnApart W src st s := by
  obtain ⟨-, rest, hxs, hdone⟩ := h
  have hyielded : ∀ e ∈ (collectSkillDirs srcFiles).1, Yielded src e :=
    fun e he => yielded_of_mem hsrc he
  unfold AllApart at hapart
  rw [hxs] at hapart hyielded
  refine ⟨?_, hyielded s (by simp), hapart.at hdone⟩
  exact Along.reaches (I := fun _ => TrueIndex skills src)
    (fun _ _ _ e he hI hC hturn => hI.step (hyielded e (List.mem_append_left _ he)) hC hturn)
    (trueIndex_start hwalk) hapart.of_append done st ⟨[], (List.append_nil done).symm, hdone⟩

/-- The entry of `n` and its file are as they were before the run. -/
structure Untouched (skills : Tree) (repoFiles : List (Path Text × File)) (n : Text)
    (st : Collection) : Prop where
  entry : st.existing.get? n = (start skills repoFiles).existing.get? n
  file : ∀ known y, (start skills repoFiles).existing.get? n = some known →
    (known.path ++ [skillMd], y) ∈ skills →
    (known.path ++ [skillMd], y) ∈ st.skills

/-- A turn for a skill that is not given that name leaves them so. -/
theorem Untouched.step (h : Untouched skills repoFiles n st) (hapart : TurnApart W src st s)
    (hn : ¬ MayBeNamed s n)
    (hturn : collectSkill W src st s = some st') : Untouched skills repoFiles n st' := by
  rcases collectSkill_cases hturn with hstill | ⟨target, dest, t, hgoes, hr, hplaced⟩
  · refine ⟨by rw [hstill.existing, h.entry], fun known y hk hy => ?_⟩
    rw [hstill.skills]
    exact h.file known y hk hy
  · have hne : n ≠ target := by
      rintro rfl
      exact hn (mayBeNamed_of_aims hgoes.aims)
    have hap := hapart target dest hgoes (Tree.clear_of_replaceDir hr)
    refine ⟨by rw [hplaced.existing, Dict.get?_set_of_ne _ hne, h.entry], fun known y hk hy => ?_⟩
    rw [hplaced.skills]
    refine mem_of_placed hr (fun hp => hne (hap.alone n known ?_ hp)) (h.file known y hk hy)
    rw [h.entry, hk]

/-- The entry of a skill that is the repository's only one of its name. -/
theorem start_entry (hwalk : skills.Walk skillMd visible repoFiles)
    (hends : (collectSkillDirs repoFiles).2 = true)
    (hy : SkillFile skills p y) (hunique : ∀ q z, SkillFile skills q z → z.name = y.name → q = p) :
    (start skills repoFiles).existing.get? y.name = some (entryOf p y) := by
  obtain ⟨s, hs, -, hof⟩ := exists_mem_skillDirs hends (hwalk.1.mem_iff.mpr hy.1) hy.2
  obtain ⟨known, hk⟩ := Option.ne_none_iff_exists'.mp (index_ne_none hs)
  rw [hof.name] at hk
  obtain ⟨s', hs', hname, rfl⟩ := exists_of_index hk
  obtain ⟨z, hz, hof'⟩ := exists_of_mem_skillDirs hs'
  have hz' := hwalk.1.mem_iff.mp hz
  have hpath : s'.path = p := hunique _ z ⟨hz', hof'.name ▸ hof'.named⟩ (hof'.name ▸ hname)
  rw [hpath] at hz'
  obtain rfl := Tree.eq_of_mem (Tree.mem_holding.mp hz').1 (Tree.mem_holding.mp hy.1).1
  show (index (collectSkillDirs repoFiles).1).get? z.name = _
  rw [hk, hpath, entryOf, Skill.hash, Skill.identity, hof'.fm]
  rfl

/-- A skill of the source that meets the repository's of its name, which no turn before has touched,
and cannot be told from it, is skipped or put in its place nevertheless. -/
theorem tell_of_justified (h : HandlesAfter W skills src repoFiles srcFiles done st s)
    (hwalk : skills.Walk skillMd visible repoFiles)
    (hapart : AllApart W skills src repoFiles srcFiles)
    (hnew : ∀ e ∈ done, ¬ MayBeNamed e s.name) (hj : Justified W src st s) (he : Eligible s)
    (hx : (s.path, x) ∈ src.holding skillMd visible) (hof : s.Of x) (hy : SkillFile skills p y)
    (hname : y.name = s.name)
    (hunique : ∀ q z, SkillFile skills q z → z.name = y.name → q = p)
    (hin : inside W.realpath W.root (pathText W.root p) = true) : Tell x y := by
  obtain ⟨hends, rest, hxs, hdone⟩ := h
  unfold AllApart at hapart
  rw [hxs] at hapart
  have hun : Untouched skills repoFiles s.name st := by
    have hboth := hapart.of_append.imp_mem
      (D := fun _ st e => TurnApart W src st e ∧ ¬ MayBeNamed e s.name)
      fun _ _ e he hC => ⟨hC, hnew e he⟩
    exact Along.reaches (I := fun _ => Untouched skills repoFiles s.name)
      (fun _ _ _ _ _ hI hC hturn => hI.step hC.1 hC.2 hturn) ⟨rfl, fun _ _ _ hy => hy⟩ hboth done st
      ⟨[], (List.append_nil done).symm, hdone⟩
  have hstart := start_entry hwalk hends hy hunique
  rw [hname] at hstart
  have hk : st.existing.get? s.name = some (entryOf p y) := hun.entry.trans hstart
  have hmem : (p ++ [skillMd], y) ∈ st.skills := hun.file _ y hstart (Tree.mem_holding.mp hy.1).1
  have hhash : s.hash = x.hash := by rw [Skill.hash, hof.fm, File.hash]
  have hident : s.identity = identity x.fm := by rw [Skill.identity, hof.fm]
  have hfiles : ∀ x' y', src.get? (s.path ++ [skillMd]) = some x' → RepoFile st s y' → x' = x ∧
      y' = y := by
    rintro x' y' hx' ⟨known, hk', hy', -⟩
    rw [hk, Option.some.injEq] at hk'
    subst hk'
    exact ⟨Tree.eq_of_mem (Tree.get?_eq_some_iff.mp hx') (Tree.mem_holding.mp hx).1,
      Tree.eq_of_mem (Tree.get?_eq_some_iff.mp hy') hmem⟩
  constructor
  · intro hh
    obtain ⟨x', y', hx', hrepo, hbody⟩ := hj.skips (skips_iff.mpr ⟨he, _, hk, hh.trans hhash.symm⟩)
    obtain ⟨rfl, rfl⟩ := hfiles x' y' hx' hrepo
    exact hbody.symm
  · intro hh hi
    have hgoes : Goes W st s s.name p :=
      ⟨he, .update _ hk (fun h => hh (h.trans hhash)) (hi.trans hident.symm) rfl rfl,
        he.name_ok, hin⟩
    have hclear : st.skills.Clear p := by
      intro f hf hp
      have heq := st.skills.free f hf _ hmem (hp.trans (List.prefix_append p _))
      rw [heq] at hp
      exact absurd hp.length_le (by simp)
    obtain ⟨x', y', hx', hrepo, -, hne⟩ :=
      hj.replaces (replaces_iff.mpr ⟨_, _, _, hk, List.prefix_refl _, hgoes, hclear⟩)
    obtain ⟨rfl, rfl⟩ := hfiles x' y' hx' hrepo
    exact hne

/-- No other skill of such an index stands where a turn puts its skill. -/
theorem ShelvedIndex.turnApart (h : ShelvedIndex st) (hsrc : Renamable src) (hy : Yielded src s) :
    TurnApart W src st s := by
  obtain ⟨x, hx, hof⟩ := hy
  refine fun target dest hgoes _ =>
    ⟨fun hne => ?_, fun n known hk hp => h.eq_of_prefix hgoes.aims hk hp⟩
  obtain ⟨text, hread, hren⟩ :=
    hsrc s x hx hof hgoes.eligible target (mayBeNamed_of_aims hgoes.aims) hne
  exact ⟨x, text, (Tree.mem_holding.mp hx).1, hread, hren⟩

/-- **Where the skills are shelved no turn touches another skill of the index.** -/
theorem allApart_of_shelved (W : Places) (hwalk : skills.Walk skillMd visible repoFiles)
    (hsrc : src.Walk skillMd visible srcFiles) (h : Shelved skills) (hrenamable : Renamable src) :
    AllApart W skills src repoFiles srcFiles := by
  unfold AllApart
  refine along_of_reaches (I := fun _ => ShelvedIndex) (fun _ st s hs hI _ => ?_)
    (shelvedIndex_start hwalk h)
    fun _ _ => shelvedIndex_reaches hwalk h
  exact hI.turnApart hrenamable (yielded_of_mem hsrc hs)

/-- The stamps tell each skill of the source from the repository's only one of its name, where it is
the first that is given the name. -/
def TellWhereMet (W : Places) (skills src : Tree) (repoFiles srcFiles : List (Path Text × File)) :
    Prop :=
  ∀ done st s, HandlesAfter W skills src repoFiles srcFiles done st s → Eligible s →
    (∀ e ∈ done, ¬ MayBeNamed e s.name) →
    ∀ x, (s.path, x) ∈ src.holding skillMd visible → s.Of x → ∀ p y, SkillFile skills p y →
      y.name = s.name →
      (∀ q z, SkillFile skills q z → z.name = y.name → q = p) →
        inside W.realpath W.root (pathText W.root p) = true → Tell x y

/-- **What a run skips and replaces** is the same skill at each of its turns, if the stamps of the
two trees tell and no turn touches another skill of the index, as none does where the skills are
shelved; and then it is only if the stamps tell wherever skills of one name meet. -/
theorem dedup_sound_iff (hwalk : skills.Walk skillMd visible repoFiles)
    (hsrc : src.Walk skillMd visible srcFiles) :
    (StampsTell skills src → AllApart W skills src repoFiles srcFiles →
      ∀ st s, Handles W skills src repoFiles srcFiles st s → Justified W src st s) ∧
    (Shelved skills → Renamable src → AllApart W skills src repoFiles srcFiles) ∧
    (AllApart W skills src repoFiles srcFiles →
      (∀ st s, Handles W skills src repoFiles srcFiles st s → Justified W src st s) →
        TellWhereMet W skills src repoFiles srcFiles) := by
  refine ⟨?_, allApart_of_shelved W hwalk hsrc, ?_⟩
  · rintro htell hapart st s ⟨done, h⟩
    obtain ⟨htrue, hy, hturn⟩ := h.trueIndex hwalk hsrc hapart
    exact justified_of_tell htrue htell hy hturn
  · intro hapart hall done st s h he hnew x hx hof p y hy hname hunique hin
    exact tell_of_justified h hwalk hapart hnew (hall st s ⟨done, h⟩) he hx hof hy hname hunique hin

/-! ### Skills as they are stamped -/

/-- A skill as the writer and `skill_patch` stamp it: its hash is that of its body, and it says who
made it and when. -/
structure Stamped (H : Text → Text) (x : File) : Prop where
  hash : x.hash = H x.body
  author : (identity x.fm).1 ≠ []
  born : (identity x.fm).2 ≠ []

/-- **Stamps as they are written tell**, if no two of the bodies have one hash. -/
theorem stampsTell_of_stamped {H : Text → Text}
    (hskills : ∀ p x, SkillFile skills p x → Stamped H x)
    (hsrc : ∀ p x, SkillFile src p x → Stamped H x)
    (hH : ∀ x y, (∃ p, SkillFile src p x) → (∃ p, SkillFile skills p y ∨ SkillFile src p y) →
      H y.body = H x.body → y.body = x.body) :
    StampsTell skills src := by
  intro s x hx hof _ y hsake
  have hfile : SkillFile src s.path x := ⟨hx, hof.name ▸ hof.named⟩
  have hfile' : ∃ p, SkillFile skills p y ∨ SkillFile src p y := by
    cases hsake with
    | repo h => exact ⟨_, Or.inl h⟩
    | source h hof' => exact ⟨_, Or.inr ⟨h, hof'.name ▸ hof'.named⟩⟩
  have hx' := hsrc _ _ hfile
  have hy' : Stamped H y := by
    obtain ⟨p, h | h⟩ := hfile'
    · exact hskills p y h
    · exact hsrc p y h
  refine ⟨fun hh => hH x y ⟨_, hfile⟩ hfile' ?_, fun _ _ => ⟨hx'.author, hx'.born⟩⟩
  rw [← hx'.hash, ← hy'.hash, hh]

/-! ### A run -/

/-- A skill of Alice's. -/
def aliceSkill (name hash body : Text) : List Text :=
  ["---".toList, "name: ".toList ++ name, "category: c".toList, "installer: auto-skill".toList,
    "created_by: alice".toList,
    "created_at: 2026-01-01".toList, "content_hash: ".toList ++ hash, "---".toList, body]

/-- The digests of the bodies `a`, `b` and `bar`. -/
def digestA : Text :=
  Nat.toDigits 16 0xca978112ca1bbdcafac231b39a23dc4da786eff8147c4e72b9807785afee48bb

def digestB : Text :=
  Nat.toDigits 16 0x3e23e8160039594a33894f6564e1b1348bbd7a0088d42c4acb73eeaed59c009d

def digestBar : Text :=
  Nat.toDigits 16 0xfcde2b2edba56bf408601fb721fe9b5c338d10ee429ea04fae5511b68fbf8fb9

/-- Her `foo` and her `bar`. -/
def fooAndBar (hash body : Text) : Tree where
  files := [(["c".toList, "foo".toList, skillMd],
    .text (unlines (aliceSkill "foo".toList hash body))),
    (["c".toList, "bar".toList, skillMd],
      .text (unlines (aliceSkill "bar".toList digestBar "bar".toList)))]
  nodup := by simp
  free := by simp

/-- What a walk finds there. -/
def fooAndBarFiles (hash body : Text) : List (Path Text × File) :=
  [(["c".toList, "foo".toList], .text (unlines (aliceSkill "foo".toList hash body))),
    (["c".toList, "bar".toList], .text (unlines (aliceSkill "bar".toList digestBar "bar".toList)))]

theorem walk_fooAndBar (hash body : Text) :
    (fooAndBar hash body).Walk skillMd visible (fooAndBarFiles hash body) := by
  have hholding : (fooAndBar hash body).holding skillMd visible = fooAndBarFiles hash body := by
    unfold Tree.holding fooAndBar fooAndBarFiles
    rfl
  refine ⟨by rw [hholding], ?_⟩
  simp [fooAndBarFiles]

theorem of_mem_fooAndBar {hash body : Text}
    (h : (p, x) ∈ (fooAndBar hash body).holding skillMd visible) :
    (p = ["c".toList, "foo".toList] ∧ x = .text (unlines (aliceSkill "foo".toList hash body))) ∨
      (p = ["c".toList, "bar".toList] ∧
          x = .text (unlines (aliceSkill "bar".toList digestBar "bar".toList))) := by
  rcases List.mem_cons.mp ((walk_fooAndBar hash body).1.mem_iff.mpr h) with h | h
  · cases h
    exact Or.inl ⟨rfl, rfl⟩
  · cases List.mem_singleton.mp h
    exact Or.inr ⟨rfl, rfl⟩

/-- What is read of it. -/
structure Alices (name hash body : Text) : Prop where
  fm : (File.text (unlines (aliceSkill name hash body))).fm =
    [("name".toList, name), ("category".toList, "c".toList),
    ("installer".toList, "auto-skill".toList), ("created_by".toList, "alice".toList),
    ("created_at".toList, "2026-01-01".toList), ("content_hash".toList, hash)]
  bare : (File.text (unlines (aliceSkill name hash body))).body = body

variable {hash body : Text}

theorem alices_fooAndBar : Alices "foo".toList digestA "a".toList ∧
    Alices "foo".toList digestB "b".toList ∧ Alices "bar".toList digestBar "bar".toList := by
  refine ⟨⟨?_, ?_⟩, ⟨?_, ?_⟩, ?_, ?_⟩ <;> decide +kernel

theorem alices_fooA : Alices "foo".toList digestA "a".toList := alices_fooAndBar.1

theorem alices_fooB : Alices "foo".toList digestB "b".toList := alices_fooAndBar.2.1

theorem alices_bar : Alices "bar".toList digestBar "bar".toList := alices_fooAndBar.2.2

theorem Alices.name (h : Alices n hash body) :
    (File.text (unlines (aliceSkill n hash body))).name = n := by
  rw [File.name, h.fm]
  rfl

theorem Alices.stamped {H : Text → Text} (h : Alices n hash body) (hhash : hash = H body) :
    Stamped H (.text (unlines (aliceSkill n hash body))) := by
  constructor
  · rw [File.hash, h.fm, h.bare]
    exact hhash
  · rw [h.fm]
    exact List.cons_ne_nil 'a' _
  · rw [h.fm]
    exact List.cons_ne_nil '2' _

theorem shelved_fooAndBar (h : Alices "foo".toList hash body) : Shelved (fooAndBar hash body) := by
  intro p x hx
  rcases of_mem_fooAndBar hx.1 with ⟨rfl, rfl⟩ | ⟨rfl, rfl⟩
  · exact ⟨"c".toList, by rw [h.name]⟩
  · exact ⟨"c".toList, by rw [alices_bar.name]⟩

/-- Such a file can be renamed. -/
theorem Alices.renames {s : Skill} (h : Alices n hash body)
    (hof : s.Of (.text (unlines (aliceSkill n hash body))))
    (hline : NameLine n (unlines (aliceSkill n hash body)) ['\n']
      ('\n' :: unlines ((aliceSkill n hash body).tail.tail.take 5)) ('\n' :: unlines [body]))
    (hbase : NoFence (n ++ '-' :: "alice".toList ++ ['-'])) (hnamed : MayBeNamed s target)
    (hne : target ≠ s.name) :
    Renames s.name target (unlines (aliceSkill n hash body)) := by
  have hs : s.name = n := hof.name.trans h.name
  have hauthor : s.author = "alice".toList := by
    rw [Skill.author, hof.fm, h.fm]
    rfl
  obtain ⟨k, rfl⟩ := hnamed.resolve_left hne
  rw [hs, hauthor]
  exact hline.renames ⟨'\n', _, rfl, by decide⟩ (noFence_candidate hbase k)

theorem renamable_fooAndBar : Renamable (fooAndBar digestB "b".toList) := by
  intro s x hx hof _ target hnamed hne
  rcases of_mem_fooAndBar hx with ⟨-, rfl⟩ | ⟨-, rfl⟩
  · exact ⟨_, by decide +kernel,
      alices_fooB.renames hof (by apply NameLine.of_all <;> decide +kernel) (by decide +kernel)
        hnamed hne⟩
  · exact ⟨_, by decide +kernel,
      alices_bar.renames hof (by apply NameLine.of_all <;> decide +kernel) (by decide +kernel)
        hnamed hne⟩

/-- What the digests are of. -/
def sampleHash (body : Text) : Text :=
  if body = ['a'] then digestA else if body = ['b'] then digestB else digestBar

theorem stamped_fooAndBar (h : Alices "foo".toList hash body) (hhash : hash = sampleHash body)
    (hx : SkillFile (fooAndBar hash body) p x) : Stamped sampleHash x := by
  rcases of_mem_fooAndBar hx.1 with ⟨-, rfl⟩ | ⟨-, rfl⟩
  · exact h.stamped hhash
  · exact alices_bar.stamped (by simp [sampleHash])

theorem body_fooAndBar (h : Alices "foo".toList hash body)
    (hx : SkillFile (fooAndBar hash body) p x) :
    x.body = body ∨ x.body = "bar".toList := by
  rcases of_mem_fooAndBar hx.1 with ⟨-, rfl⟩ | ⟨-, rfl⟩
  · exact Or.inl h.bare
  · exact Or.inr alices_bar.bare

/-- Where Alice has edited her `foo`, the stamps tell. -/
theorem stampsTell_fooAndBar :
    StampsTell (fooAndBar digestA "a".toList) (fooAndBar digestB "b".toList) := by
  refine stampsTell_of_stamped
    (fun p x hx => stamped_fooAndBar alices_fooA (by simp [sampleHash]) hx)
    (fun p x hx => stamped_fooAndBar alices_fooB (by simp [sampleHash]) hx) ?_
  rintro x y ⟨p, hx⟩ ⟨q, hy⟩
  have hbodies : ∀ b ∈ [['a'], ['b'], "bar".toList], ∀ c ∈ [['b'], "bar".toList],
      sampleHash b = sampleHash c → b = c := by
    decide +kernel
  have hxb : x.body ∈ [['b'], "bar".toList] := by simpa using body_fooAndBar alices_fooB hx
  refine hbodies _ ?_ _ hxb
  rcases hy with hy | hy
  · rcases body_fooAndBar alices_fooA hy with h | h <;> simp [h]
  · rcases body_fooAndBar alices_fooB hy with h | h <;> simp [h]

theorem dedup_sound_iff_sample :
    (∀ st s, Handles samplePlaces (fooAndBar digestA "a".toList) (fooAndBar digestB "b".toList)
        (fooAndBarFiles digestA "a".toList) (fooAndBarFiles digestB "b".toList) st s →
      Justified samplePlaces (fooAndBar digestB "b".toList) st s) ∧
    (collectCommit samplePlaces (fooAndBar digestA "a".toList) (fooAndBar digestB "b".toList)
      (fooAndBarFiles digestA "a".toList) (fooAndBarFiles digestB "b".toList)).1.updated =
        ["foo".toList] ∧
    (collectCommit samplePlaces (fooAndBar digestA "a".toList) (fooAndBar digestB "b".toList)
      (fooAndBarFiles digestA "a".toList) (fooAndBarFiles digestB "b".toList)).1.skipped =
          ["bar".toList] := by
  refine ⟨?_, by decide +kernel⟩
  have hR := walk_fooAndBar digestA "a".toList
  have hS := walk_fooAndBar digestB "b".toList
  have hsound := dedup_sound_iff (W := samplePlaces) hR hS
  exact hsound.1 stampsTell_fooAndBar
    (hsound.2.1 (shelved_fooAndBar alices_fooA) renamable_fooAndBar)

/-! ### Skills without stamps -/

/-- The skill `foo`, without a hash. -/
def unstamped (body : Text) : List Text := fooLines ++ [body]

/-- It is skipped for another `foo` without a hash. -/
theorem not_justified_unstamped :
    ¬ ∀ (W : Places) (skills src : Tree) (repoFiles srcFiles : List (Path Text × File)),
    skills.Walk skillMd visible repoFiles → src.Walk skillMd visible srcFiles →
      ∀ st s, Handles W skills src repoFiles srcFiles st s → Justified W src st s := by
  intro h
  have hfoo : (start (oneSkill (unstamped "a".toList))
      (oneFile (unstamped "a".toList))).existing.get? "foo".toList =
      some ⟨[], ["c".toList, "foo".toList], ([], [])⟩ := by decide +kernel
  have hjust := h samplePlaces (oneSkill (unstamped "a".toList)) (oneSkill (unstamped "b".toList))
    (oneFile (unstamped "a".toList)) (oneFile (unstamped "b".toList)) (walk_oneFile _)
      (walk_oneFile _)
    (start (oneSkill (unstamped "a".toList)) (oneFile (unstamped "a".toList)))
    ⟨"foo".toList, ["c".toList, "foo".toList], (File.text (unlines (unstamped "b".toList))).fm⟩
    ⟨[], by decide +kernel, [], rfl, rfl⟩
  obtain ⟨x, y, hx, ⟨known, hk, hy, -⟩, hbody⟩ :=
    hjust.skips (skips_iff.mpr ⟨by decide +kernel, _, hfoo, by decide +kernel⟩)
  rw [hfoo, Option.some.injEq] at hk
  subst hk
  have hx' : (oneSkill (unstamped "b".toList)).get? (["c".toList, "foo".toList] ++ [skillMd]) =
      some (.text (unlines (unstamped "b".toList))) := by decide +kernel
  have hy' : (oneSkill (unstamped "a".toList)).get? (["c".toList, "foo".toList] ++ [skillMd]) =
      some (.text (unlines (unstamped "a".toList))) := by decide +kernel
  cases hx'.symm.trans hx
  cases hy'.symm.trans hy
  revert hbody
  decide +kernel

end OracleSkills.Tools
