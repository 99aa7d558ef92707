import OracleSkills.Server.Lineage
import OracleSkills.Tools.Commit
import OracleSkills.Tools.SyncShadow
import OracleSkills.Writer.Repairs

/-!
# From one oracle to the others

A skill comes to an oracle in three steps: another one has it written by `auto_skill.py create`,
`collect_commit.py` places it in the repository's `skills/`, and `sync_skills.py` copies it to the
oracle's own skills. Its author may patch it at any time, and the next collection is to find "the
SAME skill, edited since it was last collected". The programs know of one another only what stands
in the `SKILL.md`.

`one_directory`: over any number of weeks, with any patches between them, the repository has one
directory for each skill that `create` has made, and no collection renames or rejects one.
`version_arrives`: a version that the repository does not have yet arrives at every oracle with
every file of its directory, and with no other.

Both are about skills that nobody gets in the way of: the repository has no other skill of these
names, and nothing where their directories are to be (`Ready`); and at the author's no other skill
is the tool's, and none stands inside one of these (`MadeIn`).
-/

namespace OracleSkills.Tools

open Python Frontmatter Files Writer

/-! ### What `create` has made -/

/-- A run of `create` that has been accepted, with clean free text. -/
structure Creation where
  env : Env
  args : Args
  request : Request
  accepted : prepare env args = .ok request
  clean : Writer.Clean request

namespace Creation

/-- Its name, -/
def name (c : Creation) : Text := c.request.name

/-- what the readers find in its file, -/
def fm (c : Creation) : Dict Text Text := c.request.fm c.env

/-- who made it and when, -/
def identity (c : Creation) : Identity := Tools.identity c.fm

/-- and where it is collected to. -/
def dest (c : Creation) : Path Text := [Skill.category ⟨c.name, [c.name], c.fm⟩, c.name]

end Creation

/-- The file is what has come of a creation by patches. -/
def Version (c : Creation) (x : File) : Prop :=
  ∃ text hash, Server.Lineage c.env c.request text hash ∧ x = .text text

/-- What `create` has made in one oracle's skills. Its other skills are not the tool's, and none is
in a directory that `create` has made. -/
structure MadeIn (src : Tree) (cs : List Creation) : Prop where
  readable : Readable src
  made : ∀ c ∈ cs, ∃ x, Version c x ∧ ([c.name, skillMd], x) ∈ src
  others : ∀ p x, (p, x) ∈ src.holding skillMd visible → autoSkill x.fm → ∃ c ∈ cs, p = [c.name]
  flat : ∀ c ∈ cs, ∀ p x, (c.name :: p, x) ∈ src.holding skillMd visible → p = []

/-- The destinations are inside the repository's `skills/`. -/
def Inside (W : Places) (cs : List Creation) : Prop :=
  ∀ c ∈ cs, inside W.realpath W.root (pathText W.root c.dest) = true

/-- The repository has no other skill of these names, and nothing is in their way. -/
structure Ready (skills : Tree) (cs : List Creation) : Prop where
  readable : Readable skills
  clear : ∀ c ∈ cs, skills.Clear c.dest
  /-- What has the name of one is at its destination, and has been made by it. -/
  tracked : ∀ c ∈ cs, ∀ p x, (p, x) ∈ skills.holding skillMd visible → x.name = c.name →
    p = c.dest ∧ identity x.fm = c.identity

/-- The directory at `p` of a tree is the one that `create` has made in the source. -/
def Arrived (src t : Tree) (c : Creation) (p : Path Text) : Prop :=
  ∀ r x, (p ++ r, x) ∈ t ↔ (c.name :: r, x) ∈ src

/-- The directory at `p` of a tree is as it was. -/
def Kept (t t' : Tree) (p : Path Text) : Prop := ∀ r x, (p ++ r, x) ∈ t' ↔ (p ++ r, x) ∈ t

/-- The repository has a version with the hash of the one in the source. -/
def Collected (skills src : Tree) (c : Creation) : Prop :=
  ∃ x y, ([c.name, skillMd], x) ∈ src ∧ (c.dest ++ [skillMd], y) ∈ skills ∧ y.name = c.name ∧
    y.hash = x.hash

/-- What a collection has done for a creation: placed the version of the source, or skipped it for a
version of the same hash. -/
def Delivered (src skills : Tree) (st : Collection) (c : Creation) : Prop :=
  (Arrived src st.skills c c.dest ∧ (c.name ∈ st.committed ∨ c.name ∈ st.updated)) ∨
    (Collected skills src c ∧ Kept skills st.skills c.dest ∧ c.name ∈ st.skipped)

variable {W : Places} {V : SyncPlaces} {skills src dest t : Tree}
  {repoFiles srcFiles : List (Path Text × File)}
  {cs : List Creation} {c c' : Creation} {pre : List Skill} {st st' : Collection} {s : Skill}
  {p : Path Text} {x y : File}

/-! ### What the tools read -/

/-- A version has the fields of the creation, but for the stamps. -/
theorem get?_version (h : Version c x) {key : Text} (hkey : key ∉ Server.stampKeys) :
    x.fm.get? key = c.fm.get? key := by
  obtain ⟨text, hash, hl, rfl⟩ := h
  have hkeeps := hl.keeps (accepted_of_prepare c.accepted) c.clean
  have hfm : (File.text text).fm = (readFrontmatter (universalNewlines text)).1 := collectFm_eq _
  rw [hfm, ← Server.get?_others _ hkey, hkeeps.others, Server.get?_others _ hkey]
  rfl

theorem getD_version (h : Version c x) {key : Text} (hkey : key ∉ Server.stampKeys) (d : Text) :
    x.fm.getD key d = c.fm.getD key d := by rw [Dict.getD, get?_version h hkey, Dict.getD]

theorem name_version (h : Version c x) : x.name = c.name := getD_version h (by decide) []

theorem identity_version (h : Version c x) : identity x.fm = c.identity := by
  unfold identity
  rw [getD_version h (by decide), getD_version h (by decide)]
  rfl

theorem autoSkill_version (h : Version c x) : autoSkill x.fm := get?_version h (by decide)

theorem category_version (h : Version c x) (n : Text) (p : Path Text) :
    Skill.category ⟨n, p, x.fm⟩ = Skill.category ⟨c.name, [c.name], c.fm⟩ := by
  unfold Skill.category
  simp only [getD_version h (show "category".toList ∉ Server.stampKeys by decide)]

theorem badSegment_name (c : Creation) :
    badSegment c.name = none := (accepted_of_prepare c.accepted).badSegment_name

theorem badSegment_category (c : Creation) :
    badSegment (Skill.category ⟨c.name, [c.name], c.fm⟩) = none :=
  (accepted_of_prepare c.accepted).badSegment_category _

/-- The skill that a walk yields for a version. -/
def versionSkill (c : Creation) (x : File) : Skill := ⟨c.name, [c.name], x.fm⟩

theorem eligible_version (h : Version c x) : Eligible (versionSkill c x) :=
  ⟨autoSkill_version h, badSegment_name c, by
    rw [versionSkill, category_version h]
    exact badSegment_category c⟩

theorem dest_version (h : Version c x) :
    [(versionSkill c x).category, (versionSkill c x).name] = c.dest := by
  rw [versionSkill, category_version h]
  rfl

theorem of_version (h : Version c x) : (versionSkill c x).Of x where
  readable := by
    obtain ⟨text, hash, -, rfl⟩ := h
    exact ⟨_, rfl⟩
  fm := rfl
  name := (name_version h).symm
  named := ne_nil_of_badSegment (badSegment_name c)

theorem visible_dest (c : Creation) : c.dest.all visible := by
  simp [Creation.dest, visible_of_badSegment (badSegment_category c),
    visible_of_badSegment (badSegment_name c)]

theorem yielded_version (h : Version c x) (hx : ([c.name, skillMd], x) ∈ src) :
    Yielded src (versionSkill c x) :=
  ⟨x, Tree.mem_holding.mpr ⟨hx, by simp [versionSkill, visible_of_badSegment (badSegment_name c)]⟩,
    of_version h⟩

/-- A file at the place of a creation is a version of it. -/
theorem MadeIn.version (h : MadeIn src cs) (hc : c ∈ cs) (hx : ([c.name, skillMd], x) ∈ src) :
    Version c x := by
  obtain ⟨y, hy, hmem⟩ := h.made c hc
  rwa [Tree.eq_of_mem hx hmem]

/-- A skill of the tool's that the walk yields is a version of a creation. -/
theorem MadeIn.exists_version (h : MadeIn src cs) (hy : Yielded src s) (hauto : autoSkill s.fm) :
    ∃ c ∈ cs, ∃ x, Version c x ∧ ([c.name, skillMd], x) ∈ src ∧ s = versionSkill c x := by
  obtain ⟨y, hmem, hof⟩ := hy
  obtain ⟨c, hc, hpath⟩ := h.others _ _ hmem (hof.fm ▸ hauto)
  have hfile : ([c.name, skillMd], y) ∈ src := by
    have := (Tree.mem_holding.mp hmem).1
    rwa [hpath] at this
  have hversion := h.version hc hfile
  exact ⟨c, hc, y, hversion, hfile, hof.unique (of_version hversion) hpath⟩

/-- Two creations of one name have one destination. -/
theorem MadeIn.dest_eq (h : MadeIn src cs) (hc : c ∈ cs) (hc' : c' ∈ cs)
    (hname : c.name = c'.name) :
    c.dest = c'.dest ∧ c.identity = c'.identity := by
  obtain ⟨x, hx, hmem⟩ := h.made c hc
  have hx' : Version c' x := h.version hc' (hname ▸ hmem)
  refine ⟨?_, (identity_version hx).symm.trans (identity_version hx')⟩
  rw [← dest_version hx, ← dest_version hx', versionSkill, versionSkill, hname]

/-- Two destinations lie apart, if they are of two names. -/
theorem not_dest_initial (hname : c.name ≠ c'.name) (r : Path Text) :
    ¬ c.dest <+: c'.dest ++ r := by
  simp [Creation.dest, List.cons_prefix_cons, hname]

/-! ### The turns of a collection -/

/-- What holds after the turns for the skills `pre`. -/
structure Delivering (src skills : Tree) (cs : List Creation) (pre : List Skill) (st : Collection) :
    Prop where
  /-- What the index has of a creation that has not had its turn is what the repository had, -/
  pending : ∀ c ∈ cs, [c.name] ∉ pre.map Skill.path →
    (∀ known, st.existing.get? c.name = some known →
    known.path = c.dest ∧ known.identity = c.identity ∧
      ∃ y, (c.dest ++ [skillMd], y) ∈ skills ∧ y.name = c.name ∧ y.hash = known.hash) ∧
        Kept skills st.skills c.dest
  /-- and one that has had it has been delivered. -/
  done : ∀ c ∈ cs, [c.name] ∈ pre.map Skill.path → Delivered src skills st c
  clear : ∀ c ∈ cs, st.skills.Clear c.dest
  tracked : ∀ c ∈ cs, ∀ p x, (p, x) ∈ st.skills.holding skillMd visible → x.name = c.name →
    p = c.dest ∧ identity x.fm = c.identity
  readable : Readable st.skills
  renamed : st.renamed = []
  rejected : st.rejected = []

/-- A turn that places the version of a creation. -/
structure Delivers (src : Tree) (st : Collection) (c : Creation) (st' : Collection) : Prop where
  skills : st.skills.replaceDir c.dest (src.below [c.name]) = some st'.skills
  existing : ∀ n, n ≠ c.name → st'.existing.get? n = st.existing.get? n
  reported : c.name ∈ st'.committed ∨ c.name ∈ st'.updated
  committed : st.committed ⊆ st'.committed
  updated : st.updated ⊆ st'.updated
  skipped : st'.skipped = st.skipped
  renamed : st'.renamed = st.renamed
  rejected : st'.rejected = st.rejected

/-- A skill that is not the tool's changes nothing. -/
theorem Delivering.ignore (h : Delivering src skills cs pre st) (hm : MadeIn src cs)
    (hy : Yielded src s) (hauto : ¬ autoSkill s.fm) : Delivering src skills cs (pre ++ [s]) st := by
  have hpath : ∀ c ∈ cs, s.path ≠ [c.name] := by
    rintro c hc hpath
    obtain ⟨y, hmem, hof⟩ := hy
    have hfile := (Tree.mem_holding.mp hmem).1
    rw [hpath] at hfile
    exact hauto (hof.fm ▸ autoSkill_version (hm.version hc hfile))
  have hmem : ∀ c ∈ cs, [c.name] ∈ (pre ++ [s]).map Skill.path ↔ [c.name] ∈ pre.map Skill.path := by
    intro c hc
    rw [List.map_append, List.mem_append, List.map_singleton, List.mem_singleton]
    exact or_iff_left (hpath c hc).symm
  exact { h with
    pending := fun c hc hnot => h.pending c hc fun hp => hnot ((hmem c hc).mpr hp)
    done := fun c hc hp => h.done c hc ((hmem c hc).mp hp) }

/-- What a walk finds after a version has been placed. -/
theorem Delivers.mem_holding (h : Delivers src st c st') (hm : MadeIn src cs) (hc : c ∈ cs)
    (hx : ([c.name, skillMd], x) ∈ src) :
    (p, y) ∈ st'.skills.holding skillMd visible ↔
      ((p, y) ∈ st.skills.holding skillMd visible ∧ ¬ c.dest <+: p) ∨ p = c.dest ∧ y = x := by
  have hyield := yielded_version (hm.version hc hx) hx
  rw [Tree.mem_holding_replaceDir h.skills hyield.below.2 (visible_dest c)]
  apply or_congr_right
  constructor
  · rintro ⟨q, rfl, hq⟩
    have hsrc := hyield.mem_source hq
    obtain rfl : q = [] := hm.flat c hc q y hsrc
    exact ⟨List.append_nil _, Tree.eq_of_mem (Tree.mem_holding.mp hsrc).1 hx⟩
  · rintro ⟨rfl, rfl⟩
    exact ⟨[], (List.append_nil _).symm, Tree.mem_holding.mpr ⟨Tree.mem_below.mpr hx, rfl⟩⟩

/-- Nothing is put in the way of another creation. -/
theorem Delivers.clear (h : Delivers src st c st') (hm : MadeIn src cs) (hc : c ∈ cs)
    (hclear : st.skills.Clear c'.dest) :
    st'.skills.Clear c'.dest := by
  intro f hf hp
  rcases (Tree.mem_replaceDir h.skills).mp hf with ⟨hold, -⟩ | ⟨q, hq, hx⟩
  · exact hclear f hold hp
  · -- a file at the destination would be at the top of what was copied
    rw [hq] at hp
    have hlen := hp.length_le
    obtain rfl : q = [] := by
      simp [Creation.dest] at hlen
      exact hlen
    obtain ⟨y, hy, hmem⟩ := hm.made c hc
    exact (yielded_version hy hmem).below.2 _ hx

/-- The directories of the others are as they were. -/
theorem Delivers.kept (h : Delivers src st c st') (hname : c.name ≠ c'.name) :
    Kept st.skills st'.skills c'.dest := fun r _ =>
  Tree.mem_replaceDir_of_not_prefix h.skills (not_dest_initial hname r)

theorem Kept.trans {t t' t'' : Tree} (h : Kept t t' p) (h' : Kept t' t'' p) :
    Kept t t'' p := fun r x => (h' r x).trans (h r x)

theorem Delivered.keep (h : Delivered src skills st c') (hd : Delivers src st c st')
    (hname : c.name ≠ c'.name) :
    Delivered src skills st' c' := by
  rcases h with ⟨harrived, hreported⟩ | ⟨hcollected, hkept, hskipped⟩
  · refine Or.inl ⟨fun r x => (hd.kept hname r x).trans (harrived r x), ?_⟩
    exact hreported.imp (fun hn => hd.committed hn) fun hn => hd.updated hn
  · exact Or.inr ⟨hcollected, hkept.trans (hd.kept hname), hd.skipped ▸ hskipped⟩

theorem mem_path_concat {c : Creation} : [c'.name] ∈ (pre ++ [versionSkill c x]).map Skill.path ↔
    [c'.name] ∈ pre.map Skill.path ∨ c.name = c'.name := by
  simp [versionSkill, eq_comm]

/-- **A turn that places a version** delivers it, and keeps what has been delivered. -/
theorem Delivering.deliver (h : Delivering src skills cs pre st) (hm : MadeIn src cs) (hc : c ∈ cs)
    (hx : ([c.name, skillMd], x) ∈ src) (hd : Delivers src st c st') :
    Delivering src skills cs (pre ++ [versionSkill c x]) st' where
  pending c' hc' hnot := by
    rw [mem_path_concat, not_or] at hnot
    obtain ⟨hindex, hkept⟩ := h.pending c' hc' hnot.1
    refine ⟨fun known hk => hindex known ?_, hkept.trans (hd.kept hnot.2)⟩
    rwa [hd.existing _ (Ne.symm hnot.2)] at hk
  done c' hc' hmem := by
    by_cases hname : c.name = c'.name
    · have hplaced : Arrived src st'.skills c c.dest :=
        fun _ _ => (Tree.append_mem_replaceDir hd.skills).trans Tree.mem_below
      refine Or.inl ⟨?_, hname ▸ hd.reported⟩
      unfold Arrived at hplaced ⊢
      rwa [← (hm.dest_eq hc hc' hname).1, ← hname]
    · exact (h.done c' hc' ((mem_path_concat.mp hmem).resolve_right hname)).keep hd hname
  clear c' hc' := hd.clear hm hc (h.clear c' hc')
  tracked c' hc' p y hy hname := by
    rcases (hd.mem_holding hm hc hx).mp hy with ⟨hy, -⟩ | ⟨rfl, rfl⟩
    · exact h.tracked c' hc' p y hy hname
    · have hversion := hm.version hc hx
      have heq := hm.dest_eq hc hc' ((name_version hversion).symm.trans hname)
      exact ⟨heq.1, (identity_version hversion).trans heq.2⟩
  readable p y hy := by
    rcases (hd.mem_holding hm hc hx).mp hy with ⟨hy, -⟩ | ⟨-, rfl⟩
    · exact h.readable p y hy
    · exact (of_version (hm.version hc hx)).readable
  renamed := hd.renamed.trans h.renamed
  rejected := hd.rejected.trans h.rejected

/-- **A turn that skips a version**, for there is one with its hash. -/
theorem Delivering.skip (h : Delivering src skills cs pre st) (hm : MadeIn src cs) (hc : c ∈ cs)
    (hpre : [c.name] ∉ pre.map Skill.path) (hcollected : Collected skills src c) :
    Delivering src skills cs (pre ++ [versionSkill c x])
        { st with skipped := st.skipped ++ [c.name] } where
  pending c' hc' hnot := by
    rw [mem_path_concat, not_or] at hnot
    exact h.pending c' hc' hnot.1
  done c' hc' hmem := by
    by_cases hname : c.name = c'.name
    · have hkept := (h.pending c' hc' (hname ▸ hpre)).2
      refine Or.inr ⟨?_, hkept, by simp [hname]⟩
      unfold Collected at hcollected ⊢
      rwa [← hname, ← (hm.dest_eq hc hc' hname).1]
    · refine (h.done c' hc' ((mem_path_concat.mp hmem).resolve_right hname)).imp_right
        fun hright => ?_
      exact ⟨hright.1, hright.2.1, List.mem_append_left _ hright.2.2⟩
  clear := h.clear
  tracked := h.tracked
  readable := h.readable
  renamed := h.renamed
  rejected := h.rejected

/-- A version that is new, or another one than the repository's, is placed. -/
theorem Delivering.exists_delivers (h : Delivering src skills cs pre st) (hin : Inside W cs)
    (hc : c ∈ cs) (hversion : Version c x) (haims : Aims st (versionSkill c x) c.name c.dest)
    (hrec : (recorded st (versionSkill c x)).renamed = st.renamed ∧
      (recorded st (versionSkill c x)).rejected = st.rejected ∧
      (recorded st (versionSkill c x)).skipped = st.skipped ∧
        st.updated ⊆ (recorded st (versionSkill c x)).updated) :
    ∃ st', collectSkill W src st (versionSkill c x) = some st' ∧ Delivers src st c st' := by
  have hgoes : Goes W st (versionSkill c x) c.name c.dest :=
    ⟨eligible_version hversion, haims, badSegment_name c, hin c hc⟩
  obtain ⟨t', hplace⟩ := Tree.replaceDir_isSome_iff.mpr (h.clear c hc)
  have hcopied : copied src (versionSkill c x) c.name = src.below [c.name] := if_pos rfl
  obtain ⟨hrenamed, hrejected, hskipped, hupdated⟩ := hrec
  rw [hgoes.collectSkill_eq, placement, hcopied, hplace]
  refine ⟨_, rfl, hplace, fun n hn => Dict.get?_set_of_ne _ hn _, ?_, ?_, hupdated, hskipped,
    hrenamed, hrejected⟩
  · by_cases hmem : c.name ∈ (recorded st (versionSkill c x)).updated
    · exact Or.inr hmem
    · refine Or.inl ?_
      simp [if_neg hmem]
  · simp only
    split_ifs
    · exact List.Subset.refl _
    · exact List.subset_append_left _ _

/-- **A turn** does not raise, and keeps what has been delivered. -/
theorem Delivering.turn (h : Delivering src skills cs pre st) (hm : MadeIn src cs)
    (hin : Inside W cs) (hy : Yielded src s) (hs : s.path ∉ pre.map Skill.path) :
    ∃ st', collectSkill W src st s = some st' ∧ Delivering src skills cs (pre ++ [s]) st' := by
  by_cases hauto : autoSkill s.fm
  · obtain ⟨c, hc, x, hversion, hx, rfl⟩ := hm.exists_version hy hauto
    obtain ⟨hindex, -⟩ := h.pending c hc hs
    cases hk : st.existing.get? c.name with
    | none =>
      have hrec : recorded st (versionSkill c x) = st := recorded_of_none hk
      obtain ⟨st', heq, hd⟩ := h.exists_delivers hin hc hversion
        (.new hk rfl (dest_version hversion).symm)
        ⟨by rw [hrec], by rw [hrec], by rw [hrec], by rw [hrec]; exact List.Subset.refl _⟩
      exact ⟨st', heq, h.deliver hm hc hx hd⟩
    | some known =>
      obtain ⟨hpath, hidentity, z, hz, hzname, hzhash⟩ := hindex known hk
      by_cases hh : known.hash = (versionSkill c x).hash
      · exact ⟨_, collectSkill_eq_skip (eligible_version hversion) hk hh,
          h.skip hm hc hs ⟨x, z, hx, hz, hzname, hzhash.trans hh⟩⟩
      · have hi : known.identity = (versionSkill c x).identity :=
          hidentity.trans (identity_version hversion).symm
        have hrec : recorded st (versionSkill c x) =
            { st with updated := st.updated ++ [c.name] } := recorded_of_update hk hi
        obtain ⟨st', heq, hd⟩ := h.exists_delivers hin hc hversion
          (.update known hk hh hi rfl hpath.symm)
          ⟨by rw [hrec], by rw [hrec], by rw [hrec], by rw [hrec]; exact List.subset_append_left _ _⟩
        exact ⟨st', heq, h.deliver hm hc hx hd⟩
  · exact ⟨st, collectSkill_of_not_auto hauto, h.ignore hm hy hauto⟩

/-! ### A collection -/

/-- The walk yields one skill for a directory. -/
theorem paths_sublist (fs : List (Path Text × File)) :
    ((collectSkillDirs fs).1.map Skill.path).Sublist (fs.map Prod.fst) := by
  induction fs with
  | nil => exact List.Sublist.refl _
  | cons f fs ih =>
    obtain ⟨q, y⟩ := f
    cases hr : y.read with
    | none =>
      rw [skillDirs_cons_of_none hr]
      exact List.nil_sublist _
    | some text =>
      rw [skillDirs_cons_of_some hr]
      split_ifs
      · exact ih.cons _
      · exact ih.cons_cons _

/-- Before the first turn. -/
theorem delivering_start (hR : skills.Walk skillMd visible repoFiles) (hr : Ready skills cs) :
    Delivering src skills cs [] (start skills repoFiles) where
  pending c hc _ := by
    refine ⟨fun known hk => ?_, fun _ _ => Iff.rfl⟩
    obtain ⟨s, hs, hname, rfl⟩ := exists_of_index hk
    obtain ⟨y, hy, hof⟩ := exists_of_mem_skillDirs hs
    have hmem := hR.1.mem_iff.mp hy
    have hyname : y.name = c.name := hof.name.symm.trans hname
    obtain ⟨hpath, hidentity⟩ := hr.tracked c hc _ _ hmem hyname
    refine ⟨hpath, ?_, y, hpath ▸ (Tree.mem_holding.mp hmem).1, hyname, ?_⟩
    · rw [← hidentity, ← hof.fm]
      rfl
    · rw [File.hash, ← hof.fm]
      rfl
  done c _ hmem := absurd hmem List.not_mem_nil
  clear := hr.clear
  tracked := hr.tracked
  readable := hr.readable
  renamed := rfl
  rejected := rfl

/-- What a collection does for what `create` has made. -/
structure Collects (skills src : Tree) (cs : List Creation) (out : Collection × Bool) : Prop where
  ends : out.2 = true
  delivered : ∀ c ∈ cs, Delivered src skills out.1 c
  ready : Ready out.1.skills cs
  renamed : out.1.renamed = []
  rejected : out.1.rejected = []

/-- **A collection** comes to its end, delivers every version, and leaves the repository ready for
the next one. -/
theorem collects (hR : skills.Walk skillMd visible repoFiles)
    (hS : src.Walk skillMd visible srcFiles) (hm : MadeIn src cs)
    (hr : Ready skills cs) (hin : Inside W cs) :
    Collects skills src cs (collectCommit W skills src repoFiles srcFiles) := by
  have hnodup : ((collectSkillDirs srcFiles).1.map Skill.path).Nodup :=
    List.Nodup.sublist (paths_sublist srcFiles) (((hS.1.map _).nodup_iff).mpr src.nodup_holding)
  have hapart : Along (collectSkill W src) (fun pre _ s => s.path ∉ pre.map Skill.path) []
      (collectSkillDirs srcFiles).1
      (start skills repoFiles) := along_map_not_mem Skill.path hnodup
  have hturns :
      Along (collectSkill W src) (fun pre _ s => s.path ∉ pre.map Skill.path ∧ Yielded src s) []
      (collectSkillDirs srcFiles).1 (start skills repoFiles) :=
        hapart.imp_mem fun _ _ s hs hnot => ⟨hnot, yielded_of_mem hS hs⟩
  obtain ⟨hends, h⟩ := forEach_ends (I := Delivering src skills cs)
    (fun _ _ _ h hs => Delivering.turn h hm hin hs.2 hs.1)
    (delivering_start hR hr) hturns
  rw [collectCommit_of_ends W skills src (skillDirs_ends hR hr.readable)
    (skillDirs_ends hS hm.readable)]
  refine ⟨hends, fun c hc => h.done c hc ?_, ⟨h.readable, h.clear, h.tracked⟩,
    h.renamed, h.rejected⟩
  obtain ⟨x, hx, hmem⟩ := hm.made c hc
  exact List.mem_map.mpr ⟨_, mem_of_yielded hS hm.readable (yielded_version hx hmem), rfl⟩

/-- After a collection the repository has the version of the source, or one of the same hash. -/
theorem Delivered.collected (h : Delivered src skills st c) (hm : MadeIn src cs) (hc : c ∈ cs) :
    Collected st.skills src c := by
  obtain ⟨x, hx, hmem⟩ := hm.made c hc
  rcases h with ⟨harrived, -⟩ | ⟨⟨z, y, hz, hy, hname, hhash⟩, hkept, -⟩
  · exact ⟨x, x, hmem, (harrived _ _).mpr hmem, name_version hx, rfl⟩
  · exact ⟨z, y, hz, (hkept _ _).mpr hy, hname, hhash⟩

/-! ### Weeks -/

variable {γ : Type*} {G : Git γ} {r : Repo γ}

/-- In each week the source has what `create` has made, in whatever versions. -/
def Serves (G : Git γ) (cs : List Creation) : List Week → Repo γ → Prop
  | [], _ => True
  | w :: ws, r =>
    r.skills.Walk skillMd visible w.repoFiles ∧ w.src.Walk skillMd visible w.srcFiles ∧
    MadeIn w.src cs ∧
      Inside w.places cs ∧ Serves G cs ws (collectMain G w r).1

/-- A run that has come to its end, and has renamed and rejected nothing. -/
def Plainly (out : Option Printed) : Prop := ∃ p, out = some p ∧ p.renamed = [] ∧ p.rejected = []

theorem publish_lists (G : Git γ) (a : Options) (st : Collection) (g : γ) :
    (publish G a st g).2.renamed = st.renamed ∧ (publish G a st g).2.rejected = st.rejected := by
  by_cases hc : st.commits
  · cases he : (attempt G a st g).2.2 with
    | some error =>
      rw [publish_of_error hc he]
      exact ⟨rfl, rfl⟩
    | none =>
      rw [publish_of_ok hc he]
      split_ifs <;> exact ⟨rfl, rfl⟩
  · rw [publish_of_not_commits hc]
    exact ⟨rfl, rfl⟩

/-- A week's run on a repository that is ready. -/
theorem week_collects {w : Week} (hr : Ready r.skills cs)
    (hR : r.skills.Walk skillMd visible w.repoFiles)
    (hS : w.src.Walk skillMd visible w.srcFiles) (hm : MadeIn w.src cs) (hin : Inside w.places cs) :
    Ready (collectMain G w r).1.skills cs ∧
      (∀ c ∈ cs, Collected (collectMain G w r).1.skills w.src c) ∧
      Plainly (collectMain G w r).2 := by
  have h : Collects r.skills w.src cs (w.collect r.skills) := collects hR hS hm hr hin
  rw [collectMain_of_ends h.ends]
  refine ⟨h.ready, fun c hc => (h.delivered c hc).collected hm hc, _, rfl, ?_⟩
  obtain ⟨hrenamed, hrejected⟩ := publish_lists G w.options (w.collect r.skills).1 r.git
  exact ⟨hrenamed.trans h.renamed, hrejected.trans h.rejected⟩

theorem weekly_ready (hr : Ready r.skills cs) (ws : List Week) (h : Serves G cs ws r) :
    Ready (weekly G ws r).1.skills cs ∧ (∀ out ∈ (weekly G ws r).2, Plainly out) ∧
      ∀ w, ws.getLast? = some w → ∀ c ∈ cs, Collected (weekly G ws r).1.skills w.src c := by
  induction ws generalizing r with
  | nil => exact ⟨hr, fun _ ho => absurd ho List.not_mem_nil, fun _ hw => nomatch hw⟩
  | cons w ws ih =>
    obtain ⟨hR, hS, hm, hin, h⟩ := h
    obtain ⟨hready, hcollected, hplainly⟩ := week_collects (G := G) hr hR hS hm hin
    obtain ⟨hready', hall, hlast⟩ := ih hready h
    refine ⟨hready', List.forall_mem_cons.mpr ⟨hplainly, hall⟩, fun w' hw' => ?_⟩
    cases ws with
    | nil =>
      cases hw'
      exact hcollected
    | cons w₂ ws => exact hlast w' (by rwa [List.getLast?_cons_cons] at hw')

/-- **One directory for each skill**: over any number of weeks, with any patches between them and
whatever becomes of the commits, no collection renames or rejects what `create` has made, and the
repository ends with one directory of its name, with the hash of its last version. -/
theorem one_directory (hr : Ready r.skills cs) (ws : List Week) (h : Serves G cs ws r) :
    (∀ out ∈ (weekly G ws r).2, Plainly out) ∧ ∀ c ∈ cs,
      (∀ p x, (p, x) ∈ (weekly G ws r).1.skills.holding skillMd visible → x.name = c.name →
        p = c.dest) ∧
        ∀ w, ws.getLast? = some w → Collected (weekly G ws r).1.skills w.src c := by
  obtain ⟨hready, hall, hlast⟩ := weekly_ready hr ws h
  exact ⟨hall, fun c hc =>
    ⟨fun p x hx hname => (hready.tracked c hc p x hx hname).1, fun w hw => hlast w hw c hc⟩⟩

/-! ### Syncing -/

/-- A skill whose name stands in one directory is live after a run that comes to its end. -/
theorem live_of_unique {repo : Tree} {n : Text} {d : Path Text}
    (hwalk : repo.Walk skillMd visible repoFiles)
    (hends : (syncSkills V repo dest repoFiles).2 = true) (hok : refusal V n = none)
    (hx : (d, x) ∈ repo.holding skillMd visible) (hname : x.name = n)
    (hunique : ∀ p y, (p, y) ∈ repo.holding skillMd visible → y.name = n → p = d) (r : Path Text)
    (y : File) :
    (n :: r, y) ∈ (syncSkills V repo dest repoFiles).1.dest ↔ (d ++ r, y) ∈ repo := by
  obtain ⟨st₁, hended⟩ := exists_ended hends
  have hfound := hended.found
  rw [syncSkillDirs_eq] at hfound
  have hne : n ≠ [] := by
    rintro rfl
    cases hok
  obtain ⟨s, hs, -, hof⟩ := exists_mem_skillDirs hfound (hwalk.1.mem_iff.mpr hx) (hname ▸ hne)
  obtain rfl : s.name = n := hof.name.trans hname
  rw [← syncSkillDirs_eq] at hs
  obtain ⟨l, hl⟩ := exists_lastOf hs
  obtain ⟨hmem, hlname⟩ := lastOf_name hl
  rw [syncSkillDirs_eq] at hmem
  obtain ⟨z, hz, hzof⟩ := exists_of_mem_skillDirs hmem
  have hpath := hunique l.path z (hwalk.1.mem_iff.mp hz) (hzof.name.symm.trans hlname)
  rw [hended.live_iff hs hok hl, hpath]

/-- **A version arrives**: whatever else is in the repository and at an oracle, after a collection
and a sync that comes to its end the oracle has, under the skill's name, every file of the directory
in the source, and no other, if the repository did not have a version of the same hash. -/
theorem version_arrives {repoFiles' : List (Path Text × File)} (hm : MadeIn src cs)
    (hr : Ready skills cs) (hin : Inside W cs)
    (hR : skills.Walk skillMd visible repoFiles) (hS : src.Walk skillMd visible srcFiles)
    (hR' : (collectCommit W skills src repoFiles srcFiles).1.skills.Walk skillMd visible repoFiles')
    (hends : (syncSkills V (collectCommit W skills src repoFiles srcFiles).1.skills dest
      repoFiles').2 = true)
    (hc : c ∈ cs) (hok : inside V.realpath V.dest (joinPath V.dest c.name) = true)
    (hnew : ¬ Collected skills src c) :
    Arrived src (syncSkills V (collectCommit W skills src repoFiles srcFiles).1.skills dest
        repoFiles').1.dest c [c.name] := by
  have h := collects hR hS hm hr hin
  obtain ⟨harrived, -⟩ := (h.delivered c hc).resolve_right fun hright => hnew hright.1
  obtain ⟨x, hx, hmem⟩ := hm.made c hc
  have hrefusal : refusal V c.name = none := by
    unfold refusal
    rw [badSegment_name c]
    exact if_neg (not_not.mpr hok)
  have hfile : (c.dest, x) ∈ (collectCommit W skills src repoFiles srcFiles).1.skills.holding
      skillMd visible :=
    Tree.mem_holding.mpr ⟨(harrived _ _).mpr hmem, visible_dest c⟩
  intro q y
  rw [List.singleton_append, live_of_unique hR' hends hrefusal hfile (name_version hx)
    fun p y hy hname => (h.ready.tracked c hc p y hy hname).1]
  exact harrived q y

/-! ### A sample skill -/

/-- A run of `create`, -/
def sampleCreation : Creation where
  env := sampleEnv
  args :=
    { name := "deploy-x".toList, desc := "Deploy x: steps".toList, body := "b".toList,
      source := "bob".toList }
  request := sampleRequest "Deploy x: steps".toList
  accepted := rfl
  clean := ⟨by decide, by decide, by decide⟩

/-- its file, -/
def sampleVersion : File := .text ((sampleRequest "Deploy x: steps".toList).rendered sampleEnv)

/-- and the source with it. -/
def sampleMade : Tree where
  files := [([sampleCreation.name, skillMd], sampleVersion)]
  nodup := List.nodup_singleton _
  free := by simp

theorem holding_sampleMade :
    sampleMade.holding skillMd visible = [([sampleCreation.name], sampleVersion)] := rfl

theorem madeIn_sample : MadeIn sampleMade [sampleCreation] where
  readable p x hx := by
    rw [holding_sampleMade] at hx
    cases List.mem_singleton.mp hx
    exact ⟨_, rfl⟩
  made := List.forall_mem_singleton.mpr
    ⟨sampleVersion, ⟨_, _, .created, rfl⟩, List.mem_cons_self ..⟩
  others p x hx _ := by
    rw [holding_sampleMade] at hx
    cases List.mem_singleton.mp hx
    exact ⟨_, List.mem_cons_self .., rfl⟩
  flat := List.forall_mem_singleton.mpr fun p x hx => by
    rw [holding_sampleMade] at hx
    cases List.mem_singleton.mp hx
    rfl

theorem ready_noSkills (cs : List Creation) : Ready noSkills cs where
  readable _ _ hx := absurd hx List.not_mem_nil
  clear _ _ _ hf := absurd hf List.not_mem_nil
  tracked _ _ _ _ hx := absurd hx List.not_mem_nil

theorem inside_sample : Inside samplePlaces [sampleCreation] :=
  List.forall_mem_singleton.mpr (by decide +kernel)

/-- What the repository has after the first collection. -/
theorem walk_collected :
    (collectCommit samplePlaces noSkills sampleMade []
      (sampleMade.holding skillMd visible)).1.skills.Walk skillMd visible
      [(sampleCreation.dest, sampleVersion)] := by
  have hholding :
      (collectCommit samplePlaces noSkills sampleMade []
        (sampleMade.holding skillMd visible)).1.skills.holding skillMd visible =
          [(sampleCreation.dest, sampleVersion)] := by decide +kernel
  refine ⟨?_, List.pairwise_singleton _ _⟩
  rw [hholding]

/-- Two weeks with one version. -/
def twoWeeks : List Week :=
  [⟨samplePlaces, ⟨.local, true, []⟩, sampleMade, [], sampleMade.holding skillMd visible⟩,
    ⟨samplePlaces, ⟨.local, true, []⟩, sampleMade, [(sampleCreation.dest, sampleVersion)],
      sampleMade.holding skillMd visible⟩]

theorem serves_twoWeeks : Serves sampleGit [sampleCreation] twoWeeks (sampleRepo false) := by
  have hwalk : sampleMade.Walk skillMd visible (sampleMade.holding skillMd visible) :=
    ⟨List.Perm.refl _, List.pairwise_singleton _ _⟩
  refine ⟨⟨List.Perm.refl _, List.Pairwise.nil⟩, hwalk, madeIn_sample, inside_sample, ?_, hwalk,
    madeIn_sample, inside_sample, trivial⟩
  rw [collectMain_skills]
  simp only [Week.collect, sampleRepo]
  exact walk_collected

/-- The skill stands in one directory. -/
theorem one_directory_sample :
    (∀ out ∈ (weekly sampleGit twoWeeks (sampleRepo false)).2, Plainly out) ∧
      ∀ p x, (p, x) ∈ (weekly sampleGit twoWeeks (sampleRepo false)).1.skills.holding
        skillMd visible →
        x.name = sampleCreation.name → p = sampleCreation.dest :=
  (one_directory (ready_noSkills [sampleCreation]) twoWeeks serves_twoWeeks).imp_right fun h =>
    (h sampleCreation (List.mem_cons_self ..)).1

/-- A new skill, and an oracle without any. -/
theorem version_arrives_sample :
    Arrived sampleMade (syncSkills syncPlaces
      (collectCommit samplePlaces noSkills sampleMade []
        (sampleMade.holding skillMd visible)).1.skills noSkills
        [(sampleCreation.dest, sampleVersion)]).1.dest sampleCreation [sampleCreation.name] :=
  version_arrives madeIn_sample (ready_noSkills _) inside_sample ⟨List.Perm.refl _,
    List.Pairwise.nil⟩
    ⟨List.Perm.refl _, List.pairwise_singleton _ _⟩ walk_collected (by decide +kernel)
      (List.mem_cons_self ..)
    (by decide +kernel) fun ⟨_, _, _, hy, _⟩ => absurd hy List.not_mem_nil

end OracleSkills.Tools
