import OracleSkills.Tools.Collect

/-!
# What collecting reports

`collect_commit.py` prints what it has done with each skill of the source that is the tool's: it has
skipped or rejected it and written nothing, or updated it and replaced its old directory, or
committed it and written a new one, under another name if there is a record in `renamed`. It goes on
to `git commit` if anything is committed, renamed or updated.

`updated` and `renamed` are appended to before the target and the destination are checked, so that a
skill may be there and in `rejected`, and a commit be attempted with nothing written. A skill that
is new to the index may replace a directory that is there. `accounting_iff`: a run reports exactly
what it has written if and only if it can read what it walks through, and each turn is `Plain`.
-/

namespace OracleSkills.Tools

open Python Frontmatter Files

/-! ### What a turn comes to -/

/-- What becomes of a skill. -/
inductive Outcome where
  | skipped
  | rejected
  | updated
  | committed (target : Text)
deriving DecidableEq

/-- What becomes of a skill that aims somewhere. -/
def sent (W : Places) (target : Text) (dest : Path Text) (o : Outcome) : Outcome :=
  if badSegment target = none ∧ inside W.realpath W.root (pathText W.root dest) = true then
    o else .rejected

/-- What becomes of a skill of the tool's. -/
def outcome (W : Places) (st : Collection) (s : Skill) : Outcome :=
  if ¬ Eligible s then .rejected
  else
    match st.existing.get? s.name with
    | none => sent W s.name [s.category, s.name] (.committed s.name)
    | some known =>
      if known.hash = s.hash then .skipped
      else if known.identity = s.identity then sent W s.name known.path .updated
      else
        let target := freshTarget st.existing.keys s.name s.author
        sent W target [s.category, target] (.committed target)

/-- Nothing stands at the directory or below it. -/
def Vacant (t : Tree) (d : Path Text) : Prop := ∀ p x, (p, x) ∈ t → ¬ d <+: p

/-- The outcome is what the turn writes. -/
def Writes (src : Tree) (st : Collection) (s : Skill) (next : Option Collection) : Outcome → Prop
  | .skipped | .rejected => ∃ st', next = some st' ∧ st'.skills = st.skills
  | .updated => ∃ st' known, next = some st' ∧ st.existing.get? s.name = some known ∧
      st.skills.replaceDir known.path (src.below s.path) = some st'.skills
  | .committed target => ∃ st', next = some st' ∧ Vacant st.skills [s.category, target] ∧
      st.skills.replaceDir [s.category, target] (copied src s target) = some st'.skills

/-! ### The report -/

/-- The lists of a report, with the names in `rejected`. -/
@[ext] structure Report where
  skipped : List Text
  rejected : List Text
  updated : List Text
  committed : List Text
  renamed : List (Text × Text)

instance : Append Report where
  append a b := ⟨a.skipped ++ b.skipped, a.rejected ++ b.rejected, a.updated ++ b.updated,
    a.committed ++ b.committed, a.renamed ++ b.renamed⟩

/-- An empty report. -/
def Report.empty : Report := ⟨[], [], [], [], []⟩

namespace Report

variable (a b c : Report)

@[simp] theorem skipped_append : (a ++ b).skipped = a.skipped ++ b.skipped := rfl

@[simp] theorem rejected_append : (a ++ b).rejected = a.rejected ++ b.rejected := rfl

@[simp] theorem updated_append : (a ++ b).updated = a.updated ++ b.updated := rfl

@[simp] theorem committed_append : (a ++ b).committed = a.committed ++ b.committed := rfl

@[simp] theorem renamed_append : (a ++ b).renamed = a.renamed ++ b.renamed := rfl

theorem append_assoc : a ++ b ++ c = a ++ (b ++ c) := by ext1 <;> simp

@[simp] theorem append_empty : a ++ empty = a := by ext1 <;> simp [empty]

@[simp] theorem empty_append : empty ++ a = a := by ext1 <;> simp [empty]

end Report

/-- What the run prints. -/
def Collection.report (st : Collection) : Report :=
  ⟨st.skipped, st.rejected.map (·.name), st.updated, st.committed, st.renamed⟩

/-- What the report has of a skill. -/
def Outcome.entry (s : Skill) : Outcome → Report
  | .skipped => { Report.empty with skipped := [s.name] }
  | .rejected => { Report.empty with rejected := [s.name] }
  | .updated => { Report.empty with updated := [s.name] }
  | .committed target =>
    { Report.empty with committed := [target], renamed := if target = s.name then [] else
      [(s.name, target)] }

/-- The report of what becomes of the skills. -/
def tally (W : Places) (src : Tree) : List Skill → Collection → Report
  | [], _ => .empty
  | s :: ss, st =>
    (if autoSkill s.fm then (outcome W st s).entry s else .empty) ++
      match collectSkill W src st s with
      | none => .empty
      | some st' => tally W src ss st'

/-- `committed or renamed or updated`. -/
def Collection.commits (st : Collection) : Prop :=
  st.committed ≠ [] ∨ st.renamed ≠ [] ∨ st.updated ≠ []

/-- The run ends, and reports exactly what it has written. -/
structure Exact (W : Places) (skills src : Tree) (repoFiles srcFiles : List (Path Text × File)) :
    Prop where
  ends : (collectCommit W skills src repoFiles srcFiles).2 = true
  writes : Along (collectSkill W src)
    (fun _ st s => autoSkill s.fm → Writes src st s (collectSkill W src st s) (outcome W st s))
    [] (collectSkillDirs srcFiles).1 (start skills repoFiles)
  report : (collectCommit W skills src repoFiles srcFiles).1.report =
    tally W src (collectSkillDirs srcFiles).1 (start skills repoFiles)
  /-- A commit is attempted if a directory has been written. -/
  commit : (collectCommit W skills src repoFiles srcFiles).1.commits ↔
    (tally W src (collectSkillDirs srcFiles).1 (start skills repoFiles)).committed ≠ [] ∨
      (tally W src (collectSkillDirs srcFiles).1 (start skills repoFiles)).updated ≠ []

/-- The turn refuses a skill that it has recorded as updated or renamed. -/
def Misreports (W : Places) (st : Collection) (s : Skill) : Prop :=
  st.existing.get? s.name ≠ none ∧ ∃ target dest, Aims st s target dest ∧
    (badSegment target ≠ none ∨ inside W.realpath W.root (pathText W.root dest) = false)

/-- The turn does not refuse what it has recorded, nothing is in its way, and where it writes a new
directory there is none. -/
structure Plain (W : Places) (st : Collection) (s : Skill) : Prop where
  honest : Eligible s → ¬ Misreports W st s
  clear : ∀ target dest, Goes W st s target dest → st.skills.Clear dest
  vacant : ∀ target dest, Goes W st s target dest → ¬ Updates st s → Vacant st.skills dest

variable {W : Places} {skills src : Tree} {repoFiles srcFiles : List (Path Text × File)}
  {st st' : Collection} {s : Skill}
  {pre ss : List Skill} {target : Text} {dest : Path Text} {o : Outcome} {r : Report}

/-! ### A turn -/

/-- The end of a turn that places its skill. -/
def placement (src : Tree) (st : Collection) (s : Skill) (target : Text) (dest : Path Text) :
    Option Collection :=
  (st.skills.replaceDir dest (copied src s target)).map fun skills => { recorded st s with
    skills := skills
    existing := st.existing.set target ⟨s.hash, dest, s.identity⟩
    committed := if target ∈ (recorded st s).updated then st.committed else
      st.committed ++ [target] }

theorem Goes.collectSkill_eq (h : Goes W st s target dest) :
    collectSkill W src st s = placement src st s target dest := by
  rw [collectSkill_of_aims W src h.eligible h.aims, place_of_ok h.target_ok h.dest_inside,
    recorded_skills, recorded_existing, recorded_committed]
  rfl

/-- What a turn for a skill of the tool's does. -/
inductive Turn (W : Places) (src : Tree) (st : Collection) (s : Skill) :
    Outcome → Option Collection → Prop
  | bad (reason : Text) (extra : List (Text × Text)) (h : ¬ Eligible s) :
      Turn W src st s .rejected (some (st.refuse s.name reason extra))
  | known (k : Known) (he : Eligible s) (hk : st.existing.get? s.name = some k)
      (hh : k.hash = s.hash) :
      Turn W src st s .skipped (some { st with skipped := st.skipped ++ [s.name] })
  | refused (target : Text) (dest : Path Text) (reason : Text) (extra : List (Text × Text))
      (he : Eligible s)
      (ha : Aims st s target dest) (href : badSegment target ≠ none ∨
        inside W.realpath W.root (pathText W.root dest) = false) :
      Turn W src st s .rejected (some ((recorded st s).refuse s.name reason extra))
  | updates (k : Known) (hgoes : Goes W st s s.name k.path) (hk : st.existing.get? s.name = some k)
      (hh : k.hash ≠ s.hash)
      (hi : k.identity = s.identity) : Turn W src st s .updated (placement src st s s.name k.path)
  | commits (target : Text) (hgoes : Goes W st s target [s.category, target])
      (hfresh : st.existing.get? target = none) :
      Turn W src st s (.committed target) (placement src st s target [s.category, target])

theorem Turn.sent (he : Eligible s) (ha : Aims st s target dest)
    (hgo : Goes W st s target dest → Turn W src st s o (placement src st s target dest)) :
    Turn W src st s (sent W target dest o) (collectSkill W src st s) := by
  unfold Tools.sent
  split_ifs with hok
  · have hgoes : Goes W st s target dest := ⟨he, ha, hok.1, hok.2⟩
    rw [hgoes.collectSkill_eq]
    exact hgo hgoes
  · have href : badSegment target ≠ none ∨
        inside W.realpath W.root (pathText W.root dest) = false := by
      rw [not_and_or] at hok
      exact hok.imp_right eq_false_of_ne_true
    obtain ⟨reason, extra, heq⟩ : ∃ reason extra, place W src (recorded st s) s target dest =
        some ((recorded st s).refuse s.name reason extra) := place_of_refused href
    rw [collectSkill_of_aims W src he ha, heq]
    exact .refused target dest reason extra he ha href

/-- **A turn** does what becomes of its skill. -/
theorem turn (hauto : autoSkill s.fm) :
    Turn W src st s (outcome W st s) (collectSkill W src st s) := by
  unfold outcome
  split_ifs with he
  · cases hk : st.existing.get? s.name with
    | none => exact .sent he (.new hk rfl rfl) fun hgoes => .commits _ hgoes hk
    | some k =>
      simp only
      split_ifs with hh hi
      · rw [collectSkill_eq_skip he hk hh]
        exact .known k he hk hh
      · exact .sent he (.update k hk hh hi rfl rfl) fun hgoes => .updates k hgoes hk hh hi
      · refine .sent he (.rename k hk hh hi rfl rfl) fun hgoes => .commits _ hgoes ?_
        rw [Dict.get?_eq_none_iff]
        exact freshTarget_not_mem _ _ _
  · obtain ⟨reason, extra, heq⟩ : ∃ reason extra, collectSkill W src st s =
        some (st.refuse s.name reason extra) :=
      collectSkill_of_bad hauto he
    rw [heq]
    exact .bad reason extra he

/-- The skills that are reported as updated are in the index. -/
def Updated (st : Collection) : Prop := ∀ n ∈ st.updated, st.existing.get? n ≠ none

theorem Updated.recorded (h : Updated st) : Updated (Tools.recorded st s) := by
  intro n hn
  rw [recorded_existing]
  cases hk : st.existing.get? s.name with
  | none =>
    rw [recorded_of_none hk] at hn
    exact h n hn
  | some k =>
    by_cases hi : k.identity = s.identity
    · rw [recorded_of_update hk hi] at hn
      rcases List.mem_append.mp hn with hn | hn
      · exact h n hn
      · rw [List.mem_singleton.mp hn, hk]
        exact Option.some_ne_none _
    · rw [recorded_of_rename hk hi] at hn
      exact h n hn

theorem placement_eq_some (h : placement src st s target dest = some st') :
    ∃ t, st.skills.replaceDir dest (copied src s target) = some t ∧ st' = { recorded st s with
      skills := t
      existing := st.existing.set target ⟨s.hash, dest, s.identity⟩
      committed := if target ∈ (recorded st s).updated then st.committed else
          st.committed ++ [target] } := by
  obtain ⟨t, hr, heq⟩ := Option.map_eq_some_iff.mp h
  exact ⟨t, hr, heq.symm⟩

theorem Updated.placement (h : Updated st) (hp : placement src st s target dest = some st') :
    Updated st' := by
  obtain ⟨t, -, rfl⟩ := placement_eq_some hp
  intro n hn
  have hold := h.recorded n hn
  rw [recorded_existing] at hold
  rw [Dict.get?_set]
  split_ifs
  · exact Option.some_ne_none _
  · exact hold

theorem Updated.turn (h : Updated st) (ht : Turn W src st s o (some st')) : Updated st' := by
  generalize hn : some st' = next at ht
  cases ht with
  | bad | known => cases hn; exact h
  | refused => cases hn; exact h.recorded
  | updates | commits => exact h.placement hn.symm

/-- An update is reported as one, -/
theorem report_updates {k : Known} (hk : st.existing.get? s.name = some k)
    (hi : k.identity = s.identity)
    (h : placement src st s s.name dest = some st') :
    st'.report = st.report ++ Outcome.updated.entry s := by
  obtain ⟨t, -, rfl⟩ := placement_eq_some h
  rw [recorded_of_update hk hi]
  ext1 <;> simp [Collection.report, Outcome.entry, Report.empty]

/-- and a new directory as one, with its other name. -/
theorem report_commits (hu : Updated st) (ha : Aims st s target dest)
    (hfresh : st.existing.get? target = none)
    (h : placement src st s target dest = some st') :
    st'.report = st.report ++ (Outcome.committed target).entry s := by
  obtain ⟨t, -, rfl⟩ := placement_eq_some h
  have hmem : target ∉ st.updated := fun hn => hu target hn hfresh
  cases ha with
  | new hk ht =>
    subst ht
    rw [recorded_of_none hk]
    ext1 <;> simp [Collection.report, Outcome.entry, Report.empty, hmem]
  | update k hk _ _ ht =>
    rw [ht, hk] at hfresh
    cases hfresh
  | rename k hk _ hi ht =>
    have hne : target ≠ s.name := by
      rintro rfl
      rw [hk] at hfresh
      cases hfresh
    rw [recorded_of_rename hk hi, ← ht]
    ext1 <;> simp [Collection.report, Outcome.entry, Report.empty, hmem, hne]

/-- **What a turn adds to the lists**, where it does not refuse what it has recorded. -/
theorem Turn.report (h : Turn W src st s o (some st')) (hu : Updated st)
    (hhonest : Eligible s → ¬ Misreports W st s) :
    st'.report = st.report ++ o.entry s := by
  generalize hn : some st' = next at h
  cases h with
  | bad reason extra => cases hn; ext1 <;> simp [Collection.report, Collection.refuse,
    Outcome.entry, Report.empty]
  | known => cases hn; ext1 <;> simp [Collection.report, Outcome.entry, Report.empty]
  | refused target dest reason extra he ha href =>
    have hk : st.existing.get? s.name = none := by
      by_contra hk
      exact hhonest he ⟨hk, target, dest, ha, href⟩
    cases hn
    rw [recorded_of_none hk]
    ext1 <;> simp [Collection.report, Collection.refuse, Outcome.entry, Report.empty]
  | updates k hgoes hk hh hi => exact report_updates hk hi hn.symm
  | commits target hgoes hfresh => exact report_commits hu hgoes.aims hfresh hn.symm

/-- How many skills are reported as updated or renamed. -/
def Report.weight (r : Report) : ℕ := r.updated.length + r.renamed.length

theorem Report.weight_append (a b : Report) : (a ++ b).weight = a.weight + b.weight := by
  simp [Report.weight]
  omega

/-- A turn that refuses what it has recorded reports one too many. -/
theorem Turn.weight (h : Turn W src st s o (some st')) (he : Eligible s)
    (hmis : Misreports W st s) :
    st'.report.weight = st.report.weight + (o.entry s).weight + 1 := by
  obtain ⟨hknown, target, dest, ha, href⟩ := hmis
  have hno : ∀ target' dest', ¬ Goes W st s target' dest' := by
    rintro target' dest' hgoes
    obtain ⟨rfl, rfl⟩ := ha.unique hgoes.aims
    rcases href with href | href
    · exact href hgoes.target_ok
    · rw [hgoes.dest_inside] at href
      cases href
  generalize hn : some st' = next at h
  cases h with
  | bad _ _ hbad => exact absurd he hbad
  | known k _ hk hh => exact absurd hh (ha.hash_ne hk)
  | updates _ hgoes | commits _ hgoes => exact absurd hgoes (hno _ _)
  | refused =>
    cases hn
    obtain ⟨k, hk⟩ := Option.ne_none_iff_exists'.mp hknown
    by_cases hi : k.identity = s.identity
    · rw [recorded_of_update hk hi]
      simp [Collection.report, Collection.refuse, Outcome.entry, Report.empty, Report.weight]
      omega
    · rw [recorded_of_rename hk hi]
      simp [Collection.report, Collection.refuse, Outcome.entry, Report.empty, Report.weight]
      omega

/-- Nothing is in the way of a skill that is placed, and its directory is new if it is not
updated. -/
theorem Goes.forall_iff (h : Goes W st s target dest) {P : Path Text → Prop} :
    (∀ target dest, Goes W st s target dest → P dest) ↔ P dest := by
  refine ⟨fun hall => hall target dest h, fun hp target' dest' h' => ?_⟩
  rwa [← (h.aims.unique h'.aims).2]

theorem exists_placement_iff {P : Tree → Prop} :
    (∃ st', placement src st s target dest = some st' ∧ P st'.skills) ↔
      ∃ t, st.skills.replaceDir dest (copied src s target) = some t ∧ P t := by
  constructor
  · rintro ⟨st', hp, ht⟩
    obtain ⟨t, hr, rfl⟩ := placement_eq_some hp
    exact ⟨t, hr, ht⟩
  · rintro ⟨t, hr, ht⟩
    exact ⟨_, by rw [placement, hr]; rfl, ht⟩

/-- **What a turn writes** is its outcome, where nothing is in its way and a directory that is not
updated is new. -/
theorem Turn.writes_iff (h : Turn W src st s o (collectSkill W src st s)) :
    Writes src st s (collectSkill W src st s) o ↔
      (∀ target dest, Goes W st s target dest → st.skills.Clear dest) ∧
        ∀ target dest, Goes W st s target dest → ¬ Updates st s → Vacant st.skills dest := by
  have hidle : (∀ target dest, ¬ Goes W st s target dest) →
      (∀ target dest, Goes W st s target dest → st.skills.Clear dest) ∧
        ∀ target dest, Goes W st s target dest → ¬ Updates st s →
            Vacant st.skills dest := fun hno =>
    ⟨fun _ _ hgoes => absurd hgoes (hno _ _), fun _ _ hgoes => absurd hgoes (hno _ _)⟩
  generalize collectSkill W src st s = next at h ⊢
  cases h with
  | bad _ _ hbad => exact iff_of_true ⟨_, rfl, rfl⟩ (hidle fun _ _ hgoes => hbad hgoes.eligible)
  | known k _ hk hh =>
    exact iff_of_true ⟨_, rfl, rfl⟩ (hidle fun _ _ hgoes => hgoes.aims.hash_ne hk hh)
  | refused _ _ _ _ _ ha href =>
    refine iff_of_true ⟨_, rfl, recorded_skills⟩ (hidle fun target dest hgoes => ?_)
    obtain ⟨rfl, rfl⟩ := ha.unique hgoes.aims
    rcases href with href | href
    · exact href hgoes.target_ok
    · rw [hgoes.dest_inside] at href
      cases href
  | updates k hgoes hk hh hi =>
    have hcopied : copied src s s.name = src.below s.path := if_pos rfl
    have hup : Updates st s := ⟨k, hk, hh, hi⟩
    rw [hgoes.forall_iff, and_iff_left fun _ _ _ hno => absurd hup hno,
      ← Tree.replaceDir_isSome_iff (s := copied src s s.name)]
    constructor
    · rintro ⟨st', k', hp, hk', hr⟩
      rw [hk, Option.some.injEq] at hk'
      exact ⟨st'.skills, by rw [hk', hcopied, hr]⟩
    · rintro ⟨t, hr⟩
      obtain ⟨st', hp, ht⟩ := exists_placement_iff.mpr ⟨t, hr, rfl⟩
      exact ⟨st', k, hp, hk, by rw [← hcopied, hr, ht]⟩
  | commits target hgoes hfresh =>
    have hno : ¬ Updates st s := by
      rintro ⟨k, hk, hh, hi⟩
      obtain ⟨rfl, -⟩ := hgoes.aims.unique (.update k hk hh hi rfl rfl)
      rw [hk] at hfresh
      cases hfresh
    simp only [hno, not_false_eq_true, true_imp_iff]
    rw [hgoes.forall_iff, hgoes.forall_iff, ← Tree.replaceDir_isSome_iff]
    constructor
    · rintro ⟨st', -, hvacant, hr⟩
      exact ⟨⟨_, hr⟩, hvacant⟩
    · rintro ⟨⟨t, hr⟩, hvacant⟩
      obtain ⟨st', hp, ht⟩ := exists_placement_iff.mpr ⟨t, hr, rfl⟩
      exact ⟨st', hp, hvacant, ht ▸ hr⟩

/-! ### Every run -/

theorem Writes.exists_next {next : Option Collection} (h : Writes src st s next o) :
    ∃ st', next = some st' := by
  cases o with
  | skipped | rejected | committed =>
    obtain ⟨st', hn, -⟩ := h
    exact ⟨st', hn⟩
  | updated =>
    obtain ⟨st', k, hn, -⟩ := h
    exact ⟨st', hn⟩

theorem tally_cons_of_not_auto (h : ¬ autoSkill s.fm) :
    tally W src (s :: ss) st = tally W src ss st := by
  rw [tally, if_neg h, collectSkill_of_not_auto h, Report.empty_append]

theorem tally_cons_of_auto (h : autoSkill s.fm) (hturn : collectSkill W src st s = some st') :
    tally W src (s :: ss) st = (outcome W st s).entry s ++ tally W src ss st' := by
  rw [tally, if_pos h, hturn]

/-- A loop over plain turns ends, writes what becomes of its skills, and reports it. -/
theorem forEach_of_plain (hu : Updated st)
    (h : Along (collectSkill W src) (fun _ st s => autoSkill s.fm → Plain W st s) pre ss st) :
    (forEach (collectSkill W src) ss st).2 = true ∧
      Along (collectSkill W src) (fun _ st s => autoSkill s.fm →
        Writes src st s (collectSkill W src st s) (outcome W st s))
        pre ss st ∧
        (forEach (collectSkill W src) ss st).1.report = st.report ++ tally W src ss st := by
  induction ss generalizing pre st with
  | nil => exact ⟨rfl, trivial, by rw [forEach_nil, tally, Report.append_empty]⟩
  | cons s ss ih =>
    by_cases hauto : autoSkill s.fm
    · have ht : Turn W src st s (outcome W st s) (collectSkill W src st s) := turn hauto
      have hplain := h.1 hauto
      have hw := ht.writes_iff.mpr ⟨hplain.clear, hplain.vacant⟩
      obtain ⟨st', hturn⟩ := hw.exists_next
      rw [hturn] at ht
      obtain ⟨hends, hwrites, hreport⟩ := ih (hu.turn ht) (h.2 st' hturn)
      rw [forEach_cons_of_some hturn, tally_cons_of_auto hauto hturn]
      refine ⟨hends, ⟨fun _ => hw, fun st'' hturn' => ?_⟩, ?_⟩
      · rw [hturn, Option.some.injEq] at hturn'
        exact hturn' ▸ hwrites
      · rw [hreport, ht.report hu hplain.honest, Report.append_assoc]
    · have hturn : collectSkill W src st s = some st := collectSkill_of_not_auto hauto
      obtain ⟨hends, hwrites, hreport⟩ := ih hu (h.2 st hturn)
      rw [forEach_cons_of_some hturn, tally_cons_of_not_auto hauto]
      refine ⟨hends, ⟨fun ha => absurd ha hauto, fun st'' hturn' => ?_⟩, hreport⟩
      rw [hturn, Option.some.injEq] at hturn'
      exact hturn' ▸ hwrites

theorem Turn.weight_le (h : Turn W src st s o (some st')) (hu : Updated st) :
    st.report.weight + (o.entry s).weight ≤ st'.report.weight := by
  by_cases hmis : Eligible s ∧ Misreports W st s
  · have := h.weight hmis.1 hmis.2
    omega
  · rw [h.report hu fun he hm => hmis ⟨he, hm⟩, Report.weight_append]

/-- A loop that ends has gone on behind a skill of the tool's. -/
theorem exists_turn (hauto : autoSkill s.fm)
    (hends : (forEach (collectSkill W src) (s :: ss) st).2 = true) :
    ∃ st', collectSkill W src st s = some st' ∧ Turn W src st s (outcome W st s) (some st') ∧
      (forEach (collectSkill W src) ss st').2 = true := by
  have ht : Turn W src st s (outcome W st s) (collectSkill W src st s) := turn hauto
  cases hturn : collectSkill W src st s with
  | none =>
    rw [forEach_cons_of_none hturn] at hends
    cases hends
  | some st' =>
    rw [forEach_cons_of_some hturn] at hends
    exact ⟨st', rfl, hturn ▸ ht, hends⟩

/-- A loop that ends reports all that becomes of its skills, -/
theorem weight_le_forEach (hu : Updated st)
    (hends : (forEach (collectSkill W src) ss st).2 = true) :
    st.report.weight + (tally W src ss st).weight ≤
        (forEach (collectSkill W src) ss st).1.report.weight := by
  induction ss generalizing st with
  | nil => exact le_rfl
  | cons s ss ih =>
    by_cases hauto : autoSkill s.fm
    · obtain ⟨st', hturn, ht, hends⟩ := exists_turn hauto hends
      rw [forEach_cons_of_some hturn, tally_cons_of_auto hauto hturn, Report.weight_append]
      have := ih (hu.turn ht) hends
      have := ht.weight_le hu
      omega
    · have hturn : collectSkill W src st s = some st := collectSkill_of_not_auto hauto
      rw [forEach_cons_of_some hturn] at hends ⊢
      rw [tally_cons_of_not_auto hauto]
      exact ih hu hends

/-- and if it reports no more, it refuses nothing that it has recorded. -/
theorem honest_of_weight (hu : Updated st) (hends : (forEach (collectSkill W src) ss st).2 = true)
    (hw : (forEach (collectSkill W src) ss st).1.report.weight ≤ st.report.weight +
      (tally W src ss st).weight) :
    Along (collectSkill W src) (fun _ st s => autoSkill s.fm → Eligible s → ¬ Misreports W st s)
        pre ss st := by
  induction ss generalizing pre st with
  | nil => trivial
  | cons s ss ih =>
    by_cases hauto : autoSkill s.fm
    · obtain ⟨st', hturn, ht, hends⟩ := exists_turn hauto hends
      rw [forEach_cons_of_some hturn, tally_cons_of_auto hauto hturn, Report.weight_append] at hw
      have hle := weight_le_forEach (hu.turn ht) hends
      have hone := ht.weight_le hu
      refine ⟨fun _ he hmis => ?_, fun st'' hturn' => ?_⟩
      · have := ht.weight he hmis
        omega
      · rw [hturn, Option.some.injEq] at hturn'
        exact hturn' ▸ ih (hu.turn ht) hends (by omega)
    · have hturn : collectSkill W src st s = some st := collectSkill_of_not_auto hauto
      rw [forEach_cons_of_some hturn] at hends hw
      rw [tally_cons_of_not_auto hauto] at hw
      refine ⟨fun ha => absurd ha hauto, fun st'' hturn' => ?_⟩
      rw [hturn, Option.some.injEq] at hturn'
      exact hturn' ▸ ih hu hends hw

/-- What is renamed is committed. -/
def Report.Sound (r : Report) : Prop := r.renamed ≠ [] → r.committed ≠ []

theorem Report.Sound.append {a b : Report} (ha : a.Sound) (hb : b.Sound) : (a ++ b).Sound := by
  intro h
  simp only [renamed_append, committed_append, ne_eq, List.append_eq_nil_iff, not_and_or] at h ⊢
  exact h.imp ha hb

theorem sound_empty : Report.empty.Sound := fun h => absurd rfl h

theorem Outcome.sound_entry (o : Outcome) (s : Skill) : (o.entry s).Sound := by
  cases o with
  | committed target => exact fun _ => List.cons_ne_nil _ _
  | skipped | rejected | updated => exact fun h => absurd rfl h

theorem sound_tally (W : Places) (src : Tree) (ss : List Skill) (st : Collection) :
    (tally W src ss st).Sound := by
  induction ss generalizing st with
  | nil => exact sound_empty
  | cons s ss ih =>
    rw [tally]
    refine Report.Sound.append ?_ ?_
    · split_ifs
      · exact Outcome.sound_entry _ _
      · exact sound_empty
    · split
      · exact sound_empty
      · exact ih _

/-- A commit is attempted exactly if the report has a skill that is committed or updated. -/
theorem commits_iff (h : st.report = r) (hr : r.Sound) :
    st.commits ↔ r.committed ≠ [] ∨ r.updated ≠ [] := by
  subst h
  constructor
  · rintro (hc | hn | hu)
    · exact Or.inl hc
    · exact Or.inl (hr hn)
    · exact Or.inr hu
  · exact fun h => h.imp_right Or.inr

theorem updated_start : Updated (start skills repoFiles) := fun _ hn => absurd hn List.not_mem_nil

/-- **The report is exact** if and only if the run can read every `SKILL.md` that it finds, and
every turn is plain. -/
theorem accounting_iff (W : Places) (skills src : Tree)
    (repoFiles srcFiles : List (Path Text × File)) :
    Exact W skills src repoFiles srcFiles ↔
      (∀ f ∈ repoFiles ++ srcFiles, ∃ text, f.2.read = some text) ∧
        Along (collectSkill W src) (fun _ st s => autoSkill s.fm → Plain W st s) []
          (collectSkillDirs srcFiles).1
          (start skills repoFiles) := by
  rw [List.forall_mem_append, ← skillDirs_ends_iff, ← skillDirs_ends_iff]
  constructor
  · intro h
    have hends := h.ends
    have hR : (collectSkillDirs repoFiles).2 = true := by
      by_contra hR
      rw [collectCommit, if_pos hR] at hends
      cases hends
    have hS : (collectSkillDirs srcFiles).2 = true := by
      rw [collectCommit, if_neg (not_not.mpr hR)] at hends
      exact (Bool.and_eq_true_iff.mp hends).2
    have hreport := h.report
    rw [collectCommit_of_ends W skills src hR hS] at hends hreport
    have hhonest :
        Along (collectSkill W src) (fun _ st s => autoSkill s.fm → Eligible s →
        ¬ Misreports W st s) []
        (collectSkillDirs srcFiles).1 (start skills repoFiles) :=
      honest_of_weight updated_start hends (by rw [hreport]; exact Nat.le_add_left _ _)
    refine ⟨⟨hR, hS⟩, (h.writes.and hhonest).imp_mem fun pre st s _ hturn hauto => ?_⟩
    obtain ⟨hwrites, hhonest⟩ := hturn
    obtain ⟨hclear, hvacant⟩ := (turn hauto).writes_iff.mp (hwrites hauto)
    exact ⟨hhonest hauto, hclear, hvacant⟩
  · rintro ⟨⟨hR, hS⟩, hplain⟩
    obtain ⟨hends, hwrites, hreport⟩ := forEach_of_plain updated_start hplain
    rw [← collectCommit_of_ends W skills src hR hS] at hends hreport
    have hstart : (start skills repoFiles).report = Report.empty := rfl
    rw [hstart, Report.empty_append] at hreport
    exact ⟨hends, hwrites, hreport, commits_iff hreport (sound_tally _ _ _ _)⟩

/-! ### A skill that is renamed and refused -/

/-- Bob's `foo`, by a name that is no directory's. -/
def strangeLines : List Text :=
  ["---".toList, "name: foo".toList, "category: c".toList, "installer: auto-skill".toList,
    "created_by: a/b".toList, "content_hash: 2".toList, "---".toList]

/-- It is in `renamed` and in `rejected`, and a commit is attempted, but nothing has been
written. -/
theorem not_exact_renamed :
    ¬ ∀ (W : Places) (skills src : Tree) (repoFiles srcFiles : List (Path Text × File)),
    skills.Walk skillMd visible repoFiles → src.Walk skillMd visible srcFiles →
        Exact W skills src repoFiles srcFiles := by
  intro h
  have hcommit := (h samplePlaces (oneSkill fooLines) (oneSkill strangeLines) (oneFile fooLines)
    (oneFile strangeLines)
    (walk_oneFile _) (walk_oneFile _)).commit
  have hrenamed :
      (collectCommit samplePlaces (oneSkill fooLines) (oneSkill strangeLines) (oneFile fooLines)
      (oneFile strangeLines)).1.renamed = [("foo".toList, "foo-a/b".toList)] := by decide +kernel
  have htally :
      (tally samplePlaces (oneSkill strangeLines) (collectSkillDirs (oneFile strangeLines)).1
      (start (oneSkill fooLines) (oneFile fooLines))) =
          { Report.empty with rejected := ["foo".toList] } := by
    ext1 <;> decide +kernel
  rw [htally] at hcommit
  rcases hcommit.mp (Or.inr (Or.inl (by rw [hrenamed]; exact List.cons_ne_nil _ _))) with hno | hno
  · exact hno rfl
  · exact hno rfl

end OracleSkills.Tools
