import OracleSkills.Python.Lines
import OracleSkills.Tools.Accounting
import OracleSkills.Tools.CollectTwice

/-!
# The one commit

After its loop `collect_commit.py` makes "ONE git commit" and may push it. It runs weekly, so that
"a silent failure here is a silent failure every week, forever": "the return codes of add/commit
MUST be checked".

git is a parameter: what a call makes of git's own state, and what it answers. What is relied on of
it is `Git.Lawful`, with a `Sight` of what can be seen of its state. `collectMain_honest`: what a
run prints of the commit is so. `no_silent_loss`: over any number of weeks, what is in the work tree
and not in the commit at `HEAD` has been reported, by an error or by a run that raised. But it is
reported once: `never_retried`.
-/

namespace OracleSkills.Tools

open Python Frontmatter Files

/-! ### git -/

/-- What `subprocess.run` gives of a process that has ended. -/
structure Completed where
  returncode : ℤ
  stdout : Text
  stderr : Text

/-- git, in a repository with this work tree: what a call makes of git's own state, and what it
answers. -/
structure Git (γ : Type*) where
  call : Tree → γ → List Text → γ × Completed

/-- `["rev-parse", "HEAD"]`. -/
def revParse : List Text := ["rev-parse".toList, "HEAD".toList]

/-- `["add", "-A"]`. -/
def addAll : List Text := ["add".toList, "-A".toList]

/-- `["-c", f"user.email={committer}@oracle", "-c", f"user.name={committer}"]`, if there is a
committer. -/
def committerOptions (committer : Text) : List Text :=
  if committer = [] then []
  else ["-c".toList, "user.email=".toList ++ committer ++ "@oracle".toList, "-c".toList,
    "user.name=".toList ++ committer]

/-- `["commit", "-m", msg]`, after the options for the committer. -/
def commitAs (committer msg : Text) : List Text :=
  committerOptions committer ++ ["commit".toList, "-m".toList, msg]

/-- `["push", "origin", refspec]`. -/
def pushTo (refspec : Text) : List Text := ["push".toList, "origin".toList, refspec]

/-- `rev.stdout.strip() if rev.returncode == 0 else None`. -/
def Completed.sha (r : Completed) : Option Text :=
  if r.returncode = 0 then some (strip r.stdout) else none

/-- What can be seen of git's state. -/
structure Sight (γ : Type*) where
  /-- The commit at `HEAD`, if there is one, -/
  head : γ → Option Text
  /-- the files in it, -/
  tree : γ → Path Text → Option File
  /-- and those that have been staged for the next one. -/
  staged : γ → Path Text → Option File
  /-- The commit at the branch of `origin` to which a refspec pushes. -/
  origin : γ → Text → Option Text
  /-- Files that `.gitignore` leaves out. -/
  ignored : Path Text → Bool

/-- The files of a work tree that a commit of all of it has. -/
def Sight.all {γ : Type*} (V : Sight γ) (t : Tree) (p : Path Text) : Option File :=
  if V.ignored p then none else t.get? p

/-- What is relied on of git. -/
structure Git.Lawful {γ : Type*} (G : Git γ) (V : Sight γ) : Prop where
  /-- `rev-parse HEAD` tells the commit at `HEAD`, and fails if there is none. -/
  rev_state : ∀ t g, (G.call t g revParse).1 = g
  rev_sha : ∀ t g, (G.call t g revParse).2.sha = V.head g
  /-- `add -A` stages the work tree, and makes no commit. -/
  add_head : ∀ t g, V.head (G.call t g addAll).1 = V.head g
  add_tree : ∀ t g, V.tree (G.call t g addAll).1 = V.tree g
  add_staged : ∀ t g, (G.call t g addAll).2.returncode = 0 →
    V.staged (G.call t g addAll).1 = V.all t
  add_origin : ∀ t g, V.origin (G.call t g addAll).1 = V.origin g
  /-- A `commit` that succeeds leaves a commit at `HEAD`, with what was staged. -/
  commit_head : ∀ t g c m, (G.call t g (commitAs c m)).2.returncode = 0 →
    V.head (G.call t g (commitAs c m)).1 ≠ none
  commit_tree : ∀ t g c m, (G.call t g (commitAs c m)).2.returncode = 0 →
    V.tree (G.call t g (commitAs c m)).1 = V.staged g
  commit_origin : ∀ t g c m, V.origin (G.call t g (commitAs c m)).1 = V.origin g
  /-- A `push` that succeeds puts the commit at `HEAD` on the branch. -/
  push_head : ∀ t g r, V.head (G.call t g (pushTo r)).1 = V.head g
  push_tree : ∀ t g r, V.tree (G.call t g (pushTo r)).1 = V.tree g
  push_origin : ∀ t g r, (G.call t g (pushTo r)).2.returncode = 0 →
    V.origin (G.call t g (pushTo r)).1 r = V.head g

/-! ### The end of `main` -/

/-- `--mode`. -/
inductive Mode where
  | local
  | online
deriving DecidableEq

/-- The arguments that are for git. -/
structure Options where
  mode : Mode
  push : Bool
  committer : Text

/-- What a run prints on standard output. -/
structure Printed where
  committed : List Text
  updated : List Text
  skipped : List Text
  renamed : List (Text × Text)
  rejected : List Rejection
  commit : Option Text
  pushed : Option Bool
  mode : Mode
  error : Option Text

/-- `"HEAD"`, or `"HEAD:auto-skill/batch"`. -/
def refspec : Mode → Text
  | .local => "HEAD".toList
  | .online => "HEAD:auto-skill/batch".toList

/-- `msg`. -/
def message (st : Collection) : Text :=
  "auto-skill: +".toList ++ (Nat.repr st.committed.length).toList ++ " skill(s)".toList ++
    (if st.updated = [] then [] else
      ", ".toList ++ (Nat.repr st.updated.length).toList ++ " updated in place".toList) ++
    (if st.renamed = [] then [] else
      ", ".toList ++ (Nat.repr st.renamed.length).toList ++ " renamed on name-collision".toList)

/-- `s or t`. -/
def orElse (s t : Text) : Text := if s = [] then t else s

/-- `"rc=%d" % returncode`. -/
def Completed.rc (r : Completed) : Text := "rc=".toList ++ r.returncode.repr.toList

/-- `commit_error`. -/
def commitError (headBefore : Option Text) (add commit : Completed) (sha : Option Text) :
    Option Text :=
  if add.returncode ≠ 0 then some ("add_failed: ".toList ++ orElse (strip add.stderr) add.rc)
  else if commit.returncode ≠ 0 then
    some ("commit_failed: ".toList ++
      orElse (strip commit.stderr) (orElse (strip commit.stdout) commit.rc))
  else if sha ≠ none ∧ sha = headBefore then some "commit_did_not_move_head".toList
  else none

/-- The lists, with what has become of the commit. -/
def printed (a : Options) (st : Collection) (commit : Option Text) (pushed : Option Bool)
    (error : Option Text) : Printed :=
  ⟨st.committed, st.updated, st.skipped, st.renamed, st.rejected, commit, pushed, a.mode, error⟩

variable {γ : Type*}

/-- The commit: git's state after it, `commit_sha` and `commit_error`. The four calls are made
whatever the ones before have answered. -/
def attempt (G : Git γ) (a : Options) (st : Collection) (g : γ) : γ × Option Text × Option Text :=
  let before := G.call st.skills g revParse
  let add := G.call st.skills before.1 addAll
  let commit := G.call st.skills add.1 (commitAs a.committer (message st))
  let rev := G.call st.skills commit.1 revParse
  (rev.1, rev.2.sha, commitError before.2.sha add.2 commit.2 rev.2.sha)

/-- `main` after its loop. -/
def publish (G : Git γ) (a : Options) (st : Collection) (g : γ) : γ × Printed :=
  if ¬ (st.committed ≠ [] ∨ st.renamed ≠ [] ∨ st.updated ≠ []) then (g, printed a st none none none)
  else
    let tried := attempt G a st g
    match tried.2.2 with
    | some error => (tried.1, printed a st none none (some error))
    | none =>
      if a.push then
        let push := G.call st.skills tried.1 (pushTo (refspec a.mode))
        (push.1, printed a st tried.2.1 (some (push.2.returncode = 0)) none)
      else (tried.1, printed a st tried.2.1 none none)

/-- The work tree, and git's state. -/
structure Repo (γ : Type*) where
  skills : Tree
  git : γ

/-- What a week's run is given: where the trees are, the arguments for git, the source, and the
`SKILL.md` files in the orders in which they are found. -/
structure Week where
  places : Places
  options : Options
  src : Tree
  repoFiles : List (Path Text × File)
  srcFiles : List (Path Text × File)

/-- The loop of a week's run. -/
def Week.collect (w : Week) (skills : Tree) : Collection × Bool :=
  collectCommit w.places skills w.src w.repoFiles w.srcFiles

/-- `collect_commit.py::main`: what it leaves, and what it prints if it does not raise. -/
def collectMain (G : Git γ) (w : Week) (r : Repo γ) : Repo γ × Option Printed :=
  let run := w.collect r.skills
  if run.2 then
    let out := publish G w.options run.1 r.git
    (⟨run.1.skills, out.1⟩, some out.2)
  else (⟨run.1.skills, r.git⟩, none)

/-- One run after the other. -/
def weekly (G : Git γ) : List Week → Repo γ → Repo γ × List (Option Printed)
  | [], r => (r, [])
  | w :: ws, r =>
    let out := collectMain G w r
    let rest := weekly G ws out.1
    (rest.1, out.2 :: rest.2)

/-! ### A run that changes a file has something to commit -/

variable {W : Places} {skills src : Tree} {repoFiles srcFiles : List (Path Text × File)}
  {st st' : Collection} {s : Skill} {target : Text} {dest : Path Text} {o : Outcome}

theorem commits_recorded (h : st.commits) : (recorded st s).commits := by
  cases hk : st.existing.get? s.name with
  | none => rwa [recorded_of_none hk]
  | some known =>
    by_cases hi : known.identity = s.identity
    · rw [recorded_of_update hk hi]
      exact Or.inr (Or.inr (by simp))
    · rw [recorded_of_rename hk hi]
      exact Or.inr (Or.inl (by simp))

theorem commits_of_placement (h : placement src st s target dest = some st') : st'.commits := by
  obtain ⟨t, -, rfl⟩ := placement_eq_some h
  by_cases hmem : target ∈ (recorded st s).updated
  · exact Or.inr (Or.inr (List.ne_nil_of_mem hmem))
  · refine Or.inl ?_
    simp [if_neg hmem]

/-- There is something to commit, or no file has changed. -/
def Noted (t : Tree) (st : Collection) : Prop := st.commits ∨ st.skills = t

theorem Noted.turn {t : Tree} (h : Noted t st) (ht : Turn W src st s o (some st')) :
    Noted t st' := by
  generalize hn : some st' = next at ht
  cases ht with
  | bad | known => cases hn; exact h
  | refused =>
    cases hn
    exact h.imp commits_recorded fun h => recorded_skills.trans h
  | updates | commits => exact Or.inl (commits_of_placement hn.symm)

theorem noted_collectSkill {t : Tree} (h : Noted t st) (hs : collectSkill W src st s = some st') :
    Noted t st' := by
  by_cases hauto : autoSkill s.fm
  · have hturn : Turn W src st s (outcome W st s) (collectSkill W src st s) := turn hauto
    exact h.turn (hs ▸ hturn)
  · rw [collectSkill_of_not_auto hauto, Option.some.injEq] at hs
    exact hs ▸ h

/-- A run has something to commit, or leaves every file as it was. -/
theorem noted_collectCommit : Noted skills (collectCommit W skills src repoFiles srcFiles).1 := by
  unfold collectCommit
  split_ifs with hends
  · have halong : Along (collectSkill W src) (fun _ _ _ => True) [] (collectSkillDirs srcFiles).1
        (start skills repoFiles) :=
      along_true
    obtain ⟨done, rest, -, hnoted, -⟩ := forEach_invariant (I := fun _ st => Noted skills st)
      (fun _ _ _ _ hst _ hs => noted_collectSkill hst hs) (Or.inr rfl) halong
    exact hnoted
  · exact Or.inr rfl

/-! ### What is printed of the commit -/

/-- What a run prints of the commit is so. -/
structure Honest (V : Sight γ) (a : Options) (r r' : Repo γ) (out : Printed) : Prop where
  /-- If it prints neither a commit nor an error, it has changed no file, and has not called git. -/
  quiet : out.commit = none → out.error = none → r' = r ∧ out.pushed = none
  /-- A commit that it prints is at `HEAD`, was not there before, and has every file of the work
  tree. -/
  commit : ∀ sha, out.commit = some sha → V.head r'.git = some sha ∧ V.head r.git ≠ some sha ∧
    V.tree r'.git = V.all r'.skills
  /-- With an error it prints no commit, and has pushed nothing. -/
  failed : out.error ≠ none → out.commit = none ∧ out.pushed = none ∧
    V.origin r'.git = V.origin r.git
  /-- It has pushed, or tried to, if it prints a commit and was told to push. -/
  pushed : out.pushed ≠ none ↔ out.commit ≠ none ∧ a.push = true
  /-- If it says so, the branch has that commit. -/
  landed : out.pushed = some true → V.origin r'.git (refspec a.mode) = out.commit

variable {V : Sight γ} {G : Git γ} {a : Options} {g : γ} {r : Repo γ}

theorem commitError_eq_none_iff {headBefore sha : Option Text} {add commit : Completed} :
    commitError headBefore add commit sha = none ↔
      add.returncode = 0 ∧ commit.returncode = 0 ∧ ¬ (sha ≠ none ∧ sha = headBefore) := by
  unfold commitError
  split_ifs with hadd hcommit hmoved
  · simp [hadd]
  · simp [hcommit]
  · exact iff_of_false not_false fun h => h.2.2 hmoved
  · exact iff_of_true rfl ⟨not_not.mp hadd, not_not.mp hcommit, hmoved⟩

/-- An attempt without an error has made a commit of the work tree, -/
theorem attempt_spec (hG : G.Lawful V) (h : (attempt G a st g).2.2 = none) :
    ∃ sha, (attempt G a st g).2.1 = some sha ∧ V.head (attempt G a st g).1 = some sha ∧
      V.head g ≠ some sha ∧
      V.tree (attempt G a st g).1 = V.all st.skills := by
  simp only [attempt, hG.rev_state, hG.rev_sha] at h ⊢
  obtain ⟨hadd, hcommit, hmoved⟩ := commitError_eq_none_iff.mp h
  have hhead := hG.commit_head _ _ _ _ hcommit
  obtain ⟨sha, hsha⟩ := Option.ne_none_iff_exists'.mp hhead
  refine ⟨sha, hsha, hsha, fun hold => hmoved ⟨hhead, hsha.trans hold.symm⟩, ?_⟩
  rw [hG.commit_tree _ _ _ _ hcommit, hG.add_staged _ _ hadd]

/-- and no attempt pushes. -/
theorem attempt_origin (hG : G.Lawful V) : V.origin (attempt G a st g).1 = V.origin g := by
  simp only [attempt, hG.rev_state, hG.commit_origin, hG.add_origin]

/-- A run that has nothing to commit does not call git. -/
theorem publish_of_not_commits (h : ¬ st.commits) :
    publish G a st g = (g, printed a st none none none) := if_pos h

theorem publish_of_error (h : st.commits) {error : Text}
    (he : (attempt G a st g).2.2 = some error) :
    publish G a st g = ((attempt G a st g).1, printed a st none none (some error)) := by
  apply (if_neg (not_not.mpr h)).trans
  simp only [he]

theorem publish_of_ok (h : st.commits) (he : (attempt G a st g).2.2 = none) :
    publish G a st g = if a.push then
        ((G.call st.skills (attempt G a st g).1 (pushTo (refspec a.mode))).1,
          printed a st (attempt G a st g).2.1
          (some ((G.call st.skills (attempt G a st g).1 (pushTo (refspec a.mode))).2.returncode =
            0)) none)
      else ((attempt G a st g).1, printed a st (attempt G a st g).2.1 none none) := by
  apply (if_neg (not_not.mpr h)).trans
  simp only [he]

/-- A run that ends, and has changed no file if it has nothing to commit, prints what is so. -/
theorem honest_publish (hG : G.Lawful V) (hnoted : Noted skills st) :
    Honest V a ⟨skills, g⟩ ⟨st.skills, (publish G a st g).1⟩ (publish G a st g).2 := by
  by_cases hc : st.commits
  · cases he : (attempt G a st g).2.2 with
    | some error =>
      rw [publish_of_error hc he]
      exact {
        quiet := fun _ h => nomatch h
        commit := fun _ h => nomatch h
        failed := fun _ => ⟨rfl, rfl, attempt_origin hG⟩
        pushed := by simp [printed]
        landed := fun h => nomatch h }
    | none =>
      obtain ⟨sha, hsha, hhead, hnew, htree⟩ := attempt_spec hG he
      rw [publish_of_ok hc he, hsha]
      split_ifs with hpush
      · exact {
          quiet := fun h => nomatch h
          commit := by
            rintro _ ⟨rfl⟩
            exact ⟨(hG.push_head ..).trans hhead, hnew, (hG.push_tree ..).trans htree⟩
          failed := fun h => absurd rfl h
          pushed := by simp [printed, hpush]
          landed := fun h => by
            have hrc : (G.call st.skills (attempt G a st g).1
                (pushTo (refspec a.mode))).2.returncode = 0 := by
              simpa [printed] using h
            exact (hG.push_origin _ _ _ hrc).trans hhead }
      · exact {
          quiet := fun h => nomatch h
          commit := by
            rintro _ ⟨rfl⟩
            exact ⟨hhead, hnew, htree⟩
          failed := fun h => absurd rfl h
          pushed := by simp [printed, hpush]
          landed := fun h => nomatch h }
  · rw [publish_of_not_commits hc, hnoted.resolve_left hc]
    exact {
      quiet := fun _ _ => ⟨rfl, rfl⟩
      commit := fun _ h => nomatch h
      failed := fun h => absurd rfl h
      pushed := by simp [printed]
      landed := fun h => nomatch h }

theorem collectMain_of_ends {w : Week} (h : (w.collect r.skills).2 = true) :
    collectMain G w r =
      (⟨(w.collect r.skills).1.skills, (publish G w.options (w.collect r.skills).1 r.git).1⟩,
      some (publish G w.options (w.collect r.skills).1 r.git).2) := if_pos h

theorem collectMain_of_raises {w : Week} (h : ¬ (w.collect r.skills).2 = true) :
    collectMain G w r = (⟨(w.collect r.skills).1.skills, r.git⟩, none) := if_neg h

theorem collectMain_skills (G : Git γ) (w : Week) (r : Repo γ) :
    (collectMain G w r).1.skills = (w.collect r.skills).1.skills := by
  by_cases h : (w.collect r.skills).2 = true
  · rw [collectMain_of_ends h]
  · rw [collectMain_of_raises h]

theorem honest_collectMain (hG : G.Lawful V) {w : Week} {out : Printed}
    (h : (collectMain G w r).2 = some out) :
    Honest V w.options r (collectMain G w r).1 out := by
  by_cases hends : (w.collect r.skills).2 = true
  · rw [collectMain_of_ends hends] at h ⊢
    cases h
    exact honest_publish hG noted_collectCommit
  · rw [collectMain_of_raises hends] at h
    cases h

/-- **The report is honest**: what a run prints of the commit is so; and if it raises, it has not
called git. -/
theorem collectMain_honest (hG : G.Lawful V) (w : Week) (r : Repo γ) :
    ((collectMain G w r).2 = none → (collectMain G w r).1.git = r.git) ∧
      ∀ out, (collectMain G w r).2 = some out → Honest V w.options r (collectMain G w r).1 out := by
  refine ⟨fun h => ?_, fun out h => honest_collectMain hG h⟩
  by_cases hends : (w.collect r.skills).2 = true
  · rw [collectMain_of_ends hends] at h
    cases h
  · rw [collectMain_of_raises hends]

/-! ### Weeks -/

/-- The commit at `HEAD` has every file of the work tree. -/
def Clean (V : Sight γ) (r : Repo γ) : Prop := V.tree r.git = V.all r.skills

/-- The run has raised, or printed an error. -/
def Fails (out : Option Printed) : Prop := ∀ p, out = some p → p.error ≠ none

/-- The run has printed a commit. -/
def Commits (out : Option Printed) : Prop := ∃ p sha, out = some p ∧ p.commit = some sha

/-- A run has failed, and none after it has printed a commit. -/
def Owed (outs : List (Option Printed)) : Prop :=
  ∃ before out after, outs = before ++ out :: after ∧ Fails out ∧ ∀ o ∈ after, ¬ Commits o

theorem Owed.cons {outs : List (Option Printed)} (h : Owed outs) (o : Option Printed) :
    Owed (o :: outs) := by
  obtain ⟨before, out, after, rfl, hfails, hafter⟩ := h
  exact ⟨o :: before, out, after, rfl, hfails, hafter⟩

/-- A run prints a commit of the whole work tree, or it fails, or it changes nothing. -/
theorem week_cases (hG : G.Lawful V) (w : Week) (r : Repo γ) :
    Clean V (collectMain G w r).1 ∨ Fails (collectMain G w r).2 ∨
      (collectMain G w r).1 = r ∧ ¬ Commits (collectMain G w r).2 := by
  cases hout : (collectMain G w r).2 with
  | none => exact Or.inr (Or.inl fun _ h => nomatch h)
  | some out =>
    have h := honest_collectMain hG hout
    cases hsha : out.commit with
    | some sha => exact Or.inl (h.commit sha hsha).2.2
    | none =>
      by_cases herr : out.error = none
      · refine Or.inr (Or.inr ⟨(h.quiet hsha herr).1, ?_⟩)
        rintro ⟨p, sha, hp, hcommit⟩
        cases hp
        rw [hsha] at hcommit
        cases hcommit
      · refine Or.inr (Or.inl ?_)
        rintro _ ⟨rfl⟩
        exact herr

/-- After any weeks, from any repository. -/
theorem weekly_cases (hG : G.Lawful V) (ws : List Week) (r : Repo γ) :
    Clean V (weekly G ws r).1 ∨ Owed (weekly G ws r).2 ∨ ¬ Clean V r ∧
        ∀ o ∈ (weekly G ws r).2, ¬ Commits o := by
  induction ws generalizing r with
  | nil =>
    rw [← or_assoc, or_right_comm]
    exact Or.inl ((em _).imp_right fun h => ⟨h, fun o ho => absurd ho List.not_mem_nil⟩)
  | cons w ws ih =>
    simp only [weekly]
    rcases ih (collectMain G w r).1 with h | h | ⟨hdirty, hnone⟩
    · exact Or.inl h
    · exact Or.inr (Or.inl (h.cons _))
    · rcases week_cases hG w r with h | h | ⟨h, hc⟩
      · exact absurd h hdirty
      · exact Or.inr (Or.inl ⟨[], _, _, rfl, h, hnone⟩)
      · exact Or.inr (Or.inr ⟨h ▸ hdirty, List.forall_mem_cons.mpr ⟨hc, hnone⟩⟩)

/-- **No silent loss**: after any number of weeks the commit at `HEAD` has every file of the work
tree, or a run has raised or printed an error, and none has printed a commit since. -/
theorem no_silent_loss (hG : G.Lawful V) (ws : List Week) {r : Repo γ} (h : Clean V r) :
    Clean V (weekly G ws r).1 ∨ Owed (weekly G ws r).2 :=
  (weekly_cases hG ws r).imp_right fun h' => h'.resolve_right fun hd => hd.1 h

/-! ### A commit that has failed -/

/-- A run that says nothing of a commit. -/
def Silent (out : Option Printed) : Prop :=
  ∃ p, out = some p ∧ p.commit = none ∧ p.pushed = none ∧ p.error = none

/-- An idle run does not call git, and says nothing of a commit. -/
theorem collectMain_of_idle {w : Week} (h : IdleRun w.src r.skills (w.collect r.skills)) :
    (collectMain G w r).1 = r ∧ Silent (collectMain G w r).2 := by
  have hc : ¬ (w.collect r.skills).1.commits := by
    rintro (hc | hc | hc)
    · exact hc h.committed
    · exact hc h.renamed
    · exact hc h.updated
  rw [collectMain_of_ends h.ends, publish_of_not_commits hc, h.skills]
  exact ⟨rfl, _, rfl, rfl, rfl, rfl⟩

/-- What every run after the first is given. -/
structure Again (w w' : Week) (t : Tree) : Prop where
  places : w'.places = w.places
  src : w'.src = w.src
  repoFiles : t.Walk skillMd visible w'.repoFiles
  srcFiles : w.src.Walk skillMd visible w'.srcFiles

/-- **A commit that has failed is not tried again**: whatever git has made of the first run, if
every turn of it settles its skill, then no later run over the same source calls git, or has an
error to tell. -/
theorem never_retried {w : Week} (hR : r.skills.Walk skillMd visible w.repoFiles)
    (hS : w.src.Walk skillMd visible w.srcFiles)
    (hskills : Readable r.skills) (hsrc : Readable w.src)
    (h : AllSettle w.places r.skills w.src w.repoFiles w.srcFiles)
    (ws : List Week) (hws : ∀ w' ∈ ws, Again w w' (collectMain G w r).1.skills) :
    (weekly G ws (collectMain G w r).1).1 = (collectMain G w r).1 ∧
      ∀ out ∈ (weekly G ws (collectMain G w r).1).2, Silent out := by
  obtain ⟨hends, hstable⟩ := first_run hR hS hskills hsrc h
  have hidle : ∀ w', Again w w' (collectMain G w r).1.skills →
      IdleRun w'.src (collectMain G w r).1.skills (w'.collect (collectMain G w r).1.skills) := by
    intro w' ⟨hplaces, hsource, hR', hS'⟩
    rw [collectMain_skills] at hR' ⊢
    simp only [Week.collect, hplaces, hsource] at hR' ⊢
    exact second_run hR' hS' hstable.readable hsrc fun s hy he =>
      hstable.settled s (mem_of_yielded hS hsrc hy) he
  clear hends hstable
  induction ws with
  | nil => exact ⟨rfl, fun _ ho => absurd ho List.not_mem_nil⟩
  | cons w' ws ih =>
    obtain ⟨hw', hws⟩ := List.forall_mem_cons.mp hws
    obtain ⟨hsame, hsilent⟩ : (collectMain G w' (collectMain G w r).1).1 = (collectMain G w r).1 ∧
        Silent (collectMain G w' (collectMain G w r).1).2 := collectMain_of_idle (hidle w' hw')
    obtain ⟨hend, hall⟩ := ih hws
    simp only [weekly, hsame]
    exact ⟨hend, List.forall_mem_cons.mpr ⟨hsilent, hall⟩⟩

/-! ### A sample git -/

/-- The commits, the last first, what is staged, the branches of `origin`, and whether a lock is in
the way. -/
structure SampleGit where
  log : List Tree
  index : Tree
  origin : Text → Option Text
  locked : Bool

/-- The names of commits. -/
def SampleGit.head (g : SampleGit) : Option Text :=
  if g.log = [] then none else some (List.replicate g.log.length 'a')

/-- What a call comes to; every other command than the first three is taken for a `commit`. -/
def sampleCall (t : Tree) (g : SampleGit) (args : List Text) : SampleGit × Completed :=
  if args = revParse then
    (g, match g.head with
      | some sha => ⟨0, sha ++ ['\n'], []⟩
      | none => ⟨128, [], "fatal: ambiguous argument 'HEAD'".toList⟩)
  else if args = addAll then
    if g.locked then (g, ⟨128, [], "fatal: Unable to create 'index.lock': File exists.".toList⟩)
    else ({ g with index := t }, ⟨0, [], []⟩)
  else if args.head? = some "push".toList then
    ({ g with origin := Function.update g.origin (args.getLastD []) g.head }, ⟨0, [], []⟩)
  else if g.locked then (g, ⟨128, [], "fatal: Unable to create 'index.lock': File exists.".toList⟩)
  else if g.log.head?.map Tree.files = some g.index.files then
    (g, ⟨1, "nothing to commit, working tree clean".toList, []⟩)
  else ({ g with log := g.index :: g.log }, ⟨0, [], []⟩)

def sampleGit : Git SampleGit := ⟨sampleCall⟩

def sampleSight : Sight SampleGit where
  head := SampleGit.head
  tree g p := g.log.head?.bind fun t => t.get? p
  staged g p := g.index.get? p
  origin := SampleGit.origin
  ignored _ := false

theorem commitAs_head (c m : Text) :
    (commitAs c m).head? = some "commit".toList ∨ (commitAs c m).head? = some "-c".toList := by
  unfold commitAs committerOptions
  split_ifs
  · exact Or.inl rfl
  · exact Or.inr rfl

theorem sampleCall_commitAs (t : Tree) (g : SampleGit) (c m : Text) :
    sampleCall t g (commitAs c m) =
    if g.locked then (g, ⟨128, [], "fatal: Unable to create 'index.lock': File exists.".toList⟩)
    else if g.log.head?.map Tree.files = some g.index.files then
      (g, ⟨1, "nothing to commit, working tree clean".toList, []⟩)
    else ({ g with log := g.index :: g.log }, ⟨0, [], []⟩) := by
  have hne : ∀ args : List Text, args.head? ≠ some "commit".toList → args.head? ≠ some "-c".toList →
      commitAs c m ≠ args := by
    rintro _ h h' rfl
    exact (commitAs_head c m).elim h h'
  have hpush : (commitAs c m).head? ≠ some "push".toList := by
    rcases commitAs_head c m with h | h <;> rw [h] <;> decide
  unfold sampleCall
  rw [if_neg (hne _ (by decide) (by decide)), if_neg (hne _ (by decide) (by decide)), if_neg hpush]

theorem sampleCall_pushTo (t : Tree) (g : SampleGit) (r : Text) :
    sampleCall t g (pushTo r) =
        ({ g with origin := Function.update g.origin r g.head }, ⟨0, [], []⟩) := by
  unfold sampleCall
  rw [if_neg (by simp [pushTo, revParse]), if_neg (by simp [pushTo, addAll])]
  exact if_pos rfl

theorem sampleCall_revParse_sha (t : Tree) (g : SampleGit) :
    (sampleCall t g revParse).2.sha = g.head := by
  unfold sampleCall
  rw [if_pos rfl]
  unfold SampleGit.head
  split_ifs
  · rfl
  · have hname : ∀ c ∈ List.replicate g.log.length 'a', isSpace c = false := fun c hc => by
      rw [List.eq_of_mem_replicate hc]
      rfl
    have hstrip : strip (List.replicate g.log.length 'a' ++ ['\n']) =
        List.replicate g.log.length 'a' :=
      (strip_append_right (List.forall_mem_singleton.mpr rfl) _).trans (stripped_of_noSpace hname)
    exact congrArg some hstrip

/-- The sample is a git on which all of this can be relied. -/
theorem lawful_sampleGit : sampleGit.Lawful sampleSight where
  rev_state _ _ := rfl
  rev_sha := sampleCall_revParse_sha
  add_head t g := by cases hl : g.locked <;> simp [sampleGit, sampleSight, sampleCall, addAll,
    revParse, hl, SampleGit.head]
  add_tree t g := by cases hl : g.locked <;> simp [sampleGit, sampleSight, sampleCall, addAll,
    revParse, hl]
  add_staged t g h := by
    cases hl : g.locked
    · simp [sampleGit, sampleSight, sampleCall, addAll, revParse, hl]
      rfl
    · simp [sampleGit, sampleCall, addAll, revParse, hl] at h
  add_origin t g := by cases hl : g.locked <;> simp [sampleGit, sampleSight, sampleCall, addAll,
    revParse, hl]
  commit_head t g c m h := by
    simp only [sampleGit, sampleSight, sampleCall_commitAs] at h ⊢
    split_ifs at h ⊢ <;> simp_all [SampleGit.head]
  commit_tree t g c m h := by
    simp only [sampleGit, sampleSight, sampleCall_commitAs] at h ⊢
    split_ifs at h ⊢ <;> simp_all
  commit_origin t g c m := by
    simp only [sampleGit, sampleSight, sampleCall_commitAs]
    split_ifs <;> rfl
  push_head t g r := by
    simp only [sampleGit, sampleSight, sampleCall_pushTo]
    rfl
  push_tree t g r := by
    simp only [sampleGit, sampleSight, sampleCall_pushTo]
  push_origin t g r _ := by
    simp only [sampleGit, sampleSight, sampleCall_pushTo]
    exact Function.update_self ..

/-- An empty repository, with a lock in the way or without. -/
def sampleRepo (locked : Bool) : Repo SampleGit :=
  ⟨noSkills, ⟨[noSkills], noSkills, fun _ => none, locked⟩⟩

/-- A week with the one new skill `foo`. -/
def sampleWeek (repoFiles : List (Path Text × File)) : Week :=
  ⟨samplePlaces, ⟨.local, true, "oracle-skills-bot".toList⟩, oneSkill fooLines, repoFiles,
    oneFile fooLines⟩

/-- The first week, with no lock in the way. -/
theorem collectMain_honest_foo :
    (collectMain sampleGit (sampleWeek []) (sampleRepo false)).2.bind Printed.commit =
      some "aa".toList ∧
      ∀ out, (collectMain sampleGit (sampleWeek []) (sampleRepo false)).2 = some out →
        Honest sampleSight (sampleWeek []).options (sampleRepo false)
            (collectMain sampleGit (sampleWeek []) (sampleRepo false)).1 out :=
  ⟨by decide +kernel, (collectMain_honest lawful_sampleGit _ _).2⟩

/-- Two weeks, with a lock. -/
theorem no_silent_loss_foo :
    Clean sampleSight
      (weekly sampleGit [sampleWeek [], sampleWeek (oneFile fooLines)] (sampleRepo true)).1 ∨
      Owed (weekly sampleGit [sampleWeek [], sampleWeek (oneFile fooLines)] (sampleRepo true)).2 :=
  no_silent_loss lawful_sampleGit _ rfl

/-- In the first of them the commit fails, and in the second there is nothing to tell. -/
theorem never_retried_foo :
    (collectMain sampleGit (sampleWeek []) (sampleRepo true)).2.bind Printed.error ≠ none ∧
      ∀ out ∈ (weekly sampleGit [sampleWeek (oneFile fooLines)]
        (collectMain sampleGit (sampleWeek []) (sampleRepo true)).1).2,
        Silent out := by
  have hwalk : (collectMain sampleGit (sampleWeek []) (sampleRepo true)).1.skills.Walk skillMd
      visible (oneFile fooLines) := by
    have hholding :
        (collectMain sampleGit (sampleWeek []) (sampleRepo true)).1.skills.holding skillMd visible =
        oneFile fooLines := by decide +kernel
    refine ⟨?_, by decide +kernel⟩
    rw [hholding]
  refine ⟨by decide +kernel, (never_retried ⟨List.Perm.refl _, List.Pairwise.nil⟩
    (walk_oneFile fooLines)
    (fun p x hx => absurd hx List.not_mem_nil) (readable_oneSkill fooLines) ?_ _ ?_).2⟩
  · exact ⟨fun _ => settles_foo, fun _ _ => trivial⟩
  · exact List.forall_mem_singleton.mpr ⟨rfl, rfl, hwalk, walk_oneFile fooLines⟩

end OracleSkills.Tools
