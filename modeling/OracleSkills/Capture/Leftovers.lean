import OracleSkills.Capture.Recapture
import OracleSkills.Files.Steps

/-!
# What a failed attempt has left

`learnWithRetry` lists the learnings directory before it calls `handleLearn`, and again when that
has thrown, and removes the names that are new: "remove whatever the failed attempt left behind".
Other processes file learnings into the same directory all the while.

A run is a list of events, each of its own or of another process, in any order. `removes_own_only`:
no file of another process is removed if the second listing of every attempt comes before such a
file that the first has not shown; and where a clean-up comes to its end, only then.

The run of the hook (`Recapture`) goes through the same steps with no other process (`run_of_step`).
-/

namespace OracleSkills.Capture

open Python Files Concurrency

/-! ### The files -/

/-- The names that are new in the directory. -/
def appeared (files files' : Tree Text Text) (dir : Path Text) : List Text :=
  (readdir files' dir).filter (· ∉ readdir files dir)

variable {files files' : Tree Text Text} {dir p : Path Text} {markdown name n : Text}

theorem mem_readdir : n ∈ readdir files dir ↔ ∃ q y, (dir ++ n :: q, y) ∈ files := by
  simp only [readdir, Tree.mem_names, Tree.mem_below]

theorem mem_appeared :
    n ∈ appeared files files' dir ↔ n ∈ readdir files' dir ∧ n ∉ readdir files dir := by
  simp [appeared]

/-- A write takes no name away. -/
theorem readdir_write (h : files.write p markdown = some files') (hn : n ∈ readdir files dir) :
    n ∈ readdir files' dir := by
  obtain ⟨q, y, hy⟩ := mem_readdir.mp hn
  rw [mem_readdir]
  by_cases hq : dir ++ n :: q = p
  · exact ⟨q, markdown, (Tree.mem_write h).mpr (Or.inl ⟨hq, rfl⟩)⟩
  · exact ⟨q, y, (Tree.mem_write h).mpr (Or.inr ⟨hq, hy⟩)⟩

/-- Where a new file can be made, it is written. -/
theorem write_of_create (h : files.create p markdown = some files') :
    files.write p markdown = some files' := by
  unfold Tree.write
  rw [if_neg, h]
  intro hp
  obtain ⟨y, hy⟩ := Option.isSome_iff_exists.mp hp
  exact Tree.ne_of_create h (Tree.get?_eq_some_iff.mp hy) rfl

/-- Other names stay. -/
theorem readdir_rmSync_of_ne (h : rmSync files (dir ++ [name]) = some files') (hne : n ≠ name) :
    n ∈ readdir files' dir ↔ n ∈ readdir files dir := by
  rcases rmSync_cases h with rfl | ⟨-, rfl⟩
  · rfl
  · simp only [mem_readdir, Tree.mem_without]
    refine exists₂_congr fun q y => and_iff_left ?_
    rw [List.prefix_append_right_inj, List.cons_prefix_cons]
    exact fun hp => hne hp.1.symm

/-! ### The run -/

/-- A run of `learnWithRetry`, and who made what. -/
structure Retry where
  files : Tree Text Text
  phase : Phase
  /-- The names in the directory that were there before the run, or that other processes have
  made. -/
  others : List Text
  /-- Those of them that the first listing of the attempt has not shown. -/
  missed : List Text
  /-- Those that the run has removed. -/
  lost : List Text

/-- What happens next. -/
inductive RetryEvent where
  /-- A call of the run returns or throws. -/
  | returns
  | throws
  /-- `handleLearn` writes a file, -/
  | writes (p : Path Text) (markdown : Text)
  /-- and returns or throws. -/
  | learns (learningId : Text)
  | throwsLearning (message : Text)
  /-- Another process writes a file. -/
  | otherWrites (p : Path Text) (markdown : Text)

/-- A run begins. -/
def Retry.start (dir : Path Text) (files : Tree Text Text) : Retry where
  files
  phase := .learning 1
  others := readdir files dir
  missed := []
  lost := []

/-- `learnWithRetry`, event by event. -/
def Retry.step (dir : Path Text) (r : Retry) (e : RetryEvent) : Option Retry :=
  match r.phase, e with
  | _, .otherWrites p markdown =>
    (r.files.write p markdown).map fun files =>
      { r with
        files
        others := appeared r.files files dir ++ r.others
        missed := appeared r.files files dir ++ r.missed }
  | .learning attempt, .returns => some { r with phase := .listed attempt (readdir r.files dir), missed := [] }
  -- `safeReaddir` gives no names if it fails
  | .learning attempt, .throws => some { r with phase := .listed attempt [], missed := r.others }
  | .listed _ _, .writes p markdown => (r.files.write p markdown).map fun files => { r with files }
  | .listed _ _, .learns learningId => some { r with phase := .learned learningId }
  | .listed attempt before, .throwsLearning message => some { r with phase := .thrown attempt before message }
  | .thrown attempt before message, .returns =>
    some { r with phase := .cleaning attempt ((readdir r.files dir).filter (· ∉ before)) message }
  | .thrown attempt _ message, .throws => some { r with phase := .cleaning attempt [] message }
  | .cleaning attempt (name :: names) message, .returns =>
    (rmSync r.files (dir ++ [name])).map fun files =>
      { r with
        files
        phase := .cleaning attempt names message
        others := r.others.filter (· ≠ name)
        lost := if name ∈ r.others then name :: r.lost else r.lost }
  | .cleaning _ (_ :: _) _, .throws => some { r with phase := .failed }
  | .cleaning attempt [] message, .returns =>
    some { r with phase := if isLocked message ∧ attempt < attempts then .learning (attempt + 1) else .failed }
  | _, _ => none

/-- The runs. -/
def retry (dir : Path Text) : Machine Retry RetryEvent := ⟨Retry.step dir⟩

/-- The second listing does not come after a file of another process that the first has not
shown. -/
def Unmissed (r : Retry) (e : RetryEvent) : Prop :=
  match r.phase, e with
  | .thrown _ _ _, .returns => r.missed = []
  | _, _ => True

/-- No clean-up is cut short by what `fs.rmSync` throws, -/
def Uncut (r : Retry) (e : RetryEvent) : Prop :=
  match r.phase, e with
  | .cleaning _ (_ :: _) _, .throws => False
  | _, _ => True

/-- and none is going on. -/
def Retry.Through (r : Retry) : Prop :=
  ∀ attempt name names message, r.phase ≠ .cleaning attempt (name :: names) message

variable {r r' : Retry} {e : RetryEvent}

/-- What an event does. -/
inductive Retry.Effect (dir : Path Text) (r : Retry) (e : RetryEvent) (r' : Retry) : Prop where
  | other (p : Path Text) (markdown : Text) (files : Tree Text Text)
      (hfiles : r.files.write p markdown = some files)
      (h : r' = ⟨files, r.phase, appeared r.files files dir ++ r.others,
        appeared r.files files dir ++ r.missed, r.lost⟩)
  | lists (attempt : ℕ) (hphase : r.phase = .learning attempt)
      (h : r' = ⟨r.files, .listed attempt (readdir r.files dir), r.others, [], r.lost⟩)
  | listsNone (attempt : ℕ) (hphase : r.phase = .learning attempt)
      (h : r' = ⟨r.files, .listed attempt [], r.others, r.others, r.lost⟩)
  | writes (attempt : ℕ) (before : List Text) (p : Path Text) (markdown : Text)
      (files : Tree Text Text)
      (hphase : r.phase = .listed attempt before) (hfiles : r.files.write p markdown = some files)
      (h : r' = ⟨files, r.phase, r.others, r.missed, r.lost⟩)
  | throwsLearning (attempt : ℕ) (before : List Text) (message : Text)
      (hphase : r.phase = .listed attempt before)
      (h : r' = ⟨r.files, .thrown attempt before message, r.others, r.missed, r.lost⟩)
  | listsAgain (attempt : ℕ) (before : List Text) (message : Text)
      (hphase : r.phase = .thrown attempt before message)
      (he : e = .returns)
      (h : r' = ⟨r.files, .cleaning attempt ((readdir r.files dir).filter (· ∉ before)) message,
        r.others, r.missed, r.lost⟩)
  | removes (attempt : ℕ) (name : Text) (names : List Text) (message : Text)
      (files : Tree Text Text)
      (hphase : r.phase = .cleaning attempt (name :: names) message)
        (hfiles : rmSync r.files (dir ++ [name]) = some files)
      (h : r' = ⟨files, .cleaning attempt names message, r.others.filter (· ≠ name), r.missed,
        if name ∈ r.others then name :: r.lost else r.lost⟩)
  | cuts (attempt : ℕ) (name : Text) (names : List Text) (message : Text)
      (hphase : r.phase = .cleaning attempt (name :: names) message) (he : e = .throws)
      (h : r' = ⟨r.files, .failed, r.others, r.missed, r.lost⟩)
  /-- The attempt is over, or nothing is to be removed. -/
  | idles (phase : Phase) (hthrough : r.Through)
      (h : r' = ⟨r.files, phase, r.others, r.missed, r.lost⟩)
      (hidle : (∃ attempt message, phase = .cleaning attempt [] message) ∨
        (∃ attempt, phase = .learning attempt) ∨
        (∃ learningId, phase = .learned learningId) ∨ phase = .failed)

theorem Retry.step_effect (h : r.step dir e = some r') : r.Effect dir e r' := by
  obtain ⟨files, phase, others, missed, lost⟩ := r
  cases e with
  | otherWrites p markdown =>
    have h : (files.write p markdown).map
        (fun files' => (⟨files', phase, appeared files files' dir ++ others,
        appeared files files' dir ++ missed, lost⟩ : Retry)) = some r' := by
      cases phase <;> exact h
    obtain ⟨files', hfiles, rfl⟩ := Option.map_eq_some_iff.mp h
    exact .other p markdown files' hfiles rfl
  | returns =>
    cases phase with
    | learning attempt =>
      cases h
      exact .lists attempt rfl rfl
    | thrown attempt before message =>
      cases h
      exact .listsAgain attempt before message rfl rfl rfl
    | cleaning attempt names message =>
      cases names with
      | nil =>
        cases h
        refine .idles _ (fun _ _ _ _ he => nomatch he) rfl ?_
        split_ifs
        · exact Or.inr (Or.inl ⟨_, rfl⟩)
        · exact Or.inr (Or.inr (Or.inr rfl))
      | cons name names =>
        obtain ⟨files', hfiles, rfl⟩ := Option.map_eq_some_iff.mp h
        exact .removes attempt name names message files' rfl hfiles rfl
    | _ => cases h
  | throws =>
    cases phase with
    | learning attempt =>
      cases h
      exact .listsNone attempt rfl rfl
    | thrown attempt before message =>
      cases h
      exact .idles _ (fun _ _ _ _ he => nomatch he) rfl (Or.inl ⟨_, _, rfl⟩)
    | cleaning attempt names message =>
      cases names with
      | nil => cases h
      | cons name names =>
        cases h
        exact .cuts attempt name names message rfl rfl rfl
    | _ => cases h
  | writes p markdown =>
    cases phase with
    | listed attempt before =>
      obtain ⟨files', hfiles, rfl⟩ := Option.map_eq_some_iff.mp h
      exact .writes attempt before p markdown files' rfl hfiles rfl
    | _ => cases h
  | learns learningId =>
    cases phase with
    | listed attempt before =>
      cases h
      exact .idles _ (fun _ _ _ _ he => nomatch he) rfl (Or.inr (Or.inr (Or.inl ⟨_, rfl⟩)))
    | _ => cases h
  | throwsLearning message =>
    cases phase with
    | listed attempt before =>
      cases h
      exact .throwsLearning attempt before message rfl rfl
    | _ => cases h

/-! ### What the listings show -/

/-- Where the names of the directory come from. -/
def Sorted (dir : Path Text) (r : Retry) : Phase → Prop
  | .listed _ before | .thrown _ before _ =>
    (∀ n ∈ before, n ∈ readdir r.files dir) ∧ ∀ n, n ∈ r.missed ↔ n ∈ r.others ∧ n ∉ before
  | .cleaning _ names _ => names.Nodup ∧ ∀ n ∈ names, n ∈ readdir r.files dir
  | _ => True

/-- The names of others are in the directory, and the listings show what they do. -/
structure Accounted (dir : Path Text) (r : Retry) : Prop where
  present : ∀ n ∈ r.others, n ∈ readdir r.files dir
  sorted : Sorted dir r r.phase

/-- No file of another process has been removed or is to be removed. -/
structure Spared (r : Retry) : Prop where
  lost : r.lost = []
  names : ∀ attempt names message, r.phase = .cleaning attempt names message →
    ∀ n ∈ names, n ∉ r.others

theorem accounted_start : Accounted dir (Retry.start dir files) := ⟨fun _ h => h, trivial⟩

theorem spared_start : Spared (Retry.start dir files) := ⟨rfl, fun _ _ _ h => nomatch h⟩

/-- What another process writes is accounted for. -/
theorem Accounted.other (h : Accounted dir r) (hfiles : r.files.write p markdown = some files) :
    Accounted dir ⟨files, r.phase, appeared r.files files dir ++ r.others,
        appeared r.files files dir ++ r.missed, r.lost⟩ where
  present n hn := by
    rcases List.mem_append.mp hn with hn | hn
    · exact (mem_appeared.mp hn).1
    · exact readdir_write hfiles (h.present n hn)
  sorted := by
    have hsorted := h.sorted
    cases hphase : r.phase with
    | listed attempt before | thrown attempt before message =>
      rw [hphase] at hsorted
      refine ⟨fun n hn => readdir_write hfiles (hsorted.1 n hn), fun n => ?_⟩
      -- a name that appears is not in `before`, which the directory has
      have hnew : n ∈ appeared r.files files dir → n ∉ before :=
        fun hn hb => (mem_appeared.mp hn).2 (hsorted.1 n hb)
      simp only [List.mem_append, hsorted.2 n]
      grind
    | cleaning attempt names message =>
      rw [hphase] at hsorted
      exact ⟨hsorted.1, fun n hn => readdir_write hfiles (hsorted.2 n hn)⟩
    | _ => trivial

theorem accounted_step (h : Accounted dir r) (hstep : r.step dir e = some r') :
    Accounted dir r' := by
  have hsorted := h.sorted
  cases Retry.step_effect hstep with
  | other p markdown files hfiles heq => exact heq ▸ h.other hfiles
  | lists attempt hphase heq =>
    subst heq
    refine ⟨h.present, fun n hn => hn,
      fun n => ⟨fun hn => absurd hn List.not_mem_nil, fun hn => ?_⟩⟩
    exact absurd (h.present n hn.1) hn.2
  | listsNone attempt hphase heq =>
    subst heq
    exact ⟨h.present, fun n hn => absurd hn List.not_mem_nil,
      fun n => (and_iff_left List.not_mem_nil).symm⟩
  | writes attempt before p markdown files hphase hfiles heq =>
    subst heq
    rw [hphase] at hsorted ⊢
    exact ⟨fun n hn => readdir_write hfiles (h.present n hn),
      fun n hn => readdir_write hfiles (hsorted.1 n hn), hsorted.2⟩
  | throwsLearning attempt before message hphase heq =>
    subst heq
    rw [hphase] at hsorted
    exact ⟨h.present, hsorted⟩
  | listsAgain attempt before message hphase he heq =>
    subst heq
    exact ⟨h.present, (Tree.nodup_names _).filter _, fun n hn => (List.mem_filter.mp hn).1⟩
  | removes attempt name names message files hphase hfiles heq =>
    subst heq
    rw [hphase] at hsorted
    obtain ⟨hnodup, hnames⟩ := hsorted
    rw [List.nodup_cons] at hnodup
    refine ⟨fun n hn => ?_, hnodup.2, fun n hn => ?_⟩
    · obtain ⟨hn, hne⟩ := List.mem_filter.mp hn
      exact (readdir_rmSync_of_ne hfiles (by simpa using hne)).mpr (h.present n hn)
    · have hne : n ≠ name := fun he => hnodup.1 (he ▸ hn)
      exact (readdir_rmSync_of_ne hfiles hne).mpr (hnames n (List.mem_cons_of_mem _ hn))
  | cuts attempt name names message hphase he heq =>
    subst heq
    exact ⟨h.present, trivial⟩
  | idles phase hthrough heq hidle =>
    subst heq
    refine ⟨h.present, ?_⟩
    rcases hidle with ⟨_, _, rfl⟩ | ⟨_, rfl⟩ | ⟨_, rfl⟩ | rfl
    · exact ⟨List.nodup_nil, fun n hn => absurd hn List.not_mem_nil⟩
    all_goals trivial

/-! ### What is removed -/

/-- A phase in which nothing is to be removed. -/
theorem spared_of_lost {phase : Phase} {others missed : List Text} (hlost : r.lost = [])
    (hphase : ∀ attempt name names message, phase ≠ .cleaning attempt (name :: names) message) :
    Spared ⟨files, phase, others, missed, r.lost⟩ := by
  refine ⟨hlost, fun attempt names message he => ?_⟩
  cases names with
  | nil => exact fun n hn => absurd hn List.not_mem_nil
  | cons name names => exact absurd he (hphase attempt name names message)

/-- An event that is no second listing after a file of others has come unseen, spares the files of
others, -/
theorem spared_step (h : Accounted dir r) (hs : Spared r) (hun : Unmissed r e)
    (hstep : r.step dir e = some r') : Spared r' := by
  have hsorted := h.sorted
  cases Retry.step_effect hstep with
  | other p markdown files hfiles heq =>
    subst heq
    refine ⟨hs.lost, fun attempt names message hphase n hn => ?_⟩
    rw [show r.phase = .cleaning attempt names message from hphase] at hsorted
    -- what is to be removed is in the directory, and has not appeared now
    rw [List.mem_append, not_or, mem_appeared]
    exact ⟨fun hnew => hnew.2 (hsorted.2 n hn), hs.names attempt names message hphase n hn⟩
  | lists attempt hphase heq => exact heq ▸ spared_of_lost hs.lost fun _ _ _ _ he => nomatch he
  | listsNone attempt hphase heq => exact heq ▸ spared_of_lost hs.lost fun _ _ _ _ he => nomatch he
  | writes attempt before p markdown files hphase hfiles heq =>
    exact heq ▸ spared_of_lost hs.lost fun _ _ _ _ he => nomatch hphase.symm.trans he
  | throwsLearning attempt before message hphase heq =>
    exact heq ▸ spared_of_lost hs.lost fun _ _ _ _ he => nomatch he
  | listsAgain attempt before message hphase he heq =>
    subst heq
    rw [hphase] at hsorted
    simp only [Unmissed, hphase, he] at hun
    refine ⟨hs.lost, fun attempt names message hc n hn ho => ?_⟩
    cases hc
    have hmissed := (hsorted.2 n).mpr ⟨ho, by simpa using (List.mem_filter.mp hn).2⟩
    rw [hun] at hmissed
    exact List.not_mem_nil hmissed
  | removes attempt name names message files hphase hfiles heq =>
    subst heq
    have hnames := hs.names attempt _ message hphase
    refine ⟨?_, fun attempt names message hc n hn ho => ?_⟩
    · show (if _ then _ else _) = _
      rw [if_neg (hnames name (List.mem_cons_self ..)), hs.lost]
    · cases hc
      exact hnames n (List.mem_cons_of_mem _ hn) (List.mem_filter.mp ho).1
  | cuts attempt name names message hphase he heq =>
    exact heq ▸ spared_of_lost hs.lost fun _ _ _ _ he => nomatch he
  | idles phase hthrough heq hidle =>
    refine heq ▸ spared_of_lost hs.lost fun _ _ _ _ he => ?_
    rcases hidle with ⟨_, _, rfl⟩ | ⟨_, rfl⟩ | ⟨_, rfl⟩ | rfl <;> cases he

/-- and such a listing does not. -/
theorem unmissed_of_spared (h : Accounted dir r)
    (hstep : ∀ r', (retry dir).step r e = some r' → Spared r') : Unmissed r e := by
  have hsorted := h.sorted
  unfold Unmissed
  split
  · next phase event attempt before message hphase =>
    rw [hphase] at hsorted
    rw [List.eq_nil_iff_forall_not_mem]
    intro n hn
    have hsp := hstep
      { r with phase := .cleaning attempt ((readdir r.files dir).filter (· ∉ before)) message }
      (by simp only [retry, Retry.step, hphase])
    obtain ⟨ho, hb⟩ := (hsorted.2 n).mp hn
    exact hsp.names _ _ _ rfl n (List.mem_filter.mpr ⟨h.present n ho, by simpa using hb⟩) ho
  · trivial

/-- **An event** spares the files of others exactly if it is no second listing that comes after one
of them which the first has not shown. -/
theorem unmissed_iff (h : Accounted dir r) (hs : Spared r) :
    Unmissed r e ↔ ∀ r', (retry dir).step r e = some r' → Spared r' :=
  ⟨fun hun _ hstep => spared_step h hs hun hstep, fun hstep => unmissed_of_spared h hstep⟩

/-- What has been lost, or is to be removed, is not spared by any further event that cuts nothing short. -/
theorem not_spared_step (hs : ¬ Spared r) (hun : Uncut r e) (hstep : r.step dir e = some r') :
    ¬ Spared r' := by
  intro hs'
  refine hs ?_
  cases Retry.step_effect hstep with
  | other p markdown files hfiles heq =>
    subst heq
    exact ⟨hs'.lost, fun attempt names message hphase n hn ho =>
      hs'.names attempt names message hphase n hn (List.mem_append_right _ ho)⟩
  | lists attempt hphase heq | listsNone attempt hphase heq | throwsLearning attempt before message hphase heq
  | listsAgain attempt before message hphase he heq | writes attempt before p markdown files hphase hfiles heq =>
    subst heq
    exact ⟨hs'.lost, fun _ _ _ he => nomatch hphase.symm.trans he⟩
  | removes attempt name names message files hphase hfiles heq =>
    subst heq
    have hlost : (if name ∈ r.others then name :: r.lost else r.lost) = [] := hs'.lost
    split_ifs at hlost with hname
    refine ⟨hlost, fun attempt names message he n hn ho => ?_⟩
    rw [hphase] at he
    cases he
    rcases List.mem_cons.mp hn with rfl | hn
    · exact hname ho
    · refine hs'.names _ _ _ rfl n hn (List.mem_filter.mpr ⟨ho, ?_⟩)
      simpa using fun he : n = name => hname (he ▸ ho)
  | cuts attempt name names message hphase he heq =>
    simp only [Uncut, hphase, he] at hun
  | idles phase hthrough heq hidle =>
    subst heq
    refine ⟨hs'.lost, fun attempt names message hphase => ?_⟩
    cases names with
    | nil => exact fun n hn => absurd hn List.not_mem_nil
    | cons name names => exact absurd hphase (hthrough _ _ _ _)

theorem spared_of_through (hthrough : r.Through) (hlost : r.lost = []) : Spared r :=
  spared_of_lost hlost hthrough

/-! ### Every run -/

/-- **What a retry removes**: in every run whose second listings all meet the condition, no file of
another process is removed; and in a run whose clean-ups have come to their ends, only then. -/
theorem removes_own_only (files : Tree Text Text) (tr : List RetryEvent) :
    ((retry dir).Along Unmissed (Retry.start dir files) tr →
      (retry dir).Always (fun r => r.lost = []) (Retry.start dir files) tr) ∧
    ∀ r, (retry dir).run (Retry.start dir files) tr = some r → r.Through →
      (retry dir).Along Uncut (Retry.start dir files) tr → r.lost = [] →
      (retry dir).Along Unmissed (Retry.start dir files) tr := by
  have hiff : (retry dir).Along Unmissed (Retry.start dir files) tr ↔
      (retry dir).Always Spared (Retry.start dir files) tr :=
    Machine.along_iff (fun r e h hs => unmissed_iff h hs)
      (fun r e r' h _ hstep _ => accounted_step h hstep)
      accounted_start spared_start
  constructor
  · exact fun hun pre post r heq hrun => (hiff.mp hun pre post r heq hrun).lost
  · intro r hrun hthrough huncut hlost
    refine hiff.mpr fun pre post r' heq hpre => ?_
    subst heq
    by_contra hs
    rw [Machine.run_append, hpre, Option.bind_some] at hrun
    -- once not spared, never again
    have hend := Machine.Along.invariant (I := fun r => ¬ Spared r)
      (fun r e r' h hun hstep => not_spared_step h hun hstep) hs (huncut.rest hpre) hrun
    exact hend (spared_of_through hthrough hlost)

/-- Another process files a learning while the attempt finds the database locked. -/
theorem removes_anothers : ¬ ∀ (files : Tree Text Text) (tr : List RetryEvent) (r : Retry),
    (retry ["learnings".toList]).run (Retry.start ["learnings".toList] files) tr = some r →
        r.lost = [] := by
  intro h
  have hlost := h ⟨[], by simp, by simp⟩
    [.returns, .otherWrites ["learnings".toList, "other.md".toList] "theirs".toList,
      .throwsLearning "database is locked".toList, .returns, .returns]
  revert hlost
  decide +kernel

/-! ### The run of the hook -/

/-- What a call of the hook is here. -/
def Call.events (dir repoRoot : Path Text) : Call → List RetryEvent
  | .returns => [.returns]
  | .throws => [.throws]
  | .learns row markdown => [.writes (pathJoin repoRoot row.sourceFile) markdown, .learns row.id]
  | .throwsLearning message none => [.throwsLearning message]
  | .throwsLearning message (some (name, markdown)) =>
    [.writes (dir ++ [name]) markdown, .throwsLearning message]

/-- A call in `learnWithRetry`. -/
def Phase.Retries : Phase → Prop
  | .learning _ | .listed _ _ | .thrown _ _ _ | .cleaning _ _ _ => True
  | _ => False

/-- **With no other process**, `learnWithRetry` is what the run of the hook has of it. -/
theorem run_of_step {repoRoot : Path Text} {sha256 : JsText → Text} {o : FormatOptions}
    {h h' : Recapture} {call : Call}
    (hphase : h.phase.Retries) (hstep : h.step repoRoot sha256 o call = some h')
    (others missed lost : List Text) :
    ∃ others' missed' lost', (retry (learningsDir repoRoot)).run ⟨h.vault.files, h.phase, others,
        missed, lost⟩
        (call.events (learningsDir repoRoot) repoRoot) =
            some ⟨h'.vault.files, h'.phase, others', missed', lost'⟩ := by
  obtain ⟨vault, state, phase⟩ := h
  cases phase with
  | learning attempt | thrown attempt before message =>
    cases call <;> cases hstep <;> exact ⟨_, _, _, rfl⟩
  | listed attempt before =>
    cases call with
    | returns => cases hstep
    | throws => cases hstep
    | learns row markdown =>
      obtain ⟨index, hindex, hstep⟩ := Option.bind_eq_some_iff.mp hstep
      obtain ⟨files, hfiles, rfl⟩ := Option.map_eq_some_iff.mp hstep
      refine ⟨others, missed, lost, ?_⟩
      simp [Call.events, Machine.run, retry, Retry.step, write_of_create hfiles]
    | throwsLearning message orphan =>
      obtain ⟨files, hfiles, rfl⟩ := Option.map_eq_some_iff.mp hstep
      refine ⟨others, missed, lost, ?_⟩
      cases orphan with
      | none =>
        cases hfiles
        rfl
      | some orphan =>
        simp [Call.events, Machine.run, retry, Retry.step, write_of_create hfiles]
  | cleaning attempt names message =>
    cases names with
    | nil =>
      cases call <;> cases hstep
      exact ⟨_, _, _, rfl⟩
    | cons name names =>
      cases call with
      | returns =>
        obtain ⟨files, hfiles, rfl⟩ := Option.map_eq_some_iff.mp hstep
        refine ⟨others.filter (· ≠ name), missed, if name ∈ others then name :: lost else lost, ?_⟩
        simp [Call.events, Machine.run, retry, Retry.step, hfiles]
      | throws =>
        cases hstep
        exact ⟨_, _, _, rfl⟩
      | learns => cases hstep
      | throwsLearning => cases hstep
  | _ => exact hphase.elim

end OracleSkills.Capture
