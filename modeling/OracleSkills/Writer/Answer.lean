import OracleSkills.Writer.Reconcile

/-!
# `create`, from its arguments to its answer

"NON-BLOCKING: pure CLI, prints one JSON line, never asks a question." `cmd_create` catches the
`OSError` of the body file and the `FileExistsError` of the exclusive create, and nothing else:
whatever else is raised ends it with a traceback. The exclusive create claims the name before the
text is encoded and written, so that the file it leaves then may be empty, or end anywhere.

`cmdCreate` is one process with what each of its steps comes to (`Host`). `answers_iff`: it answers
with one line, and has changed nothing unless it says so, if and only if no step that it comes to
fails (`Unfailing`). Among the processes of a `Contest` it is the one that runs alone (`run_alone`).

What is *not* formalized: the other fields of the JSON line, and how the paths are found that are
written to.
-/

namespace OracleSkills.Writer

open Python Frontmatter Concurrency

/-! ### A run -/

/-- What `f.write(..)` and the end of the `with` block come to. -/
inductive Written where
  | all
  /-- An `OSError`, with the bytes of so many characters on the disk, and when `torn` a part of the
  next one's. -/
  | part (n : ℕ) (torn : Bool)

/-- What the steps of a run come to. -/
structure Host where
  /-- `.encode("utf-8")` has the text: it has no lone surrogate. -/
  hashes : Text → Bool
  /-- The encoding of files has it. -/
  encodes : Text → Bool
  /-- `os.makedirs`, -/
  makesDirs : Bool
  /-- `open(dest, "x")` of a file that is not there, `open(dest, "w")`, -/
  opens : Bool
  /-- and `open(dest)` of one that is. -/
  reads : Bool
  writes : Written
  /-- `_log_queue`, and the time it writes. -/
  logs : Written
  loggedAt : Stamp

/-- A run in which nothing fails. -/
def Host.sound (loggedAt : Stamp) : Host :=
  ⟨fun _ => true, fun _ => true, true, true, true, .all, .all, loggedAt⟩

/-- How a run ends. -/
inductive Ending where
  /-- `{"status": "invalid", ..}`. -/
  | invalid
  | reported (report : Report)
  /-- An exception that nothing catches. -/
  | traceback
  deriving DecidableEq

/-- The JSON lines on standard output. -/
def Ending.lines : Ending → ℕ
  | .traceback => 0
  | _ => 1

/-- The exit code. -/
def Ending.exitCode : Ending → ℕ
  | .invalid | .reported .refusedConflict => 2
  | .reported _ => 0
  | .traceback => 1

/-- What a run reports that has written the file. -/
def success (stage : Bool) : Report := if stage then .staged else .created

/-- The line `_log_queue` appends. -/
def Request.queueLine (r : Request) (at' : Stamp) : Text :=
  "- ".toList ++ at'.text ++ "  ".toList ++ r.name ++ "  (".toList ++
    (if r.trigger = [] then "n/a".toList else r.trigger) ++ ")  ".toList ++ r.desc ++ "\n".toList

/-- The bytes that come to the disk, and whether nothing is raised. -/
def Host.put (h : Host) (w : Written) (text : Text) : File × Bool :=
  if h.encodes text then
    match w with
    | .all => (⟨text, false⟩, true)
    | .part n torn => (⟨text.take n, torn⟩, false)
  else (⟨[], false⟩, false)

/-- A run that has opened the file to write it. -/
def fill (h : Host) (env : Env) (stage : Bool) (r : Request) (d : Disk) : Disk × Ending :=
  let file := h.put h.writes (r.rendered env)
  if ¬ file.2 then (⟨some file.1, d.queue⟩, .traceback)
  else if ¬ stage then (⟨some file.1, d.queue⟩, .reported .created)
  else
    let line := h.put h.logs (r.queueLine h.loggedAt)
    (⟨some file.1, d.queue ++ line.1.text⟩, if line.2 then .reported .staged else .traceback)

/-- A run that gets `FileExistsError`: "identical / refuse / force". -/
def reconcile (h : Host) (env : Env) (stage force : Bool) (r : Request) (d : Disk) (f : File) :
    Disk × Ending :=
  if ¬ h.reads ∨ f.torn then (d, .traceback)
  else if (readFrontmatter (universalNewlines f.text)).1.get? "content_hash".toList =
      some (r.newHash env) then
    (d, .reported .existsIdentical)
  else if ¬ force then (d, .reported .refusedConflict)
  else if h.opens then fill h env stage r d
  else (d, .traceback)

/-- `cmd_create`. -/
def cmdCreate (h : Host) (env : Env) (a : Args) (stage force : Bool) (d : Disk) : Disk × Ending :=
  match prepare env a with
  | .error (.invalid _ _ _) => (d, .invalid)
  | .error .crash => (d, .traceback)
  | .ok r =>
    if ¬ h.hashes r.fullBody then (d, .traceback)
    else if ¬ h.makesDirs then (d, .traceback)
    else
      match d.file with
      | none => if h.opens then fill h env stage r d else (d, .traceback)
      | some f => reconcile h env stage force r d f

/-! ### An answer -/

/-- One JSON line is printed, the exit code is 0 or 2, and nothing has changed unless the answer
says so. -/
structure Answers (d : Disk) (out : Disk × Ending) : Prop where
  lines : out.2.lines = 1
  exits : out.2.exitCode = 0 ∨ out.2.exitCode = 2
  keeps : out.2 ≠ .reported .created → out.2 ≠ .reported .staged → out.1 = d

/-- What is to be written can be encoded, and is written. -/
structure Fills (h : Host) (env : Env) (stage : Bool) (r : Request) : Prop where
  encodes : h.encodes (r.rendered env) = true
  writes : h.writes = .all
  logs : stage = true → h.encodes (r.queueLine h.loggedAt) = true ∧ h.logs = .all

/-- No step that a run comes to fails, but that the body file may not be opened. -/
structure Unfailing (h : Host) (env : Env) (a : Args) (stage force : Bool) (d : Disk) : Prop where
  /-- The body file decodes, if the other arguments are accepted, -/
  decodes : prepare env a ≠ .error .crash
  /-- the body can be hashed, and the directory made, -/
  begins : ∀ r, prepare env a = .ok r → h.hashes r.fullBody = true ∧ h.makesDirs = true
  /-- a file that is not there is created and written, -/
  creates : ∀ r, prepare env a = .ok r → d.file = none → h.opens = true ∧ Fills h env stage r
  /-- one that is there is read and decodes, -/
  reads : ∀ r f, prepare env a = .ok r → d.file = some f → h.reads = true ∧ f.torn = false
  /-- and is written over with `--force`, if it has another hash. -/
  forces : ∀ r f, prepare env a = .ok r → d.file = some f → force = true →
    (readFrontmatter (universalNewlines f.text)).1.get? "content_hash".toList ≠
      some (r.newHash env) →
    h.opens = true ∧ Fills h env stage r

variable {h : Host} {env : Env} {a : Args} {stage force : Bool} {d : Disk} {r : Request}
  {w : Written} {t : Text} {f : File}

theorem answers_self {e : Ending} (he : e ≠ .traceback) : Answers d (d, e) := by
  cases e with
  | traceback => exact absurd rfl he
  | invalid => exact ⟨rfl, Or.inr rfl, fun _ _ => rfl⟩
  | reported report => exact ⟨rfl, by cases report <;> simp [Ending.exitCode], fun _ _ => rfl⟩

theorem not_answers_traceback {d' : Disk} :
    ¬ Answers d (d', .traceback) := fun ha => nomatch ha.lines

theorem put_ok_iff : (h.put w t).2 = true ↔ h.encodes t = true ∧ w = .all := by
  unfold Host.put
  split_ifs with he
  · cases w <;> simp [he]
  · simp [he]

/-- What is written without a failure is the text. -/
theorem put_of_ok (hok : (h.put w t).2 = true) : h.put w t = (⟨t, false⟩, true) := by
  obtain ⟨he, rfl⟩ := put_ok_iff.mp hok
  rw [Host.put, if_pos he]

theorem fills_iff : Fills h env stage r ↔
    (h.put h.writes (r.rendered env)).2 = true ∧
        (stage = true → (h.put h.logs (r.queueLine h.loggedAt)).2 = true) := by
  rw [put_ok_iff, put_ok_iff]
  exact ⟨fun hf => ⟨⟨hf.encodes, hf.writes⟩, hf.logs⟩, fun ⟨⟨he, hw⟩, hl⟩ => ⟨he, hw, hl⟩⟩

/-- A run that fills the file reports that it has, -/
theorem fill_of_fills (hf : Fills h env stage r) :
    fill h env stage r d =
      (⟨some ⟨r.rendered env, false⟩, if stage then d.queue ++ r.queueLine h.loggedAt else d.queue⟩,
          .reported (success stage)) := by
  obtain ⟨hfile, hline⟩ := fills_iff.mp hf
  simp only [fill, put_of_ok hfile]
  cases stage with
  | false => rfl
  | true =>
    simp only [put_of_ok (hline rfl)]
    rfl

/-- or ends with a traceback. -/
theorem fill_of_not_fills (hf : ¬ Fills h env stage r) : (fill h env stage r d).2 = .traceback := by
  rw [fills_iff, not_and_or, Classical.not_imp] at hf
  unfold fill
  rcases hf with hfile | ⟨hstage, hline⟩
  · simp [hfile]
  · by_cases hfile : (h.put h.writes (r.rendered env)).2 = true
    · simp [hfile, hstage, hline]
    · simp [hfile]

/-- **To fill the file** is an answer exactly if nothing fails. -/
theorem answers_fill_iff : Answers d (fill h env stage r d) ↔ Fills h env stage r := by
  constructor
  · intro ha
    by_contra hf
    have hlines := ha.lines
    rw [fill_of_not_fills hf] at hlines
    cases hlines
  · intro hf
    rw [fill_of_fills hf]
    cases stage
    · exact ⟨rfl, Or.inl rfl, fun hne _ => absurd rfl hne⟩
    · exact ⟨rfl, Or.inl rfl, fun _ hne => absurd rfl hne⟩

theorem answers_open_iff :
    Answers d (if h.opens then fill h env stage r d else (d, .traceback)) ↔ h.opens = true ∧
        Fills h env stage r := by
  split_ifs with ho
  · rw [answers_fill_iff, and_iff_right ho]
  · exact iff_of_false not_answers_traceback fun hb => ho hb.1

/-- **To reconcile** is an answer exactly if the file is read, and written over where it has to
be. -/
theorem answers_reconcile_iff : Answers d (reconcile h env stage force r d f) ↔
    (h.reads = true ∧ f.torn = false) ∧ (force = true →
      (readFrontmatter (universalNewlines f.text)).1.get? "content_hash".toList ≠
        some (r.newHash env) →
        h.opens = true ∧ Fills h env stage r) := by
  unfold reconcile
  by_cases hread : h.reads = true ∧ f.torn = false
  · have hno : ¬ (¬ h.reads = true ∨ f.torn = true) := by simp [hread.1, hread.2]
    rw [if_neg hno, and_iff_right hread]
    by_cases hsame : (readFrontmatter (universalNewlines f.text)).1.get? "content_hash".toList =
      some (r.newHash env)
    · rw [if_pos hsame]
      exact iff_of_true (answers_self Ending.noConfusion) fun _ hne => absurd hsame hne
    · rw [if_neg hsame]
      cases force with
      | false => exact iff_of_true (answers_self
        Ending.noConfusion) fun hforce => absurd hforce Bool.false_ne_true
      | true =>
        rw [if_neg (not_not.mpr rfl), answers_open_iff]
        exact ⟨fun ho _ _ => ho, fun ho => ho rfl hsame⟩
  · have hyes : ¬ h.reads = true ∨ f.torn = true := by
      rw [not_and_or] at hread
      exact hread.imp_right eq_true_of_ne_false
    rw [if_pos hyes]
    exact iff_of_false not_answers_traceback fun hb => hread hb.1

/-- **Of an accepted request** the steps are these. -/
theorem answers_of_accepted (hp : prepare env a = .ok r) :
    Answers d (cmdCreate h env a stage force d) ↔
      (h.hashes r.fullBody = true ∧ h.makesDirs = true) ∧
      (d.file = none → h.opens = true ∧ Fills h env stage r) ∧
      ∀ f, d.file = some f → (h.reads = true ∧ f.torn = false) ∧ (force = true →
        (readFrontmatter (universalNewlines f.text)).1.get? "content_hash".toList ≠
          some (r.newHash env) →
          h.opens = true ∧ Fills h env stage r) := by
  unfold cmdCreate
  rw [hp]
  simp only
  by_cases hh : h.hashes r.fullBody = true
  · by_cases hm : h.makesDirs = true
    · rw [if_neg (not_not.mpr hh), if_neg (not_not.mpr hm), and_iff_right ⟨hh, hm⟩]
      cases hd : d.file with
      | none =>
        simp only [answers_open_iff, true_implies]
        exact (and_iff_left fun f hf => absurd hf.symm (Option.some_ne_none f)).symm
      | some f =>
        simp only [answers_reconcile_iff, Option.some.injEq]
        exact ⟨fun ha => ⟨fun hf => absurd hf (Option.some_ne_none f), fun _ hf => hf ▸ ha⟩,
          fun ha => ha.2 f rfl⟩
    · rw [if_neg (not_not.mpr hh), if_pos hm]
      exact iff_of_false not_answers_traceback fun hb => hm hb.1.2
  · rw [if_pos hh]
    exact iff_of_false not_answers_traceback fun hb => hh hb.1.1

/-- **`create` answers**, and has changed nothing unless it says that it has, if and only if no step
that it comes to fails. -/
theorem answers_iff (h : Host) (env : Env) (a : Args) (stage force : Bool) (d : Disk) :
    Answers d (cmdCreate h env a stage force d) ↔ Unfailing h env a stage force d := by
  cases hp : prepare env a with
  | ok r =>
    have hsame : ∀ {r'}, prepare env a = .ok r' → r' = r :=
      fun hr => Except.ok.inj (hr.symm.trans hp)
    rw [answers_of_accepted hp]
    constructor
    · rintro ⟨hbegin, hnew, hold⟩
      refine ⟨by simp [hp], fun r' hr => hsame hr ▸ hbegin, fun r' hr => hsame hr ▸ hnew, fun r' f hr hf => (hold f hf).1,
        fun r' f hr hf => ?_⟩
      obtain rfl := hsame hr
      exact (hold f hf).2
    · exact fun hu =>
        ⟨hu.begins r hp, hu.creates r hp, fun f hf => ⟨hu.reads r f hp hf, hu.forces r f hp hf⟩⟩
  | error stop =>
    have hnone : ∀ r, prepare env a ≠ .ok r := fun r hr => nomatch hp.symm.trans hr
    cases stop with
    | invalid name given message =>
      have hout : cmdCreate h env a stage force d = (d, .invalid) := by rw [cmdCreate, hp]
      rw [hout]
      refine iff_of_true (answers_self Ending.noConfusion) ⟨by simp [hp], ?_, ?_, ?_, ?_⟩
      · exact fun r hr => absurd hr (hnone r)
      · exact fun r hr => absurd hr (hnone r)
      · exact fun r f hr => absurd hr (hnone r)
      · exact fun r f hr => absurd hr (hnone r)
    | crash =>
      have hout : cmdCreate h env a stage force d = (d, .traceback) := by rw [cmdCreate, hp]
      rw [hout]
      exact iff_of_false not_answers_traceback fun hu => hu.decodes hp

/-- An ISO 8859-1 encoding of files, and a description that it does not have: `SKILL.md` is there,
and empty. -/
theorem not_answers_latin : ¬ ∀ (h : Host) (env : Env) (a : Args) (stage force : Bool) (d : Disk),
    Answers d (cmdCreate h env a stage force d) := by
  intro hall
  have hlines := (hall { Host.sound sampleEnv.now with encodes := fun t => t.all fun c =>
    c.toNat < 256 } sampleEnv
    { name := "deploy-x".toList, desc := "Deploy x…".toList, body := "b".toList,
      source := "bob".toList } false false
    ⟨none, []⟩).lines
  revert hlines
  decide +kernel

/-! ### A process that runs alone -/

/-- Nothing fails. -/
theorem fills_sound {loggedAt : Stamp} :
    Fills (.sound loggedAt) env stage r := ⟨rfl, rfl, fun _ => ⟨rfl, rfl⟩⟩

theorem cmdCreate_sound {loggedAt : Stamp} (hp : prepare env a = .ok r) :
    cmdCreate (.sound loggedAt) env a stage false d =
      match d.file with
      | none => (⟨some ⟨r.rendered env, false⟩, if stage then d.queue ++ r.queueLine loggedAt else
        d.queue⟩, .reported (success stage))
      | some f => reconcile (.sound loggedAt) env stage false r d f := by
  rw [cmdCreate, hp]
  cases hd : d.file with
  | none => exact fill_of_fills fills_sound
  | some f => rfl

/-- What an undisturbed reconciliation comes to. -/
theorem reconcile_sound {loggedAt : Stamp} {t : Text} :
    reconcile (.sound loggedAt) env stage false r d ⟨t, false⟩ =
    (d, .reported (if (readFrontmatter (universalNewlines t)).1.get? "content_hash".toList =
        some (r.newHash env) then
      .existsIdentical else .refusedConflict)) := by
  have hno : ¬ (¬ (Host.sound loggedAt).reads = true ∨ (⟨t, false⟩ : File).torn = true) := by
    simp [Host.sound]
  unfold reconcile
  rw [if_neg hno, if_pos (show ¬ (false = true) from Bool.false_ne_true)]
  split_ifs <;> rfl

/-- **Alone**, a process of a contest does what `cmdCreate` does. -/
theorem Contest.run_alone {ι : Type*} [DecidableEq ι] (K : Contest ι) (i : ι) {s : Sys ι Disk Phase}
    (hstart : s.loc i = .start) (hfile : ∀ f, s.shared.file = some f → f.torn = false) :
    ∃ tr s' report, (∀ x ∈ tr, x.1 = i) ∧ K.protocol.run s tr = some s' ∧ s'.loc i = .done report ∧
      cmdCreate (.sound (K.loggedAt i)) (K.env i) (K.args i) K.stage false s.shared =
          (s'.shared, .reported report) := by
  obtain ⟨⟨file, q⟩, loc⟩ := s
  rw [cmdCreate_sound (K.prepared i)]
  cases file with
  | none =>
    have hcreat : K.protocol.step ⟨⟨none, q⟩, loc⟩ i .creat =
        some ⟨⟨some ⟨[], false⟩, q⟩, Function.update loc i (.writing (K.rendered i))⟩ := by
      simp [Protocol.step, protocol, act, show loc i = .start from hstart]
    have hfinish := K.run_finish i
      (s := ⟨⟨some ⟨[], false⟩, q⟩, Function.update loc i (.writing (K.rendered i))⟩) (q := q) rfl
      (Function.update_self ..)
    rw [Function.update_idem] at hfinish
    cases hstage : K.stage with
    | false =>
      rw [hstage] at hfinish
      refine ⟨(i, .creat) :: K.finish i,
        ⟨⟨some ⟨K.rendered i, false⟩, q⟩, Function.update loc i (.done .created)⟩, .created, ?_, ?_,
        Function.update_self .., rfl⟩
      · simp [finish]
      · rw [Protocol.run_cons, hcreat, Option.bind_some, hfinish]
        rfl
    | true =>
      refine ⟨(i, .creat) :: (K.finish i ++ [(i, .log)]),
        ⟨⟨some ⟨K.rendered i, false⟩, q ++ K.queueLine i⟩,
        Function.update loc i (.done .staged)⟩, .staged, ?_, ?_, Function.update_self .., ?_⟩
      · simp [finish]
      · rw [Protocol.run_cons, hcreat, Option.bind_some, Protocol.run_append, hfinish]
        simp [Protocol.run, Protocol.step, protocol, act, hstage]
      · rw [if_pos rfl]
        rfl
  | some f =>
    obtain ⟨t, torn⟩ := f
    obtain rfl : torn = false := hfile _ rfl
    refine ⟨[(i, .creat), (i, .read)],
      ⟨⟨some ⟨t, false⟩, q⟩, Function.update (Function.update loc i .reading) i
      (.done (K.verdict i (universalNewlines t)))⟩,
        K.verdict i (universalNewlines t), by simp, ?_, Function.update_self .., ?_⟩
    · simp [Protocol.run, Protocol.step, protocol, act, show loc i = .start from hstart]
    · exact reconcile_sound

end OracleSkills.Writer
