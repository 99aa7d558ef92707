import OracleSkills.Concurrency.Interleaving
import OracleSkills.Writer.RoundTrip

/-!
# Concurrent `create`

"Two oracles creating the same name at the same instant used to both pass an
`os.path.exists()` check and then clobber each other." `cmd_create` opens the file
with mode `x`, "exactly one process creates the file; everyone else gets
`FileExistsError` and falls through to the same reconciliation".

The processes of a `Contest` have no `--force` and the same file to write, all live
or all with `--stage`. Their file steps are the exclusive create, the writes of a
part of the text, the close, for a staged skill the line in the queue, and the read
of a process that lost. Bytes reach the file in any portions, so a portion may end
inside a character: the file is then `torn`, and reading it is a
`UnicodeDecodeError`.

`Inv` is the invariant of all interleavings: one process owns the file from the
moment it is there, what is in it and what its owner still has to write are together
the owner's text, and every other process has lost or has not begun.
`first_writer_wins` reads it off at the end of a run. What a loser reports is the
subject of `OracleSkills.Writer.Reconcile`.
-/

namespace OracleSkills.Writer

open Python Frontmatter Concurrency

/-! ### The processes and their steps -/

/-- The `status` a process reports. -/
inductive Report where
  | created
  | staged
  | existsIdentical
  | refusedConflict
  deriving DecidableEq

/-- How far a process is. -/
inductive Phase where
  /-- Before `open(dest, "x")`. -/
  | start
  /-- It created the file, and `rest` is not on the disk yet. -/
  | writing (rest : Text)
  /-- The file is closed, `_log_queue()` comes next. -/
  | logging
  /-- It got `FileExistsError`, `open(dest).read()` comes next. -/
  | reading
  /-- It reported, and ended. -/
  | done (report : Report)
  /-- It ended with a `UnicodeDecodeError`, which nothing catches. -/
  | crashed
  deriving DecidableEq

/-- The process has ended. -/
def Phase.Ended : Phase → Prop
  | .done _ => True
  | .crashed => True
  | _ => False

/-- A file on the disk: its text up to the last whole character, and whether bytes of
one more character follow. -/
structure File where
  text : Text
  torn : Bool
  deriving DecidableEq

/-- What the processes share: the file at `dest`, and `queue.md`. -/
structure Disk where
  file : Option File
  queue : Text

/-- A file step of a process. -/
inductive Event where
  /-- `open(dest, "x")`. -/
  | creat
  /-- Bytes for `n` more characters, and when `torn` for a part of the next one. -/
  | write (n : ℕ) (torn : Bool)
  /-- The end of the `with` block. -/
  | close
  /-- `_log_queue()`. -/
  | log
  /-- `open(dest).read()`. -/
  | read

/-- Processes that run `create` without `--force` for one file. -/
structure Contest (ι : Type*) where
  /-- `--stage`, given to all or to none. -/
  stage : Bool
  args : ι → Args
  env : ι → Env
  request : ι → Request
  /-- The time `_log_queue` writes. -/
  loggedAt : ι → Stamp
  /-- The arguments are accepted. -/
  prepared : ∀ i, prepare (env i) (args i) = .ok (request i)
  /-- The names normalise to one. -/
  sameName : ∀ i j, (request i).name = (request j).name
  /-- SHA-256 is the same for all. -/
  sameHash : ∀ i j, (env i).sha256 = (env j).sha256

variable {ι : Type*}

namespace Contest

variable (K : Contest ι)

/-- The text process `i` writes. -/
def rendered (i : ι) : Text := (K.request i).rendered (K.env i)

theorem rendered_length_pos (i : ι) : 0 < (K.rendered i).length := by
  rw [rendered, Request.rendered_eq]
  simp [fence]

/-- What a process reports that wrote the file. -/
def success : Report := if K.stage then .staged else .created

/-- The line `_log_queue` appends. -/
def queueLine (i : ι) : Text :=
  let r := K.request i
  "- ".toList ++ (K.loggedAt i).text ++ "  ".toList ++ r.name ++ "  (".toList ++
    (if r.trigger = [] then "n/a".toList else r.trigger) ++ ")  ".toList ++ r.desc ++ "\n".toList

/-- The reconciliation of a process that did not create the file, from what it read. -/
def verdict (i : ι) (text : Text) : Report :=
  if (readFrontmatter text).1.get? "content_hash".toList =
    some ((K.request i).newHash (K.env i)) then .existsIdentical
  else .refusedConflict

/-- The file steps of `cmd_create`. -/
def act (i : ι) : Event → Disk → Phase → Option (Disk × Phase)
  | .creat, d, .start =>
    match d.file with
    | none => some ({ d with file := some ⟨[], false⟩ }, .writing (K.rendered i))
    | some _ => some (d, .reading)
  | .write n torn, d, .writing rest =>
    match d.file with
    | some f =>
      -- bytes that are out stay out, and only a character of several bytes can be torn
      if n ≤ rest.length ∧ (0 < n ∨ torn = true) ∧
          (torn = true → ((rest.drop n).head?.any fun c => 1 < c.utf8Size) = true) then
        some ({ d with file := some ⟨f.text ++ rest.take n, torn⟩ }, .writing (rest.drop n))
      else none
    | none => none
  | .close, d, .writing [] => some (d, if K.stage then .logging else .done .created)
  | .log, d, .logging => some ({ d with queue := d.queue ++ K.queueLine i }, .done .staged)
  | .read, d, .reading =>
    match d.file with
    | some f => some (d, if f.torn then .crashed else
      .done (K.verdict i (universalNewlines f.text)))
    | none => none
  | _, _, _ => none

/-- The protocol of the processes. -/
def protocol : Protocol ι Event Disk Phase := ⟨K.act⟩

/-- No `SKILL.md` yet, and no process has begun. -/
def init (queue : Text) : Sys ι Disk Phase := ⟨⟨none, queue⟩, fun _ => .start⟩

/-- What a step can do. -/
inductive Acts (i : ι) : Event → Disk → Phase → Disk → Phase → Prop where
  | win (q : Text) : Acts i .creat ⟨none, q⟩ .start ⟨some ⟨[], false⟩, q⟩ (.writing (K.rendered i))
  | lose (f : File) (q : Text) : Acts i .creat ⟨some f, q⟩ .start ⟨some f, q⟩ .reading
  | write (f : File) (q rest : Text) (n : ℕ) (torn : Bool) (h : torn = true → rest.drop n ≠ []) :
    Acts i (.write n torn) ⟨some f, q⟩ (.writing rest) ⟨some ⟨f.text ++ rest.take n, torn⟩, q⟩
      (.writing (rest.drop n))
  | close (d : Disk) : Acts i .close d (.writing []) d
    (if K.stage then .logging else .done .created)
  | log (f : Option File) (q : Text) : Acts i .log ⟨f, q⟩ .logging ⟨f, q ++ K.queueLine i⟩
    (.done .staged)
  | crash (t q : Text) : Acts i .read ⟨some ⟨t, true⟩, q⟩ .reading ⟨some ⟨t, true⟩, q⟩ .crashed
  | reconcile (t q : Text) :
    Acts i .read ⟨some ⟨t, false⟩, q⟩ .reading ⟨some ⟨t, false⟩, q⟩
      (.done (K.verdict i (universalNewlines t)))

/-- **What a step can do**: the inversion of `act`. -/
theorem acts_of_act {i : ι} {e : Event} {d d' : Disk} {p p' : Phase}
    (h : K.act i e d p = some (d', p')) :
    K.Acts i e d p d' p' := by
  obtain ⟨file, q⟩ := d
  cases e with
  | creat =>
    cases p with
    | start =>
      cases file with
      | none => cases h; exact Acts.win q
      | some f => cases h; exact Acts.lose f q
    | _ => cases h
  | write n torn =>
    cases p with
    | writing rest =>
      cases file with
      | none => cases h
      | some f =>
        simp only [act] at h
        split_ifs at h with hc
        cases h
        refine Acts.write f q rest n torn fun ht hnil => ?_
        have hany := hc.2.2 ht
        rw [hnil] at hany
        cases hany
    | _ => cases h
  | close =>
    cases p with
    | writing rest =>
      cases rest with
      | nil => cases h; exact Acts.close _
      | cons c rest => cases h
    | _ => cases h
  | log =>
    cases p with
    | logging => cases h; exact Acts.log file q
    | _ => cases h
  | read =>
    cases p with
    | reading =>
      cases file with
      | none => cases h
      | some f =>
        obtain ⟨t, torn⟩ := f
        cases torn with
        | false => cases h; exact Acts.reconcile t q
        | true => cases h; exact Acts.crash t q
    | _ => cases h

section

variable {K : Contest ι} {i w : ι} {e : Event} {d d' : Disk} {f : File} {p p' : Phase}

/-- A process that has ended does nothing more. -/
theorem Acts.not_ended (h : K.Acts i e d p d' p') : ¬ p.Ended := by
  cases h <;> exact id

/-- A read ends the process. -/
theorem Acts.read (h : K.Acts i .read d p d' p') :
    ∃ f, d.file = some f ∧ p' = if f.torn then .crashed else
        .done (K.verdict i (universalNewlines f.text)) := by
  cases h with
  | crash t q => exact ⟨⟨t, true⟩, rfl, rfl⟩
  | reconcile t q => exact ⟨⟨t, false⟩, rfl, rfl⟩

end

/-! ### The invariant -/

/-- The process created the file. -/
def Won : Phase → Prop
  | .writing _ => True
  | .logging => K.stage = true
  | .done r => r = K.success
  | _ => False

/-- The process has not created the file. -/
def Lost : Phase → Prop
  | .start => True
  | .reading => True
  | .done r => r ≠ K.success
  | .crashed => True
  | _ => False

theorem not_won_of_lost {p : Phase} (h : K.Lost p) : ¬ K.Won p := by
  cases p with
  | start => exact id
  | writing rest => exact absurd h id
  | logging => exact absurd h id
  | reading => exact id
  | done r => exact h
  | crashed => exact id

end Contest

/-- What a process that created the file still has to write. -/
def Phase.rest : Phase → Text
  | .writing rest => rest
  | _ => []

namespace Contest

variable (K : Contest ι)

/-- The file `f` and its owner `w` in phase `p`: together they hold the owner's text. -/
structure Owner (w : ι) (f : File) (p : Phase) : Prop where
  won : K.Won p
  text : f.text ++ p.rest = K.rendered w
  torn : f.torn = true → p.rest ≠ []

/-- The invariant of all interleavings. -/
inductive Inv (s : Sys ι Disk Phase) : Prop
  /-- There is no file, and no process has begun. -/
  | fresh (hfile : s.shared.file = none) (hloc : ∀ i, s.loc i = .start)
  /-- One process owns the file, and no other has created it. -/
  | taken (w : ι) (f : File) (hfile : s.shared.file = some f) (howner : K.Owner w f (s.loc w))
    (hlost : ∀ i, i ≠ w → K.Lost (s.loc i))

theorem inv_init (q : Text) : K.Inv (init q : Sys ι Disk Phase) := Inv.fresh rfl fun _ => rfl

theorem verdict_ne_success (i : ι) (t : Text) : K.verdict i t ≠ K.success := by
  rw [verdict, success]
  split_ifs <;> simp

section

variable {K : Contest ι} {i w : ι} {e : Event} {d d' : Disk} {f : File} {p p' : Phase}

/-- The first step of all creates the file. -/
theorem Acts.fresh (h : K.Acts i e d p d' p') (hd : d.file = none) (hp : p = .start) :
    d'.file = some ⟨[], false⟩ ∧ p' = .writing (K.rendered i) := by
  subst hp
  cases h with
  | win => exact ⟨rfl, rfl⟩
  | lose => cases hd

/-- With a file there, a process that has not created it cannot, and leaves it as it is. -/
theorem Acts.lost (h : K.Acts i e d p d' p') (hd : d.file = some f) (hp : K.Lost p) :
    K.Lost p' ∧ d'.file = some f := by
  cases h with
  | win => cases hd
  | lose => exact ⟨trivial, hd⟩
  | write => exact absurd hp id
  | close => exact absurd hp id
  | log => exact absurd hp id
  | crash => exact ⟨trivial, hd⟩
  | reconcile => exact ⟨K.verdict_ne_success i _, hd⟩

/-- A process that has not created the file can only end by a read. -/
theorem Acts.read_of_lost (h : K.Acts i e d p d' p') (hp : K.Lost p) (hp' : p'.Ended) :
    e = .read := by
  cases h with
  | win => exact absurd hp' id
  | lose => exact absurd hp' id
  | write => exact absurd hp id
  | close => exact absurd hp id
  | log => exact absurd hp id
  | crash => rfl
  | reconcile => rfl

/-- A step of the owner. -/
theorem Acts.owner (h : K.Acts w e d p d' p') (hd : d.file = some f) (hp : K.Owner w f p) :
    ∃ f', d'.file = some f' ∧ K.Owner w f' p' := by
  obtain ⟨hwon, htext, htorn⟩ := hp
  cases h with
  | win => cases hd
  | lose => exact absurd hwon id
  | write g q rest n torn hrest =>
    cases hd
    refine ⟨_, rfl, trivial, ?_, hrest⟩
    rw [← htext, Phase.rest, Phase.rest, List.append_assoc, List.take_append_drop]
  | close =>
    refine ⟨f, hd, ?_, ?_, fun ht => absurd rfl (htorn ht)⟩
    · cases hs : K.stage <;> simp [Won, success, hs]
    · rw [← htext]
      cases K.stage <;> rfl
  | log =>
    have hs : K.stage = true := hwon
    exact ⟨f, hd, by simp [Won, success, hs], by rw [← htext]; rfl, fun ht => absurd rfl (htorn ht)⟩
  | crash => exact absurd hwon id
  | reconcile => exact absurd hwon id

end

/-- In a state that satisfies the invariant, at most one process has won. -/
theorem Inv.won_unique {K : Contest ι} {s : Sys ι Disk Phase} (hs : K.Inv s) {i j : ι}
    (hi : K.Won (s.loc i)) (hj : K.Won (s.loc j)) : i = j := by
  cases hs with
  | fresh hfile hloc => rw [hloc i] at hi; exact absurd hi id
  | taken w f hfile howner hlost =>
    have hiw : i = w := by_contra fun hne => K.not_won_of_lost (hlost i hne) hi
    have hjw : j = w := by_contra fun hne => K.not_won_of_lost (hlost j hne) hj
    rw [hiw, hjw]

/-- The file of a process that has won. -/
theorem Inv.owner_of_won {K : Contest ι} {s : Sys ι Disk Phase} (hs : K.Inv s) {w : ι}
    (hw : K.Won (s.loc w)) :
    ∃ f, s.shared.file = some f ∧ K.Owner w f (s.loc w) := by
  cases hs with
  | fresh hfile hloc => rw [hloc w] at hw; exact absurd hw id
  | taken v f hfile howner hlost =>
    have hwv : w = v := by_contra fun hne => K.not_won_of_lost (hlost w hne) hw
    subst hwv
    exact ⟨f, hfile, howner⟩

variable [DecidableEq ι]

/-- Every step keeps the invariant. -/
theorem Inv.step {K : Contest ι} {s s' : Sys ι Disk Phase} {i : ι} {e : Event} (hs : K.Inv s)
    (h : K.protocol.step s i e = some s') : K.Inv s' := by
  have hacts := K.acts_of_act (Protocol.act_of_step h)
  have hloc' : ∀ j, j ≠ i → s'.loc j = s.loc j := fun j hj => Protocol.step_loc_of_ne h hj
  cases hs with
  | fresh hfile hloc =>
    obtain ⟨hf', hp'⟩ := hacts.fresh hfile (hloc i)
    refine Inv.taken i ⟨[], false⟩ hf' ?_ fun j hj => ?_
    · rw [hp']
      exact ⟨trivial, rfl, fun ht => absurd ht (by decide)⟩
    · rw [hloc' j hj, hloc j]
      trivial
  | taken w f hfile howner hlost =>
    by_cases hi : i = w
    · subst hi
      obtain ⟨f', hf', howner'⟩ := hacts.owner hfile howner
      refine Inv.taken i f' hf' howner' fun j hj => ?_
      rw [hloc' j hj]
      exact hlost j hj
    · obtain ⟨hp', hf'⟩ := hacts.lost hfile (hlost i hi)
      refine Inv.taken w f hf' ?_ fun j hj => ?_
      · rwa [hloc' w (Ne.symm hi)]
      · by_cases hji : j = i
        · exact hji ▸ hp'
        · rw [hloc' j hji]
          exact hlost j hj

/-- A process that has won stays so. -/
theorem won_step {K : Contest ι} {s s' : Sys ι Disk Phase} {i : ι} {e : Event} (hs : K.Inv s)
    (h : K.protocol.step s i e = some s') (j : ι) (hj : K.Won (s.loc j)) : K.Won (s'.loc j) := by
  by_cases hji : j = i
  · subst hji
    cases hs with
    | fresh hfile hloc => rw [hloc j] at hj; exact absurd hj id
    | taken w f hfile howner hlost =>
      have hw : j = w := by_contra fun hne => K.not_won_of_lost (hlost j hne) hj
      subst hw
      obtain ⟨f', -, howner'⟩ := (K.acts_of_act (Protocol.act_of_step h)).owner hfile howner
      exact howner'.won
  · rwa [Protocol.step_loc_of_ne h hji]

/-- A step that changes the file is one of a process that has then won. -/
theorem won_of_file_ne {K : Contest ι} {s s' : Sys ι Disk Phase} {i : ι} {e : Event} (hs : K.Inv s)
    (h : K.protocol.step s i e = some s') (hf : s'.shared.file ≠ s.shared.file) :
    K.Won (s'.loc i) := by
  have hacts := K.acts_of_act (Protocol.act_of_step h)
  cases hs with
  | fresh hfile hloc =>
    rw [(hacts.fresh hfile (hloc i)).2]
    trivial
  | taken w f hfile howner hlost =>
    by_cases hi : i = w
    · subst hi
      obtain ⟨f', -, howner'⟩ := hacts.owner hfile howner
      exact howner'.won
    · exact absurd ((hacts.lost hfile (hlost i hi)).2.trans hfile.symm) hf

/-- Every state of a run satisfies the invariant. -/
theorem inv_run {K : Contest ι} {q : Text} {tr : List (ι × Event)} {s : Sys ι Disk Phase}
    (h : K.protocol.run (init q) tr = some s) : K.Inv s :=
  Protocol.run_invariant (fun _ _ _ _ hs hstep => hs.step hstep) (K.inv_init q) h

/-- A process that has won has won in every later state. -/
theorem won_run {K : Contest ι} {s s' : Sys ι Disk Phase} {tr : List (ι × Event)}
    (hs : K.Inv s) {j : ι}
    (hj : K.Won (s.loc j)) (h : K.protocol.run s tr = some s') : K.Won (s'.loc j) := by
  have hinv : K.Inv s' ∧ K.Won (s'.loc j) :=
    Protocol.run_invariant (I := fun s => K.Inv s ∧ K.Won (s.loc j))
      (fun _ _ _ _ hs hstep => ⟨hs.1.step hstep, won_step hs.1 hstep j hs.2⟩) ⟨hs, hj⟩ h
  exact hinv.2

/-! ### The end of a run -/

/-- Where nothing more can happen, a file is there, and its owner has written all of it
and reported. -/
theorem Inv.ended {K : Contest ι} [Nonempty ι] {s : Sys ι Disk Phase} (hs : K.Inv s)
    (hend : K.protocol.Ended s) :
    ∃ w, s.shared.file = some ⟨K.rendered w, false⟩ ∧ s.loc w = .done K.success := by
  cases hs with
  | fresh hfile hloc =>
    obtain ⟨i⟩ := ‹Nonempty ι›
    have h := Protocol.step_eq_none.mp (hend i .creat)
    rw [hloc i] at h
    simp [protocol, act, hfile] at h
  | taken w f hfile howner hlost =>
    obtain ⟨hwon, htext, htorn⟩ := howner
    obtain ⟨t, torn⟩ := f
    refine ⟨w, ?_⟩
    cases hp : s.loc w with
    | start => rw [hp] at hwon; exact absurd hwon id
    | reading => rw [hp] at hwon; exact absurd hwon id
    | crashed => rw [hp] at hwon; exact absurd hwon id
    | logging =>
      have h := Protocol.step_eq_none.mp (hend w .log)
      rw [hp] at h
      cases h
    | writing rest =>
      -- either the rest can be written, or the file can be closed
      cases rest with
      | nil =>
        have h := Protocol.step_eq_none.mp (hend w .close)
        rw [hp] at h
        cases h
      | cons c rest =>
        have h := Protocol.step_eq_none.mp (hend w (.write (c :: rest).length false))
        rw [hp] at h
        simp [protocol, act, hfile] at h
    | done r =>
      rw [hp] at hwon htext htorn
      have hr : r = K.success := hwon
      have ht : torn = false := by
        by_contra hne
        exact htorn (by simpa using hne) rfl
      simp only [Phase.rest, List.append_nil] at htext
      exact ⟨by rw [hfile, htext, ht], by rw [hr]⟩

/-- **The first writer wins**: at the end of every interleaving exactly one process
reports that it wrote the file, the file is exactly its text, and no other process's
step ever changed the file. -/
theorem first_writer_wins [Nonempty ι] (K : Contest ι) (queue : Text) (tr : List (ι × Event))
    (s : Sys ι Disk Phase)
    (h : K.protocol.run (init queue) tr = some s) (hend : K.protocol.Ended s) :
    ∃ w, (∀ i, s.loc i = .done K.success ↔ i = w) ∧ s.shared.file = some ⟨K.rendered w, false⟩ ∧
      ∀ pre i e post a b, tr = pre ++ (i, e) :: post → K.protocol.run (init queue) pre = some a →
        K.protocol.step a i e = some b → b.shared.file ≠ a.shared.file → i = w := by
  have hinv := inv_run h
  obtain ⟨w, hfile, hw⟩ := hinv.ended hend
  have hwon : K.Won (s.loc w) := by rw [hw]; rfl
  refine ⟨w, fun i => ⟨fun hi => hinv.won_unique (by rw [hi]; rfl) hwon, fun hi => hi ▸ hw⟩,
    hfile, ?_⟩
  intro pre i e post a b htr ha hb hne
  obtain ⟨a', b', ha', hb', hpost⟩ := Protocol.run_split (htr ▸ h)
  rw [ha, Option.some.injEq] at ha'
  subst ha'
  rw [hb, Option.some.injEq] at hb'
  subst hb'
  have hia := inv_run ha
  exact hinv.won_unique (won_run (hia.step hb) (won_of_file_ne hia hb hne) hpost) hwon

/-- The steps of an owner that writes the rest of the file in one portion. -/
def finish (K : Contest ι) (i : ι) : List (ι × Event) :=
  [(i, .write (K.rendered i).length false), (i, .close)]

/-- An owner that has not written anything yet writes the file. -/
theorem run_finish (K : Contest ι) (i : ι) {s : Sys ι Disk Phase} {q : Text}
    (hd : s.shared = ⟨some ⟨[], false⟩, q⟩) (hp : s.loc i = .writing (K.rendered i)) :
    K.protocol.run s (K.finish i) = some
      ⟨⟨some ⟨K.rendered i, false⟩, q⟩,
        Function.update s.loc i (if K.stage then .logging else .done .created)⟩ := by
  simp [finish, Protocol.run, Protocol.step, protocol, act, hd, hp, K.rendered_length_pos i]

/-- Two processes that create one skill with one body. -/
def sample : Contest Bool where
  stage := false
  args := fun _ =>
    { name := "deploy-x".toList, desc := "Deploy x".toList, body := "b".toList,
      source := "bob".toList }
  env := fun _ => sampleEnv
  request := fun _ => sampleRequest "Deploy x".toList
  loggedAt := fun _ => sampleEnv.now
  prepared := fun _ => rfl
  sameName := fun _ _ => rfl
  sameHash := fun _ _ => rfl

/-- Process `false` writes the file, then process `true` reads it. -/
def sampleTrace : List (Bool × Event) :=
  (false, .creat) :: (sample.finish false ++ [(true, .creat), (true, .read)])

/-- The end of that run. -/
def sampleEnd : Sys Bool Disk Phase :=
  ⟨⟨some ⟨sample.rendered false, false⟩, []⟩,
    Function.update (Function.update (Function.update (Function.update (fun _ => .start) false
      (.writing (sample.rendered false))) false (.done .created)) true .reading) true
      (.done (sample.verdict true (universalNewlines (sample.rendered false))))⟩

theorem sampleTrace_run : sample.protocol.run (init []) sampleTrace = some sampleEnd := by
  have hfirst : sample.protocol.step (init []) false .creat = some
      ⟨⟨some ⟨[], false⟩, []⟩,
        Function.update (fun _ => .start) false (.writing (sample.rendered false))⟩ := rfl
  rw [sampleTrace, Protocol.run_cons, hfirst, Option.bind_some, Protocol.run_append,
    sample.run_finish false rfl rfl]
  rfl

theorem first_writer_wins_sample :
    ∃ w, (∀ i, sampleEnd.loc i = .done sample.success ↔ i = w) ∧
      sampleEnd.shared.file = some ⟨sample.rendered w, false⟩ ∧
      ∀ pre i e post a b, sampleTrace = pre ++ (i, e) :: post →
        sample.protocol.run (init []) pre = some a →
        sample.protocol.step a i e = some b → b.shared.file ≠ a.shared.file → i = w :=
  first_writer_wins sample [] sampleTrace sampleEnd sampleTrace_run fun i e => by
    rw [Protocol.step_eq_none]
    cases i <;> cases e <;> rfl

end Contest

end OracleSkills.Writer
