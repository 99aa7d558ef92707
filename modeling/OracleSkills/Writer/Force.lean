import OracleSkills.Files.Offsets
import OracleSkills.Python.Reencode
import OracleSkills.Writer.Reconcile

/-!
# Concurrent `create` with `--force`

With `--force` a process that finds another skill of its name goes on: it opens the file with mode
`w`, which cuts it off, and writes its own text. So several processes may have one file open to
write it, each with a position of its own, and the bytes of one come to stand over those of another.
`Rivals` are processes of which any may force. The file is kept in bytes here, and may be there
before they begin.

`Inv` holds in every interleaving. From it: just the process that has created the file and those
with `--force` ever change it, and what they report is that they wrote it; the rest changes nothing
(`only_forced_overwrites`). The queue is "append-only", and "none is lost": it holds one line of
each process that reports `staged` (`ledger_exact`).

Where a process cuts the file off while no other is writing, one text is on the disk as a whole
(`forced_apart`). Nothing sees to that, and `forces_mix` says what comes out otherwise: two
processes report that the skill is written, and the file is neither's.
-/

namespace OracleSkills.Writer

open Python Frontmatter Concurrency Files

/-- `data.decode("utf-8")`, `none` for a `UnicodeDecodeError`. -/
def decodeStrict (bs : Bytes) : Option Text :=
  if ∀ p ∈ pieces bs, encodeChar p.char = p.bytes then some (decode bs) else none

/-- Processes that run `create` for one file, each with or without `--force`. -/
structure Rivals (ι : Type*) extends Contest ι where
  force : ι → Bool

namespace Rivals

/-- How far a process is. -/
inductive Phase where
  /-- Before `open(dest, "x")`. -/
  | start
  /-- It has opened the file to write it, and has written as many bytes. -/
  | writing (pos : ℕ)
  /-- The file is closed, `_log_queue()` comes next. -/
  | logging
  /-- It got `FileExistsError`, `open(dest).read()` comes next. -/
  | reading
  /-- It has read another skill, `open(dest, "w")` comes next. -/
  | forcing
  /-- It reported, and ended. -/
  | done (report : Report)
  /-- It ended with a `UnicodeDecodeError`. -/
  | crashed
  deriving DecidableEq

/-- What the processes share. -/
structure Disk where
  file : Option Bytes
  queue : Text

/-- A file step of a process. -/
inductive Event where
  /-- `open(dest, "x")`. -/
  | creat
  /-- `open(dest, "w")`. -/
  | truncate
  /-- `n` more bytes, at its own position. -/
  | write (n : ℕ)
  /-- The end of the `with` block. -/
  | close
  /-- `_log_queue()`. -/
  | log
  /-- `open(dest).read()`. -/
  | read
  deriving DecidableEq

variable {ι : Type*} (K : Rivals ι)

/-- The bytes process `i` writes. -/
def bytes (i : ι) : Bytes := encode (K.rendered i)

/-- The reconciliation, from the text that was read: "identical / refuse / force". -/
def reconcile (i : ι) (text : Text) : Phase :=
  if (readFrontmatter text).1.get? "content_hash".toList =
    some ((K.request i).newHash (K.env i)) then .done .existsIdentical
  else if K.force i then .forcing
  else .done .refusedConflict

/-- The file steps of `cmd_create`. -/
def act (i : ι) : Event → Disk → Phase → Option (Disk × Phase)
  | .creat, d, .start =>
    match d.file with
    | none => some ({ d with file := some [] }, .writing 0)
    | some _ => some (d, .reading)
  | .truncate, d, .forcing => some ({ d with file := some [] }, .writing 0)
  | .write n, d, .writing pos =>
    match d.file with
    | some f =>
      if 0 < n ∧ pos + n ≤ (K.bytes i).length then
        some ({ d with file := some (writeAt 0 f pos (((K.bytes i).drop pos).take n)) },
          .writing (pos + n))
      else none
    | none => none
  | .close, d, .writing pos =>
    if pos = (K.bytes i).length then
      some (d, if K.stage then .logging else .done .created) else none
  | .log, d, .logging => some ({ d with queue := d.queue ++ K.queueLine i }, .done .staged)
  | .read, d, .reading =>
    match d.file with
    | some f =>
      match decodeStrict f with
      | some t => some (d, K.reconcile i (universalNewlines t))
      | none => some (d, .crashed)
    | none => none
  | _, _, _ => none

/-- The protocol of the processes. -/
def protocol : Protocol ι Event Disk Phase := ⟨K.act⟩

/-- No process has begun; a `SKILL.md` may be there. -/
def init (file : Option Bytes) (queue : Text) : Sys ι Disk Phase := ⟨⟨file, queue⟩, fun _ => .start⟩

/-- What a step can do. -/
inductive Acts (i : ι) : Event → Disk → Phase → Disk → Phase → Prop where
  | win (q : Text) : Acts i .creat ⟨none, q⟩ .start ⟨some [], q⟩ (.writing 0)
  | lose (f : Bytes) (q : Text) : Acts i .creat ⟨some f, q⟩ .start ⟨some f, q⟩ .reading
  | truncate (d : Disk) : Acts i .truncate d .forcing ⟨some [], d.queue⟩ (.writing 0)
  | write (f : Bytes) (q : Text) (pos n : ℕ) (hn : 0 < n) (hpos : pos + n ≤ (K.bytes i).length) :
    Acts i (.write n) ⟨some f, q⟩ (.writing pos)
      ⟨some (writeAt 0 f pos (((K.bytes i).drop pos).take n)), q⟩
      (.writing (pos + n))
  | close (d : Disk) : Acts i .close d (.writing (K.bytes i).length) d
    (if K.stage then .logging else .done .created)
  | log (f : Option Bytes) (q : Text) : Acts i .log ⟨f, q⟩ .logging ⟨f, q ++ K.queueLine i⟩
    (.done .staged)
  | crash (d : Disk) : Acts i .read d .reading d .crashed
  | identical (d : Disk) : Acts i .read d .reading d (.done .existsIdentical)
  | force (d : Disk) (hforce : K.force i = true) : Acts i .read d .reading d .forcing
  | refuse (d : Disk) (hforce : K.force i = false) : Acts i .read d .reading d
    (.done .refusedConflict)

/-- **What a step can do**: the inversion of `act`. -/
theorem acts_of_act {i : ι} {e : Event} {d d' : Disk} {p p' : Phase}
    (h : K.act i e d p = some (d', p')) :
    K.Acts i e d p d' p' := by
  obtain ⟨file, q⟩ := d
  cases e with
  | creat =>
    cases p with
    | start =>
      cases file with
      | none => cases h; exact Acts.win q
      | some f => cases h; exact Acts.lose f q
    | _ => cases h
  | truncate =>
    cases p with
    | forcing => cases h; exact Acts.truncate _
    | _ => cases h
  | write n =>
    cases p with
    | writing pos =>
      cases file with
      | none => cases h
      | some f =>
        simp only [act] at h
        split_ifs at h with hc
        cases h
        exact Acts.write f q pos n hc.1 hc.2
    | _ => cases h
  | close =>
    cases p with
    | writing pos =>
      by_cases hc : pos = (K.bytes i).length
      · subst hc
        rw [act, if_pos rfl] at h
        cases h
        exact Acts.close _
      · rw [act, if_neg hc] at h
        cases h
    | _ => cases h
  | log =>
    cases p with
    | logging => cases h; exact Acts.log file q
    | _ => cases h
  | read =>
    cases p with
    | reading =>
      cases file with
      | none => cases h
      | some f =>
        simp only [act, reconcile] at h
        cases ht : decodeStrict f with
        | none => rw [ht] at h; cases h; exact Acts.crash _
        | some t =>
          rw [ht] at h
          dsimp only at h
          split_ifs at h with hsame hforce
          · cases h; exact Acts.identical _
          · cases h; exact Acts.force _ hforce
          · cases h; exact Acts.refuse _ (by simpa using hforce)
    | _ => cases h

/-! ### The invariant -/

/-- The process has opened the file to write it. -/
def Opened : Phase → Prop
  | .writing _ => True
  | .logging => True
  | .done r => r = .created ∨ r = .staged
  | _ => False

/-- It has the file open. -/
def Writing : Phase → Prop
  | .writing _ => True
  | _ => False

/-- The invariant of all interleavings that begin with `file`. -/
structure Inv (file : Option Bytes) (s : Sys ι Disk Phase) : Prop where
  /-- Where there is no file, there was none, and no process has begun. -/
  fresh : s.shared.file = none → file = none ∧ ∀ i, s.loc i = .start
  /-- A process that goes on to write over the file has `--force`. -/
  forcing : ∀ i, s.loc i = .forcing → K.force i = true
  /-- One that refuses has not. -/
  refused : ∀ i, s.loc i = .done .refusedConflict → K.force i = false
  /-- One at most has opened the file without it, where there was none. -/
  unforced : ∀ i, Opened (s.loc i) → K.force i = false →
    file = none ∧ ∀ j, Opened (s.loc j) → K.force j = false → j = i
  /-- Each byte was there before, or fills a gap, or is the byte of a process that has opened the
  file, at its place. -/
  origin : ∀ (f : Bytes) (k : ℕ) (b : UInt8), s.shared.file = some f → f[k]? = some b →
    b = 0 ∨ (∃ o, file = some o ∧ o[k]? = some b) ∨ ∃ i, Opened (s.loc i) ∧ (K.bytes i)[k]? = some b

theorem bytes_ne_nil (i : ι) : K.bytes i ≠ [] := by
  obtain ⟨c, t, hr⟩ := List.exists_cons_of_length_pos (K.rendered_length_pos i)
  rw [bytes, hr, encode_cons]
  exact List.append_ne_nil_of_left_ne_nil (encodeChar_ne_nil c) _

theorem inv_init (file : Option Bytes) (q : Text) :
    K.Inv file (init file q : Sys ι Disk Phase) where
  fresh h := ⟨h, fun _ => rfl⟩
  forcing _ h := nomatch h
  refused _ h := nomatch h
  unforced _ h := absurd h id
  origin f _ _ hf hb := .inr (.inl ⟨f, hf, hb⟩)

/-- The lines of the processes `is`. -/
def ledger (K : Rivals ι) (is : List ι) : Text := (is.map K.queueLine).flatten

section

variable {K : Rivals ι} {i : ι} {e : Event} {d d' : Disk} {p p' : Phase}

/-- A process that has opened the file stays one that has. -/
theorem Acts.opened (h : K.Acts i e d p d' p') (hp : Opened p) : Opened p' := by
  cases h with
  | win => trivial
  | lose => exact absurd hp id
  | truncate => trivial
  | write => trivial
  | close => cases K.stage <;> simp [Opened]
  | log => exact .inr rfl
  | crash => exact absurd hp id
  | identical => exact absurd hp id
  | force => exact absurd hp id
  | refuse => exact absurd hp id

/-- A process that has opened the file now, has created it or forces. -/
theorem Acts.opens (h : K.Acts i e d p d' p') (hp : ¬ Opened p) (hp' : Opened p') :
    d.file = none ∨ p = .forcing := by
  cases h with
  | win => exact .inl rfl
  | lose => exact absurd hp' id
  | truncate => exact .inr rfl
  | write => exact absurd trivial hp
  | close => exact absurd trivial hp
  | log => exact absurd trivial hp
  | crash => exact absurd hp' id
  | identical => rcases hp' with h | h <;> cases h
  | force => exact absurd hp' id
  | refuse => rcases hp' with h | h <;> cases h

/-- A process that goes on to write over the file has `--force`. -/
theorem Acts.forces (h : K.Acts i e d p d' p') (hp' : p' = .forcing) : K.force i = true := by
  cases h with
  | force _ hforce => exact hforce
  | close => revert hp'; cases K.stage <;> simp
  | _ => cases hp'

/-- One that refuses has not. -/
theorem Acts.refuses (h : K.Acts i e d p d' p') (hp' : p' = .done .refusedConflict) :
    K.force i = false := by
  cases h with
  | refuse _ hforce => exact hforce
  | close => revert hp'; cases K.stage <;> simp
  | _ => cases hp'

/-- A step that changes the file is one of a process that has then opened it. -/
theorem Acts.changes (h : K.Acts i e d p d' p') (hf : d'.file ≠ d.file) : Opened p' := by
  cases h with
  | win => trivial
  | truncate => trivial
  | write => trivial
  | _ => exact absurd rfl hf

/-- Each byte after a step was there before, or fills a gap, or is one of the process. -/
theorem Acts.origin (h : K.Acts i e d p d' p') {f' : Bytes} {k : ℕ} {b : UInt8}
    (hf' : d'.file = some f')
    (hb : f'[k]? = some b) :
    (∃ f, d.file = some f ∧ f[k]? = some b) ∨ b = 0 ∨ Opened p' ∧ (K.bytes i)[k]? = some b := by
  cases h with
  | win =>
    cases hf'
    cases hb
  | truncate =>
    cases hf'
    cases hb
  | write f q pos n hn hpos =>
    cases hf'
    rcases origin_of_writeAt hb with hold | hzero | ⟨hk, hnew⟩
    · exact .inl ⟨f, rfl, hold⟩
    · exact .inr (.inl hzero)
    · rw [List.getElem?_take, List.getElem?_drop, Nat.add_sub_cancel' hk] at hnew
      split_ifs at hnew
      exact .inr (.inr ⟨trivial, hnew⟩)
  | lose => exact .inl ⟨f', hf', hb⟩
  | close => exact .inl ⟨f', hf', hb⟩
  | log => exact .inl ⟨f', hf', hb⟩
  | crash => exact .inl ⟨f', hf', hb⟩
  | identical => exact .inl ⟨f', hf', hb⟩
  | force => exact .inl ⟨f', hf', hb⟩
  | refuse => exact .inl ⟨f', hf', hb⟩

/-- Once there is a file, there is one. -/
theorem Acts.file_isSome (h : K.Acts i e d p d' p') (hstart : p = .start ∨ d.file ≠ none) :
    d'.file ≠ none := by
  cases h with
  | win => simp
  | lose => simp
  | truncate => simp
  | write => simp
  | _ => exact hstart.resolve_left (by simp)

/-- To cut the file off takes a process that goes on to write over it. -/
theorem Acts.truncates (h : K.Acts i .truncate d p d' p') :
    p = .forcing ∧ p' = .writing 0 ∧ d'.file = some [] := by
  cases h with
  | truncate => exact ⟨rfl, rfl, rfl⟩

/-- A step appends the line of a process that reports `staged` with it, or leaves the queue as it
is. -/
theorem Acts.appends (h : K.Acts i e d p d' p') :
    p ≠ .done .staged ∧ p' = .done .staged ∧ d'.queue = d.queue ++ K.queueLine i ∨
      p ≠ .done .staged ∧ p' ≠ .done .staged ∧ d'.queue = d.queue := by
  cases h with
  | log => exact .inl ⟨by simp, rfl, rfl⟩
  | close => cases K.stage <;> exact .inr ⟨by simp, by simp, rfl⟩
  | _ => exact .inr ⟨by simp, by simp, rfl⟩

/-- A process that does not write, and does not cut the file off, leaves a file that is there as it
is. -/
theorem Acts.quiet {f : Bytes} (h : K.Acts i e d p d' p') (hp : ¬ Writing p) (he : e ≠ .truncate)
    (hf : d.file = some f) :
    d'.file = some f ∧ ¬ Writing p' := by
  cases h with
  | win => cases hf
  | lose => exact ⟨hf, id⟩
  | truncate => exact absurd rfl he
  | write => exact absurd trivial hp
  | close => exact absurd trivial hp
  | log => exact ⟨hf, id⟩
  | crash => exact ⟨hf, id⟩
  | identical => exact ⟨hf, id⟩
  | force => exact ⟨hf, id⟩
  | refuse => exact ⟨hf, id⟩

/-- A process that writes goes on where it is, or closes the file. -/
theorem Acts.sole {w : ι} {pos : ℕ} (h : K.Acts w e d (.writing pos) d' p')
    (hf : d.file = some ((K.bytes w).take pos)) :
    (∃ pos', p' = .writing pos' ∧ pos' ≤ (K.bytes w).length ∧
      d'.file = some ((K.bytes w).take pos')) ∨
      Opened p' ∧ ¬ Writing p' ∧ d'.file = some (K.bytes w) := by
  cases h with
  | write f q pos n hn hpos =>
    obtain rfl : f = (K.bytes w).take pos := Option.some.inj hf
    exact .inl ⟨pos + n, rfl, hpos, congrArg some (writeAt_take (by omega))⟩
  | close =>
    rw [List.take_length] at hf
    exact .inr ⟨by cases K.stage <;> simp [Opened], by cases K.stage <;> exact id, hf⟩

end

variable [DecidableEq ι]

/-- Every step keeps the invariant. -/
theorem Inv.step {K : Rivals ι} {file : Option Bytes} {s s' : Sys ι Disk Phase} {i : ι} {e : Event}
    (hs : K.Inv file s) (h : K.protocol.step s i e = some s') : K.Inv file s' := by
  have hacts := K.acts_of_act (Protocol.act_of_step h)
  have hloc' : ∀ j, j ≠ i → s'.loc j = s.loc j := fun j hj => Protocol.step_loc_of_ne h hj
  have hopened : ∀ j, Opened (s.loc j) → Opened (s'.loc j) := by
    intro j hj
    by_cases hji : j = i
    · subst hji; exact hacts.opened hj
    · rwa [hloc' j hji]
  refine ⟨fun hnone => ?_, fun j hj => ?_, fun j hj => ?_, fun j hj hforce => ?_,
    fun f k b hf hb => ?_⟩
  · refine absurd hnone (hacts.file_isSome ?_)
    by_cases hf : s.shared.file = none
    · exact .inl ((hs.fresh hf).2 i)
    · exact .inr hf
  · by_cases hji : j = i
    · subst hji
      exact hacts.forces hj
    · exact hs.forcing j (by rw [← hloc' j hji]; exact hj)
  · by_cases hji : j = i
    · subst hji
      exact hacts.refuses hj
    · exact hs.refused j (by rw [← hloc' j hji]; exact hj)
  · -- a process without `--force` that opens the file now creates it, and no other has begun
    have hnew : ∀ j, Opened (s'.loc j) → K.force j = false → ¬ Opened (s.loc j) →
        s.shared.file = none ∧ j = i := by
      intro j hj hforce hold
      by_cases hji : j = i
      · subst hji
        rcases hacts.opens hold hj with hnone | hforcing
        · exact ⟨hnone, rfl⟩
        · rw [hs.forcing j hforcing] at hforce
          cases hforce
      · rw [hloc' j hji] at hj
        exact absurd hj hold
    by_cases hold : Opened (s.loc j)
    · obtain ⟨hfile, hall⟩ := hs.unforced j hold hforce
      refine ⟨hfile, fun k hk hkforce => ?_⟩
      by_cases hkold : Opened (s.loc k)
      · exact hall k hkold hkforce
      · have hnone := (hnew k hk hkforce hkold).1
        rw [(hs.fresh hnone).2 j] at hold
        exact absurd hold id
    · obtain ⟨hnone, rfl⟩ := hnew j hj hforce hold
      refine ⟨(hs.fresh hnone).1, fun k hk hkforce => ?_⟩
      by_cases hkold : Opened (s.loc k)
      · rw [(hs.fresh hnone).2 k] at hkold
        exact absurd hkold id
      · exact (hnew k hk hkforce hkold).2
  · rcases hacts.origin hf hb with ⟨f₀, hf₀, hb₀⟩ | hzero | ⟨hi, hbyte⟩
    · rcases hs.origin f₀ k b hf₀ hb₀ with hzero | hold | ⟨j, hj, hbyte⟩
      · exact .inl hzero
      · exact .inr (.inl hold)
      · exact .inr (.inr ⟨j, hopened j hj, hbyte⟩)
    · exact .inl hzero
    · exact .inr (.inr ⟨i, hi, hbyte⟩)

variable {K : Rivals ι} {file : Option Bytes} {queue : Text} {s s' : Sys ι Disk Phase}
  {tr : List (ι × Event)} {i j : ι} {e : Event}

/-- Every state of a run satisfies the invariant. -/
theorem inv_run (h : K.protocol.run (init file queue) tr = some s) : K.Inv file s :=
  Protocol.run_invariant (fun _ _ _ _ hs hstep => hs.step hstep) (K.inv_init file queue) h

theorem opened_step (h : K.protocol.step s i e = some s') (hj : Opened (s.loc j)) :
    Opened (s'.loc j) := by
  by_cases hji : j = i
  · subst hji
    exact (K.acts_of_act (Protocol.act_of_step h)).opened hj
  · rwa [Protocol.step_loc_of_ne h hji]

theorem opened_run (hj : Opened (s.loc j)) (h : K.protocol.run s tr = some s') :
    Opened (s'.loc j) :=
  Protocol.run_invariant (I := fun s => Opened (s.loc j))
    (fun _ _ _ _ hs hstep => opened_step hstep hs) hj h

/-! ### Runs of two processes -/

/-- Two processes have begun. -/
def duo (i j : ι) (d : Disk) (p q : Phase) : Sys ι Disk Phase :=
  ⟨d, Function.update (Function.update (fun _ => .start) i p) j q⟩

variable {d : Disk} {p q : Phase}

theorem step_duo_left (hij : i ≠ j) :
    K.protocol.step (duo i j d p q) i e = (K.act i e d p).map fun x => duo i j x.1 x.2 q := by
  simp [Protocol.step, protocol, duo, Function.update_comm hij]

theorem step_duo_right :
    K.protocol.step (duo i j d p q) j e = (K.act j e d q).map fun x => duo i j x.1 p x.2 := by
  simp [Protocol.step, protocol, duo]

theorem init_eq_duo (i j : ι) (file : Option Bytes) (queue : Text) :
    init file queue = duo i j ⟨file, queue⟩ .start .start := by
  simp [init, duo]

/-- Both find a file, read it, and cut it off before any of them writes; `i` is the last to
write. -/
def clash (K : Rivals ι) (i j : ι) : List (ι × Event) :=
  [(i, .creat), (j, .creat), (i, .read), (j, .read), (i, .truncate), (j, .truncate),
    (j, .write (K.bytes j).length),
    (i, .write (K.bytes i).length), (j, .close), (i, .close)] ++ if K.stage then
      [(j, .log), (i, .log)] else []

/-- The end of that run. -/
def clashEnd (K : Rivals ι) (i j : ι) (queue : Text) : Sys ι Disk Phase :=
  duo i j ⟨some (K.bytes i ++ (K.bytes j).drop (K.bytes i).length),
    queue ++ if K.stage then K.ledger [j, i] else []⟩ (.done K.success) (.done K.success)

theorem run_clash (hij : i ≠ j) {f : Bytes} {t : Text} (ht : decodeStrict f = some t)
    (hi : K.reconcile i (universalNewlines t) = .forcing)
    (hj : K.reconcile j (universalNewlines t) = .forcing) :
    K.protocol.run (init (some f) queue) (K.clash i j) = some (K.clashEnd i j queue) := by
  have hpos : ∀ k, 0 < (K.bytes k).length := fun k => List.length_pos_iff.mpr (K.bytes_ne_nil k)
  have hall : writeAt 0 (writeAt 0 [] 0 (K.bytes j)) 0 (K.bytes i) = K.bytes i ++
      (K.bytes j).drop (K.bytes i).length := by
    rw [writeAt_zero, writeAt_zero, List.drop_nil, List.append_nil]
  rw [init_eq_duo i j, clash, clashEnd]
  cases hs : K.stage with
  | true =>
    simp [Protocol.run, step_duo_left hij, step_duo_right, act, ht, hi, hj, hpos, hall, hs, ledger,
      Contest.success]
  | false =>
    simp [Protocol.run, step_duo_left hij, step_duo_right, act, ht, hi, hj, hpos, hall, hs,
      Contest.success]

/-- A process that finds another skill, alone. -/
theorem run_found (hij : i ≠ j) {f : Bytes} {t : Text} (ht : decodeStrict f = some t)
    (hi : K.reconcile i (universalNewlines t) = .forcing) :
    K.protocol.run (init (some f) queue) [(i, .creat), (i, .read)] =
        some (duo i j ⟨some f, queue⟩ .forcing .start) := by
  rw [init_eq_duo i j]
  simp [Protocol.run, step_duo_left hij, act, ht, hi]

/-- It writes over the file. -/
theorem run_over (hij : i ≠ j) {f : Bytes} :
    K.protocol.run (duo i j ⟨some f, queue⟩ .forcing .start)
      ((i, .truncate) :: [(i, .write (K.bytes i).length), (i, .close)]) =
      some (duo i j ⟨some (K.bytes i), queue⟩ (if K.stage then .logging else .done .created)
          .start) := by
  have hpos : 0 < (K.bytes i).length := List.length_pos_iff.mpr (K.bytes_ne_nil i)
  simp [Protocol.run, step_duo_left hij, act, hpos, writeAt_zero]

/-- Two processes that create one skill with two descriptions, each with `--force`. -/
def rivals (stage : Bool) : Rivals Bool where
  stage
  args i :=
    { name := "deploy-x".toList, desc := bif i then "Deploy x now".toList else
      "Deploy x".toList, body := "b".toList,
      source := "bob".toList }
  env _ := sampleEnv
  request i := sampleRequest (bif i then "Deploy x now".toList else "Deploy x".toList)
  loggedAt _ := sampleEnv.now
  prepared i := by cases i <;> rfl
  sameName _ _ := rfl
  sameHash := Contest.sample.sameHash
  force _ := true

/-- The file they find. -/
def found : Bytes := [0x78]

theorem rivals_reconcile (stage i : Bool) :
    (rivals stage).reconcile i (universalNewlines "x".toList) = .forcing := by
  cases i <;> rfl

theorem rivals_run (stage : Bool) :
    (rivals stage).protocol.run (init (some found) []) ((rivals stage).clash false true) =
      some ((rivals stage).clashEnd false true []) :=
  run_clash (by decide) (by decide) (rivals_reconcile stage false) (rivals_reconcile stage true)

/-! ### What changes the file -/

/-- **Just `--force` writes over a file**: in every interleaving, a step that changes the file is
one of a process that reports that it wrote it, if it ends, and that has `--force`, or has created
the file as the one process without it that does. Each byte of the file was there before, or fills a
gap, or is the byte that such a process has at this place; and no process with `--force` refuses. -/
theorem only_forced_overwrites (K : Rivals ι) (file : Option Bytes) (queue : Text)
    (tr : List (ι × Event))
    (s : Sys ι Disk Phase) (h : K.protocol.run (init file queue) tr = some s) :
    (∀ pre i e post a b, tr = pre ++ (i, e) :: post →
      K.protocol.run (init file queue) pre = some a →
      K.protocol.step a i e = some b → b.shared.file ≠ a.shared.file →
      Opened (s.loc i) ∧
        (K.force i = true ∨ file = none ∧ ∀ j, Opened (s.loc j) → K.force j = false → j = i)) ∧
    (∀ (f : Bytes) (k : ℕ) (b : UInt8), s.shared.file = some f → f[k]? = some b →
      b = 0 ∨ (∃ o, file = some o ∧ o[k]? = some b) ∨ ∃ i, Opened (s.loc i) ∧
        (K.bytes i)[k]? = some b) ∧
    ∀ i, s.loc i = .done .refusedConflict → K.force i = false := by
  have hinv := inv_run h
  refine ⟨fun pre i e post a b htr ha hb hne => ?_, hinv.origin, hinv.refused⟩
  obtain ⟨a', b', ha', hb', hpost⟩ := Protocol.run_split (htr ▸ h)
  rw [ha, Option.some.injEq] at ha'
  subst ha'
  rw [hb, Option.some.injEq] at hb'
  subst hb'
  have hopened : Opened (s.loc i) :=
    opened_run ((K.acts_of_act (Protocol.act_of_step hb)).changes hne) hpost
  cases hforce : K.force i with
  | true => exact ⟨hopened, .inl rfl⟩
  | false => exact ⟨hopened, .inr (hinv.unforced i hopened hforce)⟩

theorem only_forced_overwrites_sample :
    (∀ pre i e post a b, (rivals false).clash false true = pre ++ (i, e) :: post →
      (rivals false).protocol.run (init (some found) []) pre = some a →
        (rivals false).protocol.step a i e = some b →
      b.shared.file ≠ a.shared.file →
      Opened (((rivals false).clashEnd false true []).loc i) ∧
        ((rivals false).force i = true ∨ some found = none ∧
        ∀ j, Opened (((rivals false).clashEnd false true []).loc j) →
          (rivals false).force j = false → j = i)) ∧
    (∀ (f : Bytes) (k : ℕ) (b : UInt8), ((rivals false).clashEnd false true []).shared.file =
      some f → f[k]? = some b →
      b = 0 ∨ (∃ o : Bytes, some found = some o ∧ o[k]? = some b) ∨
        ∃ i, Opened (((rivals false).clashEnd false true []).loc i) ∧
          ((rivals false).bytes i)[k]? = some b) ∧
    ∀ i, ((rivals false).clashEnd false true []).loc i = .done .refusedConflict →
        (rivals false).force i = false :=
  only_forced_overwrites (rivals false) (some found) [] _ _ (rivals_run false)

/-! ### The queue -/

/-- The queue holds what it held, and one line of each process that has reported `staged`. -/
def Ledger (K : Rivals ι) (queue : Text) (s : Sys ι Disk Phase) : Prop :=
  ∃ is : List ι, is.Nodup ∧ (∀ i, i ∈ is ↔ s.loc i = .done .staged) ∧
    s.shared.queue = queue ++ K.ledger is

theorem Ledger.step (hs : K.Ledger queue s) (h : K.protocol.step s i e = some s') :
    K.Ledger queue s' := by
  obtain ⟨is, hnodup, hmem, hqueue⟩ := hs
  have hloc' : ∀ j, j ≠ i → s'.loc j = s.loc j := fun j hj => Protocol.step_loc_of_ne h hj
  rcases (K.acts_of_act (Protocol.act_of_step h)).appends with ⟨hp, hp', hq⟩ | ⟨hp, hp', hq⟩
  · have hi : i ∉ is := fun hi => hp ((hmem i).mp hi)
    refine ⟨is ++ [i], List.nodup_append.mpr ⟨hnodup, List.pairwise_singleton _ i, ?_⟩,
      fun j => ?_, ?_⟩
    · rintro a ha b hb rfl
      exact hi (List.mem_singleton.mp hb ▸ ha)
    · rw [List.mem_append, List.mem_singleton]
      by_cases hji : j = i
      · subst hji
        exact ⟨fun _ => hp', fun _ => .inr rfl⟩
      · rw [hloc' j hji, ← hmem j]
        exact ⟨fun hj => hj.resolve_right hji, .inl⟩
    · rw [hq, hqueue, ledger, ledger, List.map_append, List.flatten_append, List.append_assoc,
        List.map_singleton, List.flatten_singleton]
  · refine ⟨is, hnodup, fun j => ?_, hq.trans hqueue⟩
    by_cases hji : j = i
    · subst hji
      exact ⟨fun hj => absurd ((hmem j).mp hj) hp, fun hj => absurd hj hp'⟩
    · rw [hloc' j hji, hmem j]

/-- **None is lost**: after every interleaving `queue.md` holds what it held, and behind it one line
of each process that has reported `staged`, in some order. -/
theorem ledger_exact (K : Rivals ι) (file : Option Bytes) (queue : Text) (tr : List (ι × Event))
    (s : Sys ι Disk Phase) (h : K.protocol.run (init file queue) tr = some s) :
    ∃ is : List ι, is.Nodup ∧ (∀ i, i ∈ is ↔ s.loc i = .done .staged) ∧
        s.shared.queue = queue ++ K.ledger is := by
  have hinit : K.Ledger queue (init file queue : Sys ι Disk Phase) :=
    ⟨[], List.nodup_nil, fun _ => ⟨fun hi => (nomatch hi), fun hi => (nomatch hi)⟩,
      (List.append_nil queue).symm⟩
  exact Protocol.run_invariant (I := K.Ledger queue) (fun _ _ _ _ hs hstep => hs.step hstep) hinit h

theorem ledger_exact_sample :
    ∃ is : List Bool, is.Nodup ∧
      (∀ i, i ∈ is ↔ ((rivals true).clashEnd false true []).loc i = .done .staged) ∧
      ((rivals true).clashEnd false true []).shared.queue = [] ++ (rivals true).ledger is :=
  ledger_exact (rivals true) (some found) [] _ _ (rivals_run true)

/-! ### The last one to force -/

/-- Process `w` has opened the file, and no other has it open: what it has written is in the file,
and nothing else. -/
structure Sole (K : Rivals ι) (w : ι) (s : Sys ι Disk Phase) : Prop where
  others : ∀ j, j ≠ w → ¬ Writing (s.loc j)
  text : (∃ pos, s.loc w = .writing pos ∧ pos ≤ (K.bytes w).length ∧
    s.shared.file = some ((K.bytes w).take pos)) ∨
    Opened (s.loc w) ∧ ¬ Writing (s.loc w) ∧ s.shared.file = some (K.bytes w)

theorem Sole.step {w : ι} (hs : K.Sole w s) (he : e ≠ .truncate)
    (h : K.protocol.step s i e = some s') : K.Sole w s' := by
  have hacts := K.acts_of_act (Protocol.act_of_step h)
  have hloc' : ∀ j, j ≠ i → s'.loc j = s.loc j := fun j hj => Protocol.step_loc_of_ne h hj
  have hfile : ∃ f, s.shared.file = some f := by
    rcases hs.text with ⟨_, _, _, hf⟩ | ⟨_, _, hf⟩ <;> exact ⟨_, hf⟩
  obtain ⟨f, hf⟩ := hfile
  by_cases hi : i = w
  · subst hi
    refine ⟨fun j hj => hloc' j hj ▸ hs.others j hj, ?_⟩
    rcases hs.text with ⟨pos, hp, -, htext⟩ | ⟨hopened, hquiet, htext⟩
    · rw [hp] at hacts
      exact hacts.sole htext
    · obtain ⟨hf', hquiet'⟩ := hacts.quiet hquiet he htext
      exact .inr ⟨hacts.opened hopened, hquiet', hf'⟩
  · obtain ⟨hf', hquiet'⟩ := hacts.quiet (hs.others i hi) he hf
    have hshared : s'.shared.file = s.shared.file := hf'.trans hf.symm
    refine ⟨fun j hj => ?_, ?_⟩
    · by_cases hji : j = i
      · exact hji ▸ hquiet'
      · exact hloc' j hji ▸ hs.others j hj
    · rw [hloc' w (Ne.symm hi), hshared]
      exact hs.text

/-- A process that cuts the file off while no other has it open. -/
theorem sole_of_truncate {w : ι} (hquiet : ∀ j, ¬ Writing (s.loc j))
    (h : K.protocol.step s w .truncate = some s') :
    K.Sole w s' := by
  obtain ⟨-, hp', hf'⟩ := (K.acts_of_act (Protocol.act_of_step h)).truncates
  exact ⟨fun j hj => Protocol.step_loc_of_ne h hj ▸ hquiet j, .inl ⟨0, hp', Nat.zero_le _, hf'⟩⟩

/-- **The last one to force wins**, whatever has come before it, if no process has the file open
when it cuts it off: once it has closed the file, this holds its whole text, in every interleaving
in which no other cuts it off again. -/
theorem last_force_wins (K : Rivals ι) (file : Option Bytes) (queue : Text)
    (pre post : List (ι × Event)) (w : ι)
    (a s : Sys ι Disk Phase) (ha : K.protocol.run (init file queue) pre = some a)
    (hquiet : ∀ j, ¬ Writing (a.loc j))
    (h : K.protocol.run a ((w, .truncate) :: post) = some s) (hlast : ∀ x ∈ post, x.2 ≠ .truncate)
    (hclosed : ¬ Writing (s.loc w)) :
    s.shared.file = some (K.bytes w) ∧ Opened (s.loc w) ∧ K.force w = true ∧
        ∀ j, ¬ Writing (s.loc j) := by
  rw [Protocol.run_cons, Option.bind_eq_some_iff] at h
  obtain ⟨b, hb, h⟩ := h
  have hforce : K.force w = true :=
    (inv_run ha).forcing w (K.acts_of_act (Protocol.act_of_step hb)).truncates.1
  have halong : K.protocol.Along (fun _ _ e => e ≠ .truncate) b post := by
    rw [Protocol.along_iff]
    exact fun pre i e post' _ heq _ => hlast (i, e) (heq ▸ by simp)
  have hsole : K.Sole w s :=
    Protocol.Along.invariant (I := K.Sole w) (fun _ _ _ _ hs he hstep => hs.step he hstep)
      (sole_of_truncate hquiet hb) halong h
  rcases hsole.text with ⟨pos, hp, -⟩ | ⟨hopened, -, hfile⟩
  · exact absurd (by rw [hp]; trivial) hclosed
  · refine ⟨hfile, hopened, hforce, fun j => ?_⟩
    by_cases hj : j = w
    · exact hj ▸ hclosed
    · exact hsole.others j hj

theorem last_force_wins_sample :
    some ((rivals false).bytes false) = some ((rivals false).bytes false) ∧
      Opened ((duo false true ⟨some ((rivals false).bytes false), []⟩ (.done .created) .start).loc
        false) ∧
      (rivals false).force false = true ∧
      ∀ j, ¬ Writing
          ((duo false true ⟨some ((rivals false).bytes false), []⟩ (.done .created) .start).loc
          j) :=
  last_force_wins (rivals false) (some found) [] _ _ false _ _
    (run_found (j := true) (by decide) (by decide) (rivals_reconcile false false))
      (fun j => by cases j <;> exact id)
    (run_over (by decide)) (by simp) id

/-! ### Two that force at once -/

/-- **Two that force at once mix the file**: of any two processes with `--force` that find another
skill there, and of which one writes a shorter text, some interleaving makes both report that the
skill is written, and leaves in the file the shorter text with the end of the longer one behind it;
which is none of the two, but where one begins with the other. -/
theorem forces_mix (K : Rivals ι) (i j : ι) (f : Bytes) (t queue : Text) (hi : K.force i = true)
    (hj : K.force j = true) (ht : decodeStrict f = some t) (hother : ∀ k, k = i ∨ k = j →
      (readFrontmatter (universalNewlines t)).1.get? "content_hash".toList ≠
        some ((K.request k).newHash (K.env k)))
    (hlen : (K.bytes i).length < (K.bytes j).length) :
    ∃ tr s m, K.protocol.run (init (some f) queue) tr = some s ∧ s.loc i = .done K.success ∧
      s.loc j = .done K.success ∧
      s.shared.file = some m ∧ m = K.bytes i ++ (K.bytes j).drop (K.bytes i).length ∧
        m ≠ K.bytes i ∧
      (m = K.bytes j ↔ K.bytes i <+: K.bytes j) := by
  have hij : i ≠ j := by rintro rfl; exact absurd hlen (lt_irrefl _)
  have hforcing : ∀ k, k = i ∨ k = j → K.force k = true →
      K.reconcile k (universalNewlines t) = .forcing := fun k hk hforce => by
    rw [reconcile, if_neg (hother k hk), if_pos hforce]
  refine ⟨K.clash i j, K.clashEnd i j queue, _,
    run_clash hij ht (hforcing i (.inl rfl) hi) (hforcing j (.inr rfl) hj), ?_, ?_, rfl, rfl,
    fun heq => ?_, fun heq => ?_, ?_⟩
  · simp [clashEnd, duo, Function.update_of_ne hij]
  · simp [clashEnd, duo]
  · have h := congrArg List.length heq
    rw [List.length_append, List.length_drop] at h
    omega
  · exact heq ▸ List.prefix_append _ _
  · rintro ⟨rest, hrest⟩
    rw [← hrest, List.drop_left]

theorem forces_mix_sample :
    ∃ tr s m, (rivals true).protocol.run (init (some found) []) tr = some s ∧
      s.loc false = .done (rivals true).success ∧
      s.loc true = .done (rivals true).success ∧ s.shared.file = some m ∧
      m = (rivals true).bytes false ++
        ((rivals true).bytes true).drop ((rivals true).bytes false).length ∧
      m ≠ (rivals true).bytes false ∧
      (m = (rivals true).bytes true ↔ (rivals true).bytes false <+: (rivals true).bytes true) :=
  forces_mix (rivals true) false true found "x".toList [] rfl rfl (by decide)
    (fun k _ => by cases k <;> decide) (by decide +kernel)

end Rivals

end OracleSkills.Writer
