import OracleSkills.Concurrency.Machine
import OracleSkills.Python.Dict
import OracleSkills.Watcher.World

/-!
# The watcher's event loop

`oracle-psi-watcher.ts` indexes a vault "the moment a memory file changes". Its variables
are shared by callbacks that run one after the other, in any order: file system events, a poll
(`reconcile`) every ten seconds, a debounce timer for each vault, the ends of the index process and
of the embed process, and the timer of the embed pass. A vault whose timer fires is queued;
`drain` takes one vault at a time off the queue, starts a process for it and awaits its end.

The variables are modelled as they are in the source, with the functions that are suspended at an
`await` beside them, since they go on where they left off. `debounce` and `embedTimer` hold the
timers that have not fired: a timer that is replaced is cleared. A callback that starts a process is
given what becomes of each attempt. `marks` is the history, which no callback reads.

`drainQueue_rule` is the rule for that loop over the queue, `reconcile_rule` the one for the loop
over the vaults.

What is *not* formalized: how long the timers run. One that is set may fire at any time.
-/

namespace OracleSkills.Watcher

open Python Concurrency

/-! ### The state -/

/-- Who called `scheduleIndex`. -/
inductive Cause where
  | event
  | poll
deriving DecidableEq

/-- What has happened. -/
inductive Mark where
  /-- `scheduleIndex` was called. -/
  | scheduled (vault : Text) (cause : Cause)
  /-- `Bun.spawn` was called for an index process, the `pid`th. -/
  | tried (vault : Text) (pid : ℕ)
  /-- An index process has ended, and `drain` has gone on after it. -/
  | exited (vault : Text) (pid : ℕ) (code : ℤ)
  /-- `Bun.spawn` was called for an embed process. -/
  | embedTried
deriving DecidableEq

/-- A `drain` that awaits the end of its process. -/
structure IndexRun where
  vault : Text
  pid : ℕ
deriving DecidableEq

/-- The variables of the watcher. -/
structure State where
  /-- "vault -> max mtime indexed". -/
  lastSeen : Dict Text ℚ
  /-- The vaults with a timer. -/
  debounce : List Text
  /-- "Vaults with an fs.watch attached". -/
  watched : List Text
  indexing : Bool
  queue : List Text
  /-- There is a timer. -/
  embedTimer : Bool
  embedding : Bool
  embedPending : Bool
  /-- The calls of `drain` that are suspended. -/
  awaited : List IndexRun
  /-- The calls of `runEmbed` that are suspended. -/
  embedAwaited : ℕ
  /-- The index processes tried so far. -/
  spawned : ℕ
  marks : List Mark
deriving DecidableEq

/-- The variables before the first `reconcile`. -/
def State.empty : State where
  lastSeen := []
  debounce := []
  watched := []
  indexing := false
  queue := []
  embedTimer := false
  embedding := false
  embedPending := false
  awaited := []
  embedAwaited := 0
  spawned := 0
  marks := []

/-! ### The functions -/

namespace State

/-- `scheduleEmbed`. -/
def scheduleEmbed (w : State) : State := { w with embedTimer := true }

/-- The `finally` of `runEmbed`. -/
def endEmbed (w : State) : State :=
  let w := { w with embedding := false }
  if w.embedPending then scheduleEmbed { w with embedPending := false } else w

/-- `runEmbed`, up to its `await`. -/
def runEmbed (starts : Bool) (w : State) : State :=
  if w.embedding then { w with embedPending := true }
  else
    let w := { w with embedding := true, marks := .embedTried :: w.marks }
    if starts then { w with embedAwaited := w.embedAwaited + 1 } else endEmbed w

/-- A process for `vault`, which has been taken off the queue, is tried. -/
def attempt (vault : Text) (queue : List Text) (w : State) : State :=
  { w with queue := queue, indexing := true, spawned := w.spawned + 1, marks := .tried vault w.spawned :: w.marks }

/-- `drain` where nothing is being indexed, on a queue, up to its `await`; `shift` gives a falsy
value only of an empty queue, since a vault is a path below a base. Where the process cannot be
started, the `finally` calls `drain` again. -/
def drainQueue (starts : ℕ → Bool) : List Text → State → State
  | [], w => { w with queue := [] }
  | vault :: queue, w =>
    if starts w.spawned then
      { attempt vault queue w with awaited := w.awaited ++ [⟨vault, w.spawned⟩] }
    else drainQueue starts queue { attempt vault queue w with indexing := false }

/-- `drain`. -/
def drain (starts : ℕ → Bool) (w : State) : State :=
  if w.indexing then w else drainQueue starts w.queue w

/-- `enqueue`. -/
def enqueue (starts : ℕ → Bool) (vault : Text) (w : State) : State :=
  drain starts { w with queue := add w.queue vault }

/-- `scheduleIndex`. -/
def scheduleIndex (cause : Cause) (vault : Text) (w : State) : State :=
  { w with debounce := add w.debounce vault, marks := .scheduled vault cause :: w.marks }

/-- `attachWatch`. -/
def attachWatch (attaches : Text → Bool) (vault : Text) (w : State) : State :=
  if vault ∈ w.watched then w else if attaches vault then
    { w with watched := w.watched ++ [vault] } else w

/-- `maxMtimeMd(join(vault, 'ψ', 'memory'))`. -/
def mtime (world : World) (vault : Text) : ℚ :=
  ((world.node (memoryDir vault)).map maxMtimeMd).getD 0

/-- The turn of `reconcile` for one vault. -/
def look (world : World) (attaches : Text → Bool) (w : State) (vault : Text) : State :=
  let w := attachWatch attaches vault w
  let mx := mtime world vault
  match w.lastSeen.get? vault with
  -- "First sight: trust the existing index, set baseline, don't reindex."
  | none => { w with lastSeen := w.lastSeen.set vault mx }
  | some prev =>
    if prev < mx then
    scheduleIndex .poll vault { w with lastSeen := w.lastSeen.set vault mx } else w

/-- `reconcile`. -/
def reconcile (world : World) (attaches : Text → Bool) (w : State) : State :=
  (discoverVaults world).foldl (look world attaches) w

end State

/-! ### The events -/

/-- The end of an index process: it exits, or the `await` throws. -/
inductive Ending where
  | exits (code : ℤ)
  | throws
deriving DecidableEq

/-- What the event loop may call next. -/
inductive Event where
  /-- The listener of `fs.watch`. -/
  | changed (vault : Text) (file : Option Text)
  | poll (world : World) (attaches : Text → Bool)
  | debounceFires (vault : Text) (starts : ℕ → Bool)
  /-- The `i`th of the suspended calls of `drain` goes on. -/
  | indexEnds (i : ℕ) (ending : Ending) (starts : ℕ → Bool)
  | embedFires (starts : Bool)
  /-- A suspended call of `runEmbed` goes on. -/
  | embedEnds

open State

/-- What `drain` does after its `await`, up to its `finally`. -/
def State.afterIndex (run : IndexRun) (ending : Ending) (w : State) : State :=
  match ending with
  | .exits code => scheduleEmbed { w with marks := .exited run.vault run.pid code :: w.marks }
  | .throws => w

/-- One callback. -/
def callback (w : State) : Event → Option State
  | .changed vault file =>
    if vault ∈ w.watched then
      some (if file.any isMd then scheduleIndex .event vault w else w) else none
  | .poll world attaches => some (reconcile world attaches w)
  | .debounceFires vault starts =>
    if vault ∈ w.debounce then
      some (enqueue starts vault { w with debounce := w.debounce.erase vault }) else none
  | .indexEnds i ending starts =>
    (w.awaited[i]?).map fun run =>
      drain starts { afterIndex run ending { w with awaited := w.awaited.eraseIdx i } with
        indexing := false }
  | .embedFires starts =>
    if w.embedTimer then some (runEmbed starts { w with embedTimer := false }) else none
  | .embedEnds =>
    if 0 < w.embedAwaited then
      some (endEmbed { w with embedAwaited := w.embedAwaited - 1 }) else none

/-- The event loop. -/
def loop : Machine State Event := ⟨callback⟩

/-- The state in which the event loop begins: after the first `reconcile`. -/
def started (world : World) (attaches : Text → Bool) : State := reconcile world attaches .empty

/-! ### The rules -/

section

variable {starts : ℕ → Bool} {queue : List Text} {w : State}

/-- **The rule for `drain`**: `P` holds of the queue and the variables as long as processes cannot
be started, and `Q` at its end. -/
theorem drainQueue_rule {P : List Text → State → Prop} {Q : State → Prop}
    (hfails : ∀ vault queue w, P (vault :: queue) w → starts w.spawned = false →
      P queue { attempt vault queue w with indexing := false })
    (hstarts : ∀ vault queue w, P (vault :: queue) w → starts w.spawned = true →
      Q { attempt vault queue w with awaited := w.awaited ++ [⟨vault, w.spawned⟩] })
    (hdone : ∀ w, P [] w → Q { w with queue := [] }) (h : P queue w) : Q
        (drainQueue starts queue w) := by
  induction queue generalizing w with
  | nil => exact hdone w h
  | cons vault queue ih =>
    rw [drainQueue]
    split_ifs with hs
    · exact hstarts vault queue w h hs
    · exact ih (hfails vault queue w h (by simpa using hs))

/-- **The rule for `reconcile`**: an invariant that looking at a vault keeps. -/
theorem reconcile_rule {I : State → Prop} {world : World} {attaches : Text → Bool}
    (hlook : ∀ w vault, I w → I (look world attaches w vault)) (h : I w) :
    I (reconcile world attaches w) := by
  have hfold : ∀ (vaults : List Text) (w : State), I w →
      I (vaults.foldl (look world attaches) w) := by
    intro vaults
    induction vaults with
    | nil => exact fun _ h => h
    | cons vault vaults ih => exact fun w h => ih _ (hlook w vault h)
  exact hfold _ w h

theorem attachWatch_eq (attaches : Text → Bool) (vault : Text) (w : State) :
    ∃ watched, attachWatch attaches vault w = { w with watched := watched } := by
  unfold attachWatch
  split_ifs
  · exact ⟨w.watched, rfl⟩
  · exact ⟨_, rfl⟩
  · exact ⟨w.watched, rfl⟩

/-- Looking at a vault changes what has been seen and what is watched, and may schedule the
vault. -/
theorem look_cases (world : World) (attaches : Text → Bool) (w : State) (vault : Text) :
    ∃ watched lastSeen, look world attaches w vault =
      { w with watched := watched, lastSeen := lastSeen } ∨
      look world attaches w vault = scheduleIndex .poll vault
          { w with watched := watched, lastSeen := lastSeen } := by
  obtain ⟨watched, hw⟩ := attachWatch_eq attaches vault w
  unfold look
  simp only [hw]
  cases w.lastSeen.get? vault with
  | none => exact ⟨watched, _, Or.inl rfl⟩
  | some prev =>
    simp only
    split_ifs
    · exact ⟨watched, _, Or.inr rfl⟩
    · exact ⟨watched, w.lastSeen, Or.inl rfl⟩

theorem endEmbed_of_pending (h : w.embedPending = true) :
    endEmbed w = { w with embedding := false, embedPending := false, embedTimer := true } :=
      if_pos h

theorem endEmbed_of_not_pending (h : w.embedPending = false) :
    endEmbed w = { w with embedding := false } :=
  if_neg (by simp [h])

theorem runEmbed_of_embedding {starts : Bool} (h : w.embedding = true) :
    runEmbed starts w = { w with embedPending := true } := if_pos h

theorem runEmbed_of_not_embedding {starts : Bool} (h : w.embedding = false) :
    runEmbed starts w =
      if starts then { w with embedding := true, marks := .embedTried :: w.marks, embedAwaited := w.embedAwaited + 1 }
      else endEmbed { w with embedding := true, marks := .embedTried :: w.marks } := if_neg (by simp [h])

end

/-- The states that the watcher reaches. -/
def Reached (w : State) : Prop := ∃ world attaches tr, loop.run (started world attaches) tr = some w

theorem Reached.callback {w w' : State} {e : Event} (h : Reached w)
    (hstep : Watcher.callback w e = some w') :
    Reached w' := by
  obtain ⟨world, attaches, tr, hrun⟩ := h
  refine ⟨world, attaches, tr ++ [e], ?_⟩
  rw [Machine.run_append, hrun]
  exact congrArg (·.bind some) hstep

end OracleSkills.Watcher
