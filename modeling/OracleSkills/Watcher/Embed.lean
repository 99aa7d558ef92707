import OracleSkills.Watcher.Wakeups

/-!
# One embed process at a time

`runEmbed` reads the two output streams of its process while a watchdog kills a pass that has gone
silent, and awaits whichever comes first: the end of both streams, or five seconds after the
process has exited. Then it clears `embedding`. The streams of a process, its kills and its exit
are callbacks of their own here, in any order among those of the watcher, whose `embedEnds` is
what happens when the race has been settled. So every run is a run of the watcher
(`reached_watcher`).

A pass that nobody awaits has ended both of its streams, or its process has exited (`Linked.fair`).
Only the first leaves a process alive: the watcher spawns beside a living process just where one has
closed its outputs and gone on (`Linked.drained`). So at most one is alive in every state of a run
exactly if, whenever the timer spawns, the processes that have ended both of their streams have
exited (`atMostOne_iff`).
-/

namespace OracleSkills.Watcher

open Python Concurrency State

/-! ### The passes -/

/-- The streams that `drain` reads. -/
inductive Pipe where
  | stdout
  | stderr
deriving DecidableEq

/-- What `proc.kill` sends. -/
inductive Signal where
  | sigterm
  | sigkill
deriving DecidableEq

/-- How far a process has come: `slept` is five seconds after `proc.exited`. -/
inductive Life where
  | alive
  | exited
  | slept
deriving DecidableEq

/-- A call of `runEmbed` that has spawned a process. -/
structure Pass where
  life : Life
  /-- The stream is being read. -/
  reads : Pipe → Bool
  lastOutputAt : ℤ
  killed : Bool
  /-- What the process has been sent. -/
  signals : List Signal
  /-- The call is suspended at the race. -/
  awaited : Bool

/-- What happens to a pass. -/
inductive PassEvent where
  | chunk (pipe : Pipe) (now : ℤ)
  /-- The stream is closed, or it throws: `drain` catches that. -/
  | pipeEnds (pipe : Pipe) (throws : Bool)
  /-- The watchdog looks. -/
  | tick (now : ℤ)
  | exits
  | slept

def embedStallMs : ℤ := 15 * 60000

namespace Pass

/-- The pass when its process has been spawned. -/
def spawn (now : ℤ) : Pass where
  life := .alive
  reads _ := true
  lastOutputAt := now
  killed := false
  signals := []
  awaited := true

/-- `streams` is settled. -/
def drained (p : Pass) : Bool := !p.reads .stdout && !p.reads .stderr

/-- One of the two sides of the race is settled. -/
def settled (p : Pass) : Bool := p.drained || p.life == .slept

/-- The watchdog: "Second strike escalates." -/
def watchdog (now : ℤ) (p : Pass) : Pass :=
  if now - p.lastOutputAt ≤ embedStallMs then p
  else if p.killed then { p with signals := p.signals ++ [.sigkill] }
  else { p with killed := true, signals := p.signals ++ [.sigterm] }

/-- What becomes of the pass. The watchdog is there until the race has been settled; a process may
exit at any time, killed or not. -/
def on (p : Pass) : PassEvent → Option Pass
  | .chunk pipe now => if p.reads pipe then some { p with lastOutputAt := now } else none
  | .pipeEnds pipe _ =>
    if p.reads pipe then
      some { p with reads := fun pipe' => pipe' != pipe && p.reads pipe' } else none
  | .tick now => if p.awaited then some (p.watchdog now) else none
  | .exits => if p.life = .alive then some { p with life := .exited } else none
  | .slept => if p.life = .exited then some { p with life := .slept } else none

end Pass

/-! ### The watcher with its passes -/

/-- The variables of the watcher and the passes it has spawned. -/
structure Embeds where
  watcher : State
  passes : List Pass

/-- What the event loop may call next. -/
inductive EmbedEvent where
  | callback (e : Event) (now : ℤ)
  /-- Something happens to the `i`th pass. -/
  | pass (i : ℕ) (e : PassEvent)

namespace Embeds

/-- The passes that a callback of the watcher spawns. -/
def spawns (w : State) (now : ℤ) : Event → List Pass
  | .embedFires starts => if starts && !w.embedding then [.spawn now] else []
  | _ => []

/-- The pass is now `p`; if that settles its race, `runEmbed` goes on. -/
def update (s : Embeds) (i : ℕ) (p : Pass) : Option Embeds :=
  if p.awaited && p.settled then
    (Watcher.callback s.watcher .embedEnds).map fun w =>
      ⟨w, s.passes.set i { p with awaited := false }⟩
  else some { s with passes := s.passes.set i p }

/-- One callback. The race settles when it is settled, and not by itself. -/
def step (s : Embeds) : EmbedEvent → Option Embeds
  | .callback .embedEnds _ => none
  | .callback e now =>
    (Watcher.callback s.watcher e).map fun w => ⟨w, s.passes ++ spawns s.watcher now e⟩
  | .pass i e => (s.passes[i]?).bind fun p => (p.on e).bind (s.update i)

/-- The event loop, with the passes. -/
def loop : Machine Embeds EmbedEvent := ⟨step⟩

/-- The event loop begins with no pass. -/
def started (world : World) (attaches : Text → Bool) : Embeds :=
  ⟨Watcher.started world attaches, []⟩

/-- The process is alive. -/
def alive (p : Pass) : Bool := p.life == .alive

/-- At most one embed process is alive. -/
def AtMostOne (s : Embeds) : Prop := s.passes.countP alive ≤ 1

/-- The timer of the embed pass fires and a process is spawned. -/
def Spawns (s : Embeds) (e : EmbedEvent) : Prop :=
  ∃ now, e = .callback (.embedFires true) now ∧ s.watcher.embedTimer = true ∧
    s.watcher.embedding = false

/-- A process is spawned only when every one that was spawned earlier has exited. -/
def SpawnsAlone (s : Embeds) (e : EmbedEvent) : Prop := Spawns s e → ∀ p ∈ s.passes, p.life ≠ .alive

/-- When a process is spawned, every one that has ended both of its output streams has exited. -/
def Quiet (s : Embeds) (e : EmbedEvent) : Prop :=
  Spawns s e → ∀ p ∈ s.passes, p.drained = true → p.life ≠ .alive

variable {s s' : Embeds} {w w' : State} {e : EmbedEvent} {p p' : Pass} {i : ℕ}

/-! ### What one step does -/

theorem on_awaited {e : PassEvent} (h : p.on e = some p') : p'.awaited = p.awaited := by
  cases e with
  | tick now =>
    simp only [Pass.on, Option.ite_none_right_eq_some, Option.some.injEq, Pass.watchdog] at h
    obtain ⟨-, rfl⟩ := h
    split_ifs <;> rfl
  | _ =>
    simp only [Pass.on, Option.ite_none_right_eq_some, Option.some.injEq] at h
    obtain ⟨-, rfl⟩ := h
    rfl

/-- What is settled stays so, -/
theorem on_settled {e : PassEvent} (h : p.on e = some p') (hp : p.settled = true) :
    p'.settled = true := by
  simp only [Pass.settled, Pass.drained] at hp ⊢
  cases e with
  | tick now =>
    simp only [Pass.on, Option.ite_none_right_eq_some, Option.some.injEq, Pass.watchdog] at h
    obtain ⟨-, rfl⟩ := h
    split_ifs <;> exact hp
  | pipeEnds pipe throws =>
    simp only [Pass.on, Option.ite_none_right_eq_some, Option.some.injEq] at h
    obtain ⟨-, rfl⟩ := h
    simp only [Bool.or_eq_true, Bool.and_eq_true, Bool.not_eq_true', Bool.and_eq_false_iff] at hp ⊢
    exact hp.imp_left fun ⟨hout, herr⟩ => ⟨Or.inr hout, Or.inr herr⟩
  | _ =>
    simp only [Pass.on, Option.ite_none_right_eq_some, Option.some.injEq] at h
    obtain ⟨hcan, rfl⟩ := h
    simp_all

/-- and a process that has exited does not come back. -/
theorem on_alive {e : PassEvent} (h : p.on e = some p') (hp : alive p' = true) :
    alive p = true := by
  simp only [alive] at hp ⊢
  cases e with
  | tick now =>
    simp only [Pass.on, Option.ite_none_right_eq_some, Option.some.injEq, Pass.watchdog] at h
    obtain ⟨-, rfl⟩ := h
    split_ifs at hp <;> exact hp
  | _ =>
    simp only [Pass.on, Option.ite_none_right_eq_some, Option.some.injEq] at h
    obtain ⟨hcan, rfl⟩ := h
    simp_all

/-- **What a step does**: a callback of the watcher runs, which may spawn a pass; or something
happens to a pass, which may settle its race. -/
theorem step_cases (h : s.step e = some s') :
    (∃ f now, e = .callback f now ∧ f ≠ .embedEnds ∧
      Watcher.callback s.watcher f = some s'.watcher ∧
      s'.passes = s.passes ++ spawns s.watcher now f) ∨
    ∃ i f p p', e = .pass i f ∧ s.passes[i]? = some p ∧ p.on f = some p' ∧
      ((p'.awaited && p'.settled) = false ∧ s' = { s with passes := s.passes.set i p' } ∨
        (p'.awaited && p'.settled) = true ∧
          Watcher.callback s.watcher .embedEnds = some s'.watcher ∧
          s'.passes = s.passes.set i { p' with awaited := false }) := by
  cases e with
  | callback f now =>
    refine Or.inl ⟨f, now, rfl, ?_⟩
    cases f with
    | embedEnds => cases h
    | _ =>
      simp only [step, Option.map_eq_some_iff] at h
      obtain ⟨w, hw, rfl⟩ := h
      exact ⟨by simp, hw, rfl⟩
  | pass i f =>
    simp only [step, Option.bind_eq_some_iff] at h
    obtain ⟨p, hp, p', hp', h⟩ := h
    refine Or.inr ⟨i, f, p, p', rfl, hp, hp', ?_⟩
    unfold update at h
    split_ifs at h with hsettled
    · obtain ⟨w, hw, rfl⟩ := Option.map_eq_some_iff.mp h
      exact Or.inr ⟨hsettled, hw, rfl⟩
    · cases h
      exact Or.inl ⟨by simpa using hsettled, rfl⟩

/-! ### The passes and the watcher -/

theorem endEmbed_embedAwaited (w : State) : (endEmbed w).embedAwaited = w.embedAwaited := by
  unfold endEmbed
  dsimp only
  split_ifs <;> rfl

theorem drain_embedAwaited (starts : ℕ → Bool) (w : State) :
    (drain starts w).embedAwaited = w.embedAwaited := by
  unfold drain
  split_ifs
  · rfl
  · exact drainQueue_rule (P := fun _ v => v.embedAwaited = w.embedAwaited)
      (Q := fun v => v.embedAwaited = w.embedAwaited) (fun _ _ _ h _ => h) (fun _ _ _ h _ => h)
        (fun _ h => h) rfl

/-- A callback suspends as many calls of `runEmbed` as it spawns passes. -/
theorem callback_embedAwaited {f : Event} {now : ℤ} (h : Watcher.callback w f = some w')
    (hf : f ≠ .embedEnds) :
    w'.embedAwaited = w.embedAwaited + (spawns w now f).length := by
  cases f with
  | changed vault file =>
    simp only [Watcher.callback, Option.ite_none_right_eq_some, Option.some.injEq] at h
    obtain ⟨-, rfl⟩ := h
    split_ifs <;> rfl
  | poll world attaches =>
    cases h
    refine reconcile_rule (I := fun v => v.embedAwaited = w.embedAwaited) (fun v vault hv => ?_) rfl
    obtain ⟨watched, lastSeen, hlook | hlook⟩ := look_cases world attaches v vault
    all_goals
      rw [hlook]
      exact hv
  | debounceFires vault starts =>
    simp only [Watcher.callback, Option.ite_none_right_eq_some, Option.some.injEq] at h
    obtain ⟨-, rfl⟩ := h
    exact drain_embedAwaited ..
  | indexEnds i ending starts =>
    obtain ⟨run, -, rfl⟩ := Option.map_eq_some_iff.mp h
    rw [drain_embedAwaited]
    cases ending <;> rfl
  | embedFires starts =>
    simp only [Watcher.callback, Option.ite_none_right_eq_some, Option.some.injEq] at h
    obtain ⟨-, rfl⟩ := h
    rcases Bool.eq_false_or_eq_true w.embedding with he | he
    · simp [runEmbed, spawns, he]
    · rw [runEmbed_of_not_embedding (show { w with embedTimer := false }.embedding = false from he)]
      cases starts with
      | true => simp [spawns, he]
      | false => simp [spawns, endEmbed_embedAwaited]
  | embedEnds => exact absurd rfl hf

/-- What holds between two callbacks: the watcher awaits the passes that are suspended, and any
other has settled its race. -/
structure Linked (s : Embeds) : Prop where
  reached : Reached s.watcher
  awaited : s.passes.countP Pass.awaited = s.watcher.embedAwaited
  fair : ∀ p ∈ s.passes, p.awaited = false → p.settled = true

theorem linked_started (world : World) (attaches : Text → Bool) :
    Linked (started world attaches) where
  reached := ⟨world, attaches, [], rfl⟩
  awaited := by
    refine Eq.symm (reconcile_rule (I := fun v => v.embedAwaited = 0) (fun v vault hv => ?_) rfl)
    obtain ⟨watched, lastSeen, hlook | hlook⟩ := look_cases world attaches v vault
    all_goals
      rw [hlook]
      exact hv
  fair _ hp := absurd hp List.not_mem_nil

/-- A change of one pass keeps what holds of the others. -/
theorem Linked.fair_set (h : Linked s) (hp' : p'.awaited = false → p'.settled = true) :
    ∀ p ∈ s.passes.set i p', p.awaited = false → p.settled = true := by
  intro p hp
  rcases List.mem_or_eq_of_mem_set hp with hp | rfl
  · exact h.fair p hp
  · exact hp'

/-- Where one pass is no longer awaited, one fewer is. -/
theorem countP_set_settled {l : List Pass} (hi : l[i]? = some p) (hp : p.awaited = true)
    (hp' : p'.awaited = false) :
    (l.set i p').countP Pass.awaited = l.countP Pass.awaited - 1 := by
  obtain ⟨hlt, rfl⟩ := List.getElem?_eq_some_iff.mp hi
  simp [List.countP_set hlt, hp, hp']

theorem countP_set_same {l : List Pass} (hi : l[i]? = some p) (hp : p'.awaited = p.awaited) :
    (l.set i p').countP Pass.awaited = l.countP Pass.awaited := by
  obtain ⟨hlt, rfl⟩ := List.getElem?_eq_some_iff.mp hi
  have hpos := List.boole_getElem_le_countP (p := Pass.awaited) hlt
  rw [List.countP_set hlt, hp]
  omega

/-- The race of a pass lets `runEmbed` go on. -/
theorem callback_embedEnds (h : Watcher.callback w .embedEnds = some w') :
    w'.embedAwaited = w.embedAwaited - 1 := by
  simp only [Watcher.callback, Option.ite_none_right_eq_some, Option.some.injEq] at h
  obtain ⟨-, rfl⟩ := h
  exact endEmbed_embedAwaited _

theorem mem_spawns {f : Event} {now : ℤ} (h : p ∈ spawns w now f) : p = .spawn now := by
  unfold spawns at h
  split at h
  · split_ifs at h
    · exact List.mem_singleton.mp h
    · cases h
  · cases h

/-- **A step keeps the invariant.** -/
theorem Linked.step (h : Linked s) (hstep : s.step e = some s') : Linked s' := by
  obtain ⟨f, now, rfl, hf, hw, hpasses⟩ | ⟨i, f, p, p', rfl, hp, hon,
      ⟨-, rfl⟩ | ⟨hsettled, hw, hpasses⟩⟩ := step_cases hstep
  · have hawaited : (spawns s.watcher now f).countP Pass.awaited =
        (spawns s.watcher now f).length := by
      rw [List.countP_eq_length]
      intro p hp
      rw [mem_spawns hp]
      rfl
    refine ⟨h.reached.callback hw, ?_, fun p hp hfree => ?_⟩
    · rw [hpasses, List.countP_append, h.awaited, hawaited, callback_embedAwaited hw hf]
    · rw [hpasses, List.mem_append] at hp
      rcases hp with hp | hp
      · exact h.fair p hp hfree
      · rw [mem_spawns hp] at hfree
        cases hfree
  · have hmem := List.mem_of_getElem? hp
    have hsame := on_awaited hon
    refine ⟨h.reached, ?_,
      h.fair_set fun hfree => on_settled hon (h.fair p hmem (hsame.symm.trans hfree))⟩
    exact (countP_set_same hp hsame).trans h.awaited
  · rw [Bool.and_eq_true] at hsettled
    refine ⟨h.reached.callback hw, ?_, ?_⟩
    · rw [hpasses, countP_set_settled hp ((on_awaited hon).symm.trans hsettled.1) rfl, h.awaited,
        callback_embedEnds hw]
    · rw [hpasses]
      exact h.fair_set fun _ => hsettled.2

/-- A run of the watcher with its passes is a run of the watcher: all that holds of the states that
it reaches holds here. -/
theorem reached_watcher {world : World} {attaches : Text → Bool} {tr : List EmbedEvent}
    (h : loop.run (started world attaches) tr = some s) : Reached s.watcher :=
  (Machine.run_invariant (M := loop) (fun _ _ _ h hstep => Linked.step h hstep)
    (linked_started world attaches) h).reached

/-- **Where `embedding` is cleared**, a process that is alive has ended both of its output
streams. -/
theorem Linked.drained (h : Linked s) (hidle : s.watcher.embedding = false) (hp : p ∈ s.passes)
    (hlife : p.life = .alive) :
    p.drained = true := by
  have hnone : s.passes.countP Pass.awaited = 0 := by
    rw [h.awaited, h.reached.good.embeds.awaited, hidle]
    rfl
  have hfree : p.awaited = false := by simpa using List.countP_eq_zero.mp hnone p hp
  have hsettled := h.fair p hp hfree
  simpa [Pass.settled, hlife] using hsettled

theorem Spawns.idle (h : Spawns s e) : s.watcher.embedding = false := by
  obtain ⟨-, -, -, hidle⟩ := h
  exact hidle

/-- So a process is spawned alone exactly if the others that have ended both of their streams have
exited. -/
theorem Linked.quiet_iff (h : Linked s) : Quiet s e ↔ SpawnsAlone s e := by
  refine ⟨fun hquiet hspawns p hp hlife => ?_, fun halone hspawns p hp _ => halone hspawns p hp⟩
  exact hquiet hspawns p hp (h.drained hspawns.idle hp hlife) hlife

/-! ### How many are alive -/

theorem countP_alive_set_le {l : List Pass} (hi : l[i]? = some p)
    (hp : alive p' = true → alive p = true) :
    (l.set i p').countP alive ≤ l.countP alive := by
  obtain ⟨hlt, rfl⟩ := List.getElem?_eq_some_iff.mp hi
  have hpos := List.boole_getElem_le_countP (p := alive) hlt
  rw [List.countP_set hlt]
  split_ifs at hpos ⊢ <;> simp_all

/-- A step that spawns no process leaves no more of them alive, -/
theorem countP_alive_le (h : s.step e = some s') (hnone : ¬ Spawns s e) :
    s'.passes.countP alive ≤ s.passes.countP alive := by
  obtain ⟨f, now, rfl, -, hw, hpasses⟩ | ⟨i, f, p, p', rfl, hp, hon, ⟨-, rfl⟩ | ⟨-, -, hpasses⟩⟩ :=
    step_cases h
  · have hnil : spawns s.watcher now f = [] := by
      unfold spawns
      split
      · rename_i starts
        simp only [Watcher.callback, Option.ite_none_right_eq_some] at hw
        rw [if_neg]
        intro hspawns
        rw [Bool.and_eq_true, Bool.not_eq_true'] at hspawns
        obtain ⟨rfl, hidle⟩ := hspawns
        exact hnone ⟨now, rfl, hw.1, hidle⟩
      · rfl
    rw [hpasses, hnil, List.append_nil]
  · exact countP_alive_set_le hp (on_alive hon)
  · rw [hpasses]
    exact countP_alive_set_le hp fun halive => on_alive hon halive

/-- and one that spawns leaves one more. -/
theorem countP_alive_spawns (h : s.step e = some s') (hspawns : Spawns s e) :
    s'.passes.countP alive = s.passes.countP alive + 1 := by
  obtain ⟨now, rfl, -, hidle⟩ := hspawns
  simp only [step, Option.map_eq_some_iff] at h
  obtain ⟨w, -, rfl⟩ := h
  simp [spawns, hidle, alive, Pass.spawn]

theorem countP_alive_eq_zero : s.passes.countP alive = 0 ↔ ∀ p ∈ s.passes, p.life ≠ .alive := by
  simp [alive]

/-- Where at most one process is alive, that is so after a step exactly if the step spawns no
process beside another. -/
theorem spawnsAlone_iff (hone : AtMostOne s) :
    SpawnsAlone s e ↔ ∀ s', s.step e = some s' → AtMostOne s' := by
  constructor
  · intro halone s' hstep
    by_cases hspawns : Spawns s e
    · rw [AtMostOne, countP_alive_spawns hstep hspawns, countP_alive_eq_zero.mpr (halone hspawns)]
    · exact (countP_alive_le hstep hspawns).trans hone
  · intro hnext hspawns
    obtain ⟨s', hs'⟩ : ∃ s', s.step e = some s' := by
      obtain ⟨now, rfl, htimer, -⟩ := hspawns
      simp [step, Watcher.callback, htimer]
    have hle := hnext s' hs'
    rw [AtMostOne, countP_alive_spawns hs' hspawns] at hle
    exact countP_alive_eq_zero.mp (by omega)

/-! ### Every run -/

/-- **When at most one embed process is alive**: in every run, each process is spawned when all
those spawned earlier have exited, and at most one is alive in every state that the run goes
through, exactly if at every spawn the processes that have ended both of their output streams have
exited. -/
theorem atMostOne_iff (world : World) (attaches : Text → Bool) (tr : List EmbedEvent) :
    loop.Along Quiet (started world attaches) tr ↔
      loop.Along SpawnsAlone (started world attaches) tr ∧
          loop.Always AtMostOne (started world attaches) tr := by
  have hJ := linked_started world attaches
  have hI : AtMostOne (started world attaches) := Nat.zero_le 1
  have hquiet : loop.Along Quiet (started world attaches) tr ↔
      loop.Along SpawnsAlone (started world attaches) tr :=
    Machine.along_congr (fun _ _ h => h.quiet_iff) (fun _ _ _ h hstep => Linked.step h hstep) hJ
  have halways : loop.Along SpawnsAlone (started world attaches) tr ↔
      loop.Always AtMostOne (started world attaches) tr :=
    Machine.along_iff (J := Linked) (fun _ _ _ hone => spawnsAlone_iff hone)
      (fun _ _ _ h _ hstep _ => Linked.step h hstep) hJ hI
  rw [← halways, and_self, hquiet]

/-! ### A sample -/

/-- The index process of the sample ends, and so does the debounce of the embed pass; the process of
that pass closes its outputs and goes on; then another change leads to another pass. -/
def sampleEmbeds : List EmbedEvent :=
  [.callback (.changed sampleVault (some "a.md".toList)) 0,
    .callback (.debounceFires sampleVault fun _ => true) 0,
    .callback (.indexEnds 0 (.exits 0) fun _ => true) 0, .callback (.embedFires true) 0,
    .callback (.changed sampleVault (some "a.md".toList)) 0,
    .callback (.debounceFires sampleVault fun _ => true) 0,
    .callback (.indexEnds 0 (.exits 0) fun _ => true) 0, .pass 0 (.pipeEnds .stdout false),
    .pass 0 (.pipeEnds .stderr false), .callback (.embedFires true) 0]

theorem sampleEmbeds_two_alive :
    (loop.run (started (sampleWorld 1) fun _ => true) sampleEmbeds).map
        (fun s => s.passes.countP alive) = some 2 := by
  decide +kernel

/-- The watcher spawns an embed process beside a living one. -/
theorem spawnsBeside :
    ¬ ∀ world attaches tr, loop.Along SpawnsAlone (started world attaches) tr ∧
      loop.Always AtMostOne (started world attaches) tr := by
  intro hall
  obtain ⟨s, hrun, htwo⟩ := Option.map_eq_some_iff.mp sampleEmbeds_two_alive
  have hone := (hall _ _ _).2.last hrun
  rw [AtMostOne, htwo] at hone
  omega

end Embeds

end OracleSkills.Watcher
