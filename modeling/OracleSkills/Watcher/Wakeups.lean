import OracleSkills.Watcher.Loop

/-!
# No lost wake-up

A vault that is scheduled comes to be indexed, whatever the order of the callbacks: until an index
process has been tried for it, it has a timer or is in the queue (`Ready.wakes`), and the queue is
empty when nothing is being indexed (`Good.single`). In the same way an index process that has ended
comes to be followed by an embed pass: until one has been tried, there is a timer, or a pass is to
follow the one that is under way.

`noLostWakeup`: in every state that the watcher reaches, at most one index process is awaited, the
queue holds no vault twice, and nothing that was handed on has been dropped.
-/

namespace OracleSkills.Watcher

open Python Concurrency State

/-! ### What the marks say -/

/-- `scheduleIndex(vault)` was called. -/
def Mark.Schedules (vault : Text) : Mark → Prop
  | .scheduled vault' _ => vault' = vault
  | _ => False

/-- A poll has called `scheduleIndex(vault)`. -/
def Mark.Polls (vault : Text) (m : Mark) : Prop := m = .scheduled vault .poll

/-- An index process was tried for the vault. -/
def Mark.Tries (vault : Text) (m : Mark) : Prop := ∃ pid, m = .tried vault pid

/-- An index process has ended. -/
def Mark.Exits : Mark → Prop
  | .exited .. => True
  | _ => False

/-- An embed process was tried. -/
def Mark.Embeds (m : Mark) : Prop := m = .embedTried

instance (vault : Text) : DecidablePred (Mark.Schedules vault)
  | .scheduled vault' _ => inferInstanceAs (Decidable (vault' = vault))
  | .tried .. => inferInstanceAs (Decidable False)
  | .exited .. => inferInstanceAs (Decidable False)
  | .embedTried => inferInstanceAs (Decidable False)

instance (vault : Text) : DecidablePred (Mark.Polls vault) := fun m =>
  inferInstanceAs (Decidable (m = .scheduled vault .poll))

instance : DecidablePred Mark.Exits
  | .scheduled .. => inferInstanceAs (Decidable False)
  | .tried .. => inferInstanceAs (Decidable False)
  | .exited .. => inferInstanceAs (Decidable True)
  | .embedTried => inferInstanceAs (Decidable False)

/-- The vault has not been scheduled since an index process was last tried for it. -/
def Woken (vault : Text) (marks : List Mark) : Prop :=
  Answered (Mark.Schedules vault) (Mark.Tries vault) marks

/-- No index process has ended since an embed process was last tried. -/
def Embedded (marks : List Mark) : Prop := Answered Mark.Exits Mark.Embeds marks

/-! ### The invariant -/

/-- What holds of the embed pass. -/
structure EmbedGood (w : State) : Prop where
  /-- A pass is under way exactly if one is awaited, -/
  awaited : w.embedAwaited = if w.embedding then 1 else 0
  /-- and only then another is to follow. -/
  pending : w.embedPending = true → w.embedding = true
  wakes : w.embedTimer = true ∨ w.embedPending = true ∨ Embedded w.marks

/-- The processes that have ended, and the one that is awaited, are among those tried. -/
structure Numbered (w : State) : Prop where
  awaited : ∀ run ∈ w.awaited, run.pid < w.spawned
  exited : ∀ vault pid code, .exited vault pid code ∈ w.marks → pid < w.spawned

/-- The vault waits for its timer or in the queue. -/
def Waits (w : State) (queue : List Text) (vault : Text) : Prop :=
  vault ∈ w.debounce ∨ vault ∈ queue

/-- What holds where nothing is being indexed and the queue is about to be drained. -/
structure Ready (queue : List Text) (w : State) : Prop where
  idle : w.indexing = false
  awaited : w.awaited = []
  nodup : queue.Nodup
  wakes : ∀ vault, Waits w queue vault ∨ Woken vault w.marks
  embeds : EmbedGood w
  pids : Numbered w

/-- What holds between two callbacks. -/
structure Good (w : State) : Prop where
  /-- Either nothing is being indexed, and the queue is empty, or one process is awaited, which
  was tried after the poll last scheduled its vault, if the vault does not wait. -/
  single : (w.indexing = false ∧ w.awaited = [] ∧ w.queue = []) ∨ w.indexing = true ∧
    ∃ run, w.awaited = [run] ∧
    (Waits w w.queue run.vault ∨ .tried run.vault run.pid ∈ since (Mark.Polls run.vault) w.marks)
  nodup : w.queue.Nodup
  wakes : ∀ vault, Waits w w.queue vault ∨ Woken vault w.marks
  embeds : EmbedGood w
  pids : Numbered w

variable {w w' : State} {queue : List Text} {vault v : Text} {starts : ℕ → Bool}

/-! ### What each function keeps -/

/-- A mark that is no end of an index process. -/
theorem EmbedGood.mark {m : Mark} {marks : List Mark}
    (h : w.embedTimer = true ∨ w.embedPending = true ∨ Embedded marks)
    (hm : ¬ m.Exits) : w.embedTimer = true ∨ w.embedPending = true ∨ Embedded (m :: marks) :=
  h.imp_right (Or.imp_right fun hans => hans.cons hm)

/-- A mark that is no end of an index process. -/
theorem Numbered.mark {m : Mark} (h : Numbered w) {v : Text} {pid : ℕ} {code : ℤ}
    (hmem : .exited v pid code ∈ m :: w.marks) (hm : ¬ m.Exits) : pid < w.spawned := by
  rcases List.mem_cons.mp hmem with rfl | hmem
  · exact absurd trivial hm
  · exact h.exited v pid code hmem

theorem Good.scheduleIndex (h : Good w) (cause : Cause) (vault : Text) :
    Good (scheduleIndex cause vault w) where
  single := by
    refine h.single.imp_right fun ⟨hi, run, hrun, hwaits⟩ => ⟨hi, run, hrun, ?_⟩
    by_cases hv : run.vault = vault
    · exact Or.inl (Or.inl (mem_add.mpr (Or.inr hv)))
    · rcases hwaits with (hd | hq) | htried
      · exact Or.inl (Or.inl (mem_add.mpr (Or.inl hd)))
      · exact Or.inl (Or.inr hq)
      · refine Or.inr ?_
        rw [State.scheduleIndex,
          since_cons_of_not (by simpa [Mark.Polls] using fun he => absurd he.symm hv)]
        exact List.mem_cons_of_mem _ htried
  nodup := h.nodup
  wakes v := by
    by_cases hv : v = vault
    · exact Or.inl (Or.inl (mem_add.mpr (Or.inr hv)))
    · rcases h.wakes v with (hd | hq) | hwoken
      · exact Or.inl (Or.inl (mem_add.mpr (Or.inl hd)))
      · exact Or.inl (Or.inr hq)
      · exact Or.inr (hwoken.cons fun he => hv he.symm)
  embeds := ⟨h.embeds.awaited, h.embeds.pending, EmbedGood.mark h.embeds.wakes (fun he => he)⟩
  pids := ⟨h.pids.awaited, fun _ _ _ hmem => h.pids.mark hmem fun he => he⟩

theorem Good.reconcile (h : Good w) (world : World) (attaches : Text → Bool) :
    Good (reconcile world attaches w) := by
  refine reconcile_rule (fun w vault h => ?_) h
  obtain ⟨watched, lastSeen, hlook | hlook⟩ := look_cases world attaches w vault
  · rw [hlook]
    exact ⟨h.single, h.nodup, h.wakes, ⟨h.embeds.awaited, h.embeds.pending, h.embeds.wakes⟩,
      ⟨h.pids.awaited, h.pids.exited⟩⟩
  · rw [hlook]
    refine Good.scheduleIndex ?_ .poll vault
    exact ⟨h.single, h.nodup, h.wakes, ⟨h.embeds.awaited, h.embeds.pending, h.embeds.wakes⟩,
      ⟨h.pids.awaited, h.pids.exited⟩⟩

/-- An attempt to start a process takes its vault off the queue and wakes it, -/
theorem Ready.wakes_attempt (h : Ready (vault :: queue) w) (v : Text) :
    Waits w queue v ∨ Woken v (.tried vault w.spawned :: w.marks) := by
  by_cases hv : v = vault
  · subst hv
    exact Or.inr (answered_cons_self (fun he => he) ⟨_, rfl⟩)
  · rcases h.wakes v with (hd | hq) | hwoken
    · exact Or.inl (Or.inl hd)
    · exact Or.inl (Or.inr ((List.mem_cons.mp hq).resolve_left hv))
    · exact Or.inr (hwoken.cons fun he => he)

/-- and its number is a new one. -/
theorem Ready.pids_attempt (h : Ready queue w) {v : Text} {m : Mark} {pid : ℕ} {code : ℤ}
    (hmem : .exited v pid code ∈ m :: w.marks) (hm : ¬ m.Exits) : pid < w.spawned + 1 :=
  Nat.lt_succ_of_lt (h.pids.mark hmem hm)

theorem Ready.drained (h : Ready queue w) : Good (drainQueue starts queue w) := by
  refine drainQueue_rule (P := Ready) (fun vault queue w h _ => ?_) (fun vault queue w h _ => ?_)
    (fun w h => ?_) h
  · have hawaited : ∀ run ∈ w.awaited, run.pid < w.spawned + 1 := by
      rw [h.awaited]
      exact fun run hrun => absurd hrun List.not_mem_nil
    exact ⟨rfl, h.awaited, (List.nodup_cons.mp h.nodup).2, h.wakes_attempt,
      ⟨h.embeds.awaited, h.embeds.pending, EmbedGood.mark h.embeds.wakes fun he => he⟩,
      ⟨hawaited, fun _ _ _ hmem => h.pids_attempt hmem fun he => he⟩⟩
  · have hone : w.awaited ++ [⟨vault, w.spawned⟩] = [⟨vault, w.spawned⟩] := by
      rw [h.awaited]
      rfl
    have hawaited : ∀ run ∈ w.awaited ++ [⟨vault, w.spawned⟩], run.pid < w.spawned + 1 := by
      rw [hone, List.forall_mem_singleton]
      exact Nat.lt_succ_self _
    refine ⟨Or.inr ⟨rfl, ⟨vault, w.spawned⟩, hone, Or.inr ?_⟩, (List.nodup_cons.mp h.nodup).2,
      h.wakes_attempt,
      ⟨h.embeds.awaited, h.embeds.pending, EmbedGood.mark h.embeds.wakes fun he => he⟩,
      ⟨hawaited, fun _ _ _ hmem => h.pids_attempt hmem fun he => he⟩⟩
    · show _ ∈ since _ (_ :: _)
      rw [since_cons_of_not (by simp [Mark.Polls])]
      exact List.mem_cons_self ..
  · exact ⟨Or.inl ⟨h.idle, h.awaited, rfl⟩, List.nodup_nil, h.wakes,
      ⟨h.embeds.awaited, h.embeds.pending, h.embeds.wakes⟩, ⟨h.pids.awaited, h.pids.exited⟩⟩

/-- A vault whose timer fires waits in the queue, and the others wait where they did. -/
theorem Waits.debounceFires (h : Waits w w.queue v) (vault : Text) :
    Waits { w with debounce := w.debounce.erase vault, queue := add w.queue vault }
        (add w.queue vault) v := by
  by_cases heq : v = vault
  · exact Or.inr (mem_add.mpr (Or.inr heq))
  · exact h.imp (List.mem_erase_of_ne heq).mpr fun hq => mem_add.mpr (Or.inl hq)

/-- If nothing is being indexed, the queue is ready to be drained. -/
theorem Good.ready_debounceFires (h : Good w) (hidle : w.indexing = false) (vault : Text) :
    Ready (add w.queue vault) { w with debounce := w.debounce.erase vault, queue := add w.queue vault } := by
  have hawaited : w.awaited = [] := by
    rcases h.single with ⟨-, hnone, -⟩ | ⟨hbusy, -⟩
    · exact hnone
    · rw [hidle] at hbusy
      cases hbusy
  exact ⟨hidle, hawaited, nodup_add h.nodup, fun v => (h.wakes v).imp_left fun hv => hv.debounceFires vault,
    ⟨h.embeds.awaited, h.embeds.pending, h.embeds.wakes⟩, ⟨h.pids.awaited, h.pids.exited⟩⟩

theorem Good.debounceFires (h : Good w) (vault : Text) :
    Good (enqueue starts vault { w with debounce := w.debounce.erase vault }) := by
  rw [enqueue, drain]
  rcases h.single with ⟨hidle, -⟩ | ⟨hbusy, run, hrun, hwaits⟩
  · rw [if_neg (by simp [hidle])]
    exact (h.ready_debounceFires hidle vault).drained
  · rw [if_pos hbusy]
    exact ⟨Or.inr ⟨hbusy, run, hrun, hwaits.imp_left fun hv => hv.debounceFires vault⟩, nodup_add h.nodup,
      fun v => (h.wakes v).imp_left fun hv => hv.debounceFires vault,
      ⟨h.embeds.awaited, h.embeds.pending, h.embeds.wakes⟩, ⟨h.pids.awaited, h.pids.exited⟩⟩

/-- A process that is awaited is the only one. -/
theorem Good.awaited_get (h : Good w) {i : ℕ} {run : IndexRun} (hi : w.awaited[i]? = some run) :
    w.indexing = true ∧ w.awaited = [run] ∧ w.awaited.eraseIdx i = [] ∧
      (Waits w w.queue run.vault ∨
          .tried run.vault run.pid ∈ since (Mark.Polls run.vault) w.marks) := by
  rcases h.single with ⟨-, hawaited, -⟩ | ⟨hbusy, run', hrun, hwaits⟩
  · rw [hawaited] at hi
    cases hi
  · rw [hrun] at hi ⊢
    cases i with
    | zero =>
      cases hi
      exact ⟨hbusy, rfl, rfl, hwaits⟩
    | succ i => cases hi

/-- The variables when `drain` has gone on after the end of the only process, and is about to be
called again. -/
def State.ended (run : IndexRun) (ending : Ending) (w : State) : State :=
  { afterIndex run ending { w with awaited := [] } with indexing := false }

section

variable (run : IndexRun) (ending : Ending) (w : State)

@[simp] theorem indexing_ended : (ended run ending w).indexing = false := rfl

@[simp] theorem queue_ended : (ended run ending w).queue = w.queue := by cases ending <;> rfl

@[simp] theorem debounce_ended :
    (ended run ending w).debounce = w.debounce := by cases ending <;> rfl

@[simp] theorem spawned_ended : (ended run ending w).spawned = w.spawned := by cases ending <;> rfl

@[simp] theorem marks_ended :
    (ended run ending w).marks = (afterIndex run ending w).marks := by cases ending <;> rfl

end

/-- After the end of its process, `drain` finds the queue ready. -/
theorem Good.indexEnds (h : Good w) {run : IndexRun} (hrun : run.pid < w.spawned)
    (ending : Ending) :
    Ready w.queue (ended run ending w) := by
  have hnone : ∀ run ∈ ([] : List IndexRun), run.pid < w.spawned :=
    fun run hrun => absurd hrun List.not_mem_nil
  cases ending with
  | throws =>
    exact ⟨rfl, rfl, h.nodup, h.wakes, ⟨h.embeds.awaited, h.embeds.pending, h.embeds.wakes⟩,
      ⟨hnone, h.pids.exited⟩⟩
  | exits code =>
    refine ⟨rfl, rfl, h.nodup, fun v => ?_, ⟨h.embeds.awaited, h.embeds.pending, Or.inl rfl⟩,
      ⟨hnone, fun v pid c hmem => ?_⟩⟩
    · exact (h.wakes v).imp_right fun hwoken => hwoken.cons fun he => he
    · rcases List.mem_cons.mp hmem with he | hmem
      · cases he
        exact hrun
      · exact h.pids.exited v pid c hmem

/-- The callback of the end of the only process. -/
theorem Good.drain_indexEnds (h : Good w) {i : ℕ} {run : IndexRun} (hi : w.awaited[i]? = some run)
    (ending : Ending) :
    drain starts { afterIndex run ending { w with awaited := w.awaited.eraseIdx i } with
      indexing := false } =
      drainQueue starts w.queue (ended run ending w) := by
  obtain ⟨-, -, hnil, -⟩ := h.awaited_get hi
  rw [hnil, ← ended, drain, if_neg (by simp), queue_ended]

/-- The embed pass has ended. -/
theorem EmbedGood.endEmbed (hwakes : w.embedPending = true ∨ w.embedTimer = true ∨ Embedded w.marks)
    (hawaited : w.embedAwaited = 0) : EmbedGood (endEmbed w) := by
  cases hp : w.embedPending with
  | true =>
    rw [endEmbed_of_pending hp]
    exact ⟨hawaited, fun h => (nomatch h), Or.inl rfl⟩
  | false =>
    rw [endEmbed_of_not_pending hp]
    refine ⟨hawaited, fun h => ?_, (hwakes.resolve_left (by simp [hp])).imp_right Or.inr⟩
    rw [hp] at h
    cases h

/-- The timer of the embed pass has fired. -/
theorem EmbedGood.runEmbed (h : EmbedGood w) (starts : Bool) :
    EmbedGood (runEmbed starts { w with embedTimer := false }) := by
  rcases Bool.eq_false_or_eq_true w.embedding with he | he
  · rw [runEmbed_of_embedding (show { w with embedTimer := false }.embedding = true from he)]
    exact ⟨h.awaited, fun _ => he, Or.inr (Or.inl rfl)⟩
  · have hawaited := h.awaited
    rw [he] at hawaited
    have hans : Embedded (.embedTried :: w.marks) := answered_cons_self (fun he => he) rfl
    rw [runEmbed_of_not_embedding (show { w with embedTimer := false }.embedding = false from he)]
    split_ifs
    · exact ⟨congrArg (· + 1) hawaited, fun _ => rfl, Or.inr (Or.inr hans)⟩
    · exact EmbedGood.endEmbed (Or.inr (Or.inr hans)) hawaited

/-- What the embed pass leaves as it is. -/
structure EmbedsOnly (w w' : State) : Prop where
  indexing : w'.indexing = w.indexing
  awaited : w'.awaited = w.awaited
  queue : w'.queue = w.queue
  debounce : w'.debounce = w.debounce
  spawned : w'.spawned = w.spawned
  marks : w'.marks = w.marks ∨ w'.marks = .embedTried :: w.marks

theorem embedsOnly_endEmbed (w : State) (n : ℕ) :
    EmbedsOnly w (endEmbed { w with embedAwaited := n }) := by
  unfold State.endEmbed
  dsimp only
  split_ifs <;> exact ⟨rfl, rfl, rfl, rfl, rfl, Or.inl rfl⟩

theorem embedsOnly_runEmbed (w : State) (starts : Bool) :
    EmbedsOnly w (runEmbed starts { w with embedTimer := false }) := by
  unfold State.runEmbed State.endEmbed
  dsimp only
  split_ifs
  · exact ⟨rfl, rfl, rfl, rfl, rfl, Or.inl rfl⟩
  all_goals exact ⟨rfl, rfl, rfl, rfl, rfl, Or.inr rfl⟩

theorem Good.embeds_only (h : Good w) (hw : EmbedsOnly w w') (hembeds : EmbedGood w') :
    Good w' where
  single := by
    rw [hw.indexing, hw.awaited, hw.queue]
    refine h.single.imp_right fun ⟨hi, run, hrun, hwaits⟩ => ⟨hi, run, hrun, ?_⟩
    rw [Waits, hw.debounce]
    refine hwaits.imp_right fun htried => ?_
    rcases hw.marks with hm | hm
    · rw [hm]
      exact htried
    · rw [hm, since_cons_of_not (by simp [Mark.Polls])]
      exact List.mem_cons_of_mem _ htried
  nodup := hw.queue ▸ h.nodup
  wakes v := by
    rw [Waits, hw.debounce, hw.queue]
    refine (h.wakes v).imp_right fun hwoken => ?_
    rcases hw.marks with hm | hm
    · rw [hm]
      exact hwoken
    · rw [hm]
      exact hwoken.cons fun he => he
  embeds := hembeds
  pids := by
    refine ⟨by rw [hw.awaited, hw.spawned]; exact h.pids.awaited, fun v pid code hmem => ?_⟩
    rw [hw.spawned]
    rcases hw.marks with hm | hm
    · exact h.pids.exited v pid code (hm ▸ hmem)
    · rw [hm] at hmem
      exact h.pids.mark hmem fun he => he

/-! ### Every run -/

/-- **A callback keeps the invariant.** -/
theorem Good.callback {e : Event} (h : Good w) (hstep : callback w e = some w') : Good w' := by
  cases e with
  | changed vault file =>
    simp only [Watcher.callback] at hstep
    split_ifs at hstep
    · cases hstep
      exact h.scheduleIndex .event vault
    · cases hstep
      exact h
  | poll world attaches =>
    cases hstep
    exact h.reconcile world attaches
  | debounceFires vault starts =>
    simp only [Watcher.callback] at hstep
    split_ifs at hstep
    cases hstep
    exact h.debounceFires vault
  | indexEnds i ending starts =>
    obtain ⟨run, hi, rfl⟩ := Option.map_eq_some_iff.mp hstep
    rw [h.drain_indexEnds hi]
    exact (h.indexEnds (h.pids.awaited run (List.mem_of_getElem? hi)) ending).drained
  | embedFires starts =>
    simp only [Watcher.callback] at hstep
    split_ifs at hstep
    cases hstep
    exact h.embeds_only (embedsOnly_runEmbed w starts) (h.embeds.runEmbed starts)
  | embedEnds =>
    simp only [Watcher.callback] at hstep
    split_ifs at hstep with hpos
    cases hstep
    refine h.embeds_only (embedsOnly_endEmbed w _) (EmbedGood.endEmbed ?_ ?_)
    · exact or_left_comm.mp h.embeds.wakes
    · have hawaited := h.embeds.awaited
      show w.embedAwaited - 1 = 0
      split_ifs at hawaited <;> omega

theorem good_empty : Good .empty where
  single := Or.inl ⟨rfl, rfl, rfl⟩
  nodup := List.nodup_nil
  wakes _ := Or.inr answered_nil
  embeds := ⟨rfl, fun h => (nomatch h), Or.inr (Or.inr answered_nil)⟩
  pids := ⟨fun _ hrun => absurd hrun List.not_mem_nil,
    fun _ _ _ hmem => absurd hmem List.not_mem_nil⟩

theorem good_started (world : World) (attaches : Text → Bool) : Good (started world attaches) :=
  good_empty.reconcile world attaches

theorem Reached.good (h : Reached w) : Good w := by
  obtain ⟨world, attaches, tr, hrun⟩ := h
  exact Machine.run_invariant (fun _ _ _ h hstep => Good.callback h hstep)
    (good_started world attaches) hrun

/-- Nothing that was handed on has been dropped. -/
structure NoLostWakeup (w : State) : Prop where
  /-- At most one index process is awaited, -/
  one : w.awaited.length ≤ 1
  /-- and the queue holds no vault twice. -/
  once : w.queue.Nodup
  /-- For a vault that does not wait an index process was tried after it was last scheduled, -/
  indexed : ∀ vault, vault ∉ w.debounce → vault ∉ w.queue → w.indexing = false → Woken vault w.marks
  /-- and an embed process was tried after an index process last ended. -/
  embedded : w.embedTimer = false → w.embedding = false → Embedded w.marks

/-- **No lost wake-up**, in any state that the watcher reaches. -/
theorem noLostWakeup (h : Reached w) : NoLostWakeup w where
  one := by
    rcases h.good.single with ⟨-, hawaited, -⟩ | ⟨-, run, hrun, -⟩
    · rw [hawaited]
      exact Nat.zero_le 1
    · rw [hrun]
      exact Nat.le_refl 1
  once := h.good.nodup
  indexed vault hd hq _ := (h.good.wakes vault).resolve_left (not_or.mpr ⟨hd, hq⟩)
  embedded ht he := by
    rcases h.good.embeds.wakes with htimer | hpending | hans
    · rw [ht] at htimer
      cases htimer
    · rw [h.good.embeds.pending hpending] at he
      cases he
    · exact hans

/-! ### A sample -/

/-- A vault in the second base. -/
def sampleVault : Text := "/home/chillox-intern/vault".toList

/-- One vault, with one memory of that time. -/
def sampleWorld (mtimeMs : ℚ) : World where
  readdir base := if base = "/home/chillox-intern".toList then some ["vault".toList] else none
  node p := if p = memoryDir sampleVault then
    some (.dir [("a.md".toList, .file [] mtimeMs)]) else none

/-- The vault is seen, then its memory changes, and the index process starts or it does not. -/
def sampleEvents (starts : Bool) : List Event :=
  [.poll (sampleWorld 2) fun _ => true, .debounceFires sampleVault fun _ => starts]

/-- The vault is being indexed. -/
def sampleEnd (starts : Bool) : State where
  lastSeen := [(sampleVault, 2)]
  debounce := []
  watched := [sampleVault]
  indexing := starts
  queue := []
  embedTimer := false
  embedding := false
  embedPending := false
  awaited := if starts then [⟨sampleVault, 0⟩] else []
  embedAwaited := 0
  spawned := 1
  marks := [.tried sampleVault 0, .scheduled sampleVault .poll]

theorem sampleEnd_run (starts : Bool) :
    loop.run (started (sampleWorld 1) fun _ => true) (sampleEvents starts) =
        some (sampleEnd starts) := by
  cases starts <;> decide +kernel

/-- While the vault is indexed it changes again, and is queued; it is indexed a second time, and an
embed pass that is asked for while another one is under way follows it. -/
def laterEvents : List Event :=
  sampleEvents true ++
    [.changed sampleVault (some "a.md".toList), .debounceFires sampleVault fun _ => true,
    .indexEnds 0 (.exits 0) fun _ => true, .embedFires true, .indexEnds 0 (.exits 0) fun _ =>
      true, .embedFires true, .embedEnds,
    .embedFires true, .embedEnds]

/-- All processes have ended. -/
def laterEnd : State where
  lastSeen := [(sampleVault, 2)]
  debounce := []
  watched := [sampleVault]
  indexing := false
  queue := []
  embedTimer := false
  embedding := false
  embedPending := false
  awaited := []
  embedAwaited := 0
  spawned := 2
  marks := [.embedTried, .exited sampleVault 1 0, .embedTried, .tried sampleVault 1,
    .exited sampleVault 0 0,
    .scheduled sampleVault .event, .tried sampleVault 0, .scheduled sampleVault .poll]

theorem noLostWakeup_sample : NoLostWakeup laterEnd :=
  noLostWakeup ⟨sampleWorld 1, fun _ => true, laterEvents, by decide +kernel⟩

end OracleSkills.Watcher
