import OracleSkills.Watcher.Wakeups

/-!
# When the indexer fails

`lastSeen` is "vault -> max mtime indexed". A poll raises it when it schedules the vault, not when
the vault has been indexed, and `drain` logs a process that cannot be started, or that ends with
another exit code than 0, and goes on. So the next poll takes the change for indexed. `Survives`
says that this has not happened: a vault that neither waits nor is being indexed has been indexed,
by a run that ended with 0, since a poll last scheduled it.

`change_survives_iff`: every state of a run survives if and only if no callback lets an index
process fail for a vault that has nothing else to wait for (`Careful`).
-/

namespace OracleSkills.Watcher

open Python Concurrency State

/-- A run that ended with exit code 0 was started after a poll last scheduled the vault, if one
did. -/
def Indexed (vault : Text) (marks : List Mark) : Prop :=
  (∃ m ∈ marks, m.Polls vault) →
    ∃ pid, .tried vault pid ∈ since (Mark.Polls vault) marks ∧ .exited vault pid 0 ∈ marks

/-- No detected change is taken for indexed that is not. -/
def Survives (w : State) : Prop :=
  ∀ vault, ¬ Waits w w.queue vault → (∀ run ∈ w.awaited, run.vault ≠ vault) → Indexed vault w.marks

/-- The processes that are tried for the vaults of a queue start, or the vault has a timer, or no
change of it is waiting to be indexed. -/
def DrainCareful (starts : ℕ → Bool) (w : State) : List Text → ℕ → Prop
  | [], _ => True
  | vault :: queue, pid =>
    starts pid = true ∨ (vault ∈ w.debounce ∨ Indexed vault w.marks) ∧
      DrainCareful starts w queue (pid + 1)

/-- If a process fails in the callback, its vault waits, or no change of it is waiting to be
indexed. -/
def Careful (w : State) : Event → Prop
  | .debounceFires vault starts => vault ∈ w.debounce → w.indexing = false →
      DrainCareful starts { w with debounce := w.debounce.erase vault }
        (add w.queue vault) w.spawned
  | .indexEnds i ending starts => ∀ run, w.awaited[i]? = some run →
      (ending = .exits 0 ∨ Waits w w.queue run.vault ∨ Indexed run.vault w.marks) ∧
        DrainCareful starts (afterIndex run ending w) w.queue w.spawned
  | _ => True

variable {w w' : State} {queue : List Text} {vault v : Text} {starts : ℕ → Bool} {m : Mark}
  {marks : List Mark}

/-! ### What the marks say of a vault -/

theorem Indexed.cons (h : Indexed vault marks) (hm : ¬ m.Polls vault) :
    Indexed vault (m :: marks) := by
  rintro ⟨a, ha, hp⟩
  have hold : ∃ a ∈ marks, a.Polls vault := by
    rcases List.mem_cons.mp ha with rfl | ha
    · exact absurd hp hm
    · exact ⟨a, ha, hp⟩
  obtain ⟨pid, htried, hexited⟩ := h hold
  exact ⟨pid, by rw [since_cons_of_not hm]; exact List.mem_cons_of_mem _ htried, List.mem_cons_of_mem _ hexited⟩

/-- A mark that is no attempt for the vault and no good end says nothing of it. -/
theorem indexed_cons_iff (hm : ¬ m.Polls vault) (htried : ¬ m.Tries vault)
    (hexited : ∀ pid, m ≠ .exited vault pid 0) :
    Indexed vault (m :: marks) ↔ Indexed vault marks := by
  refine ⟨fun h ⟨a, ha, hp⟩ => ?_, fun h => h.cons hm⟩
  obtain ⟨pid, ht, he⟩ := h ⟨a, List.mem_cons_of_mem _ ha, hp⟩
  rw [since_cons_of_not hm] at ht
  refine ⟨pid, (List.mem_cons.mp ht).resolve_left fun h => htried ⟨pid, h.symm⟩, ?_⟩
  exact (List.mem_cons.mp he).resolve_left fun h => hexited pid h.symm

/-- An attempt says nothing of its vault before it has ended. -/
theorem indexed_tried_iff (hpids : Numbered w) :
    Indexed v (.tried vault w.spawned :: w.marks) ↔ Indexed v w.marks := by
  have hm : ¬ (Mark.tried vault w.spawned).Polls v := by simp [Mark.Polls]
  refine ⟨?_, fun h => h.cons hm⟩
  rintro h ⟨a, ha, hp⟩
  obtain ⟨pid, ht, he⟩ := h ⟨a, List.mem_cons_of_mem _ ha, hp⟩
  rw [since_cons_of_not hm] at ht
  have he : .exited v pid 0 ∈ w.marks := by
    rcases List.mem_cons.mp he with he | he
    · cases he
    · exact he
  rcases List.mem_cons.mp ht with ht | ht
  · -- a process that has ended was tried before
    cases ht
    exact absurd (hpids.exited _ _ _ he) (Nat.lt_irrefl _)
  · exact ⟨pid, ht, he⟩

/-! ### Draining the queue -/

/-- The variables when a process for `vault` could not be started. -/
theorem Ready.failed (h : Ready (vault :: queue) w) :
    Ready queue { attempt vault queue w with indexing := false } where
  idle := rfl
  awaited := h.awaited
  nodup := (List.nodup_cons.mp h.nodup).2
  wakes := h.wakes_attempt
  embeds := ⟨h.embeds.awaited, h.embeds.pending, EmbedGood.mark h.embeds.wakes fun he => he⟩
  pids := by
    refine ⟨?_, fun _ _ _ hmem => h.pids_attempt hmem fun he => he⟩
    show ∀ run ∈ w.awaited, _
    rw [h.awaited]
    exact fun _ hrun => absurd hrun List.not_mem_nil

/-- Draining a queue that the vault is not in leaves the vault alone. -/
theorem Ready.not_mem_drainQueue (h : Ready queue w) (starts : ℕ → Bool) (hv : v ∉ queue) :
    (drainQueue starts queue w).debounce = w.debounce ∧ v ∉ (drainQueue starts queue w).queue ∧
      (∀ run ∈ (drainQueue starts queue w).awaited, run.vault ≠ v) ∧
        (Indexed v (drainQueue starts queue w).marks ↔ Indexed v w.marks) := by
  induction queue generalizing w with
  | nil =>
    refine ⟨rfl, List.not_mem_nil, ?_, Iff.rfl⟩
    show ∀ run ∈ w.awaited, _
    rw [h.awaited]
    exact fun _ hrun => absurd hrun List.not_mem_nil
  | cons vault queue ih =>
    obtain ⟨hne, hv⟩ := not_or.mp (mt List.mem_cons.mpr hv)
    rw [drainQueue]
    split_ifs
    · refine ⟨rfl, hv, ?_, indexed_tried_iff h.pids⟩
      show ∀ run ∈ w.awaited ++ _, _
      rw [h.awaited, List.nil_append, List.forall_mem_singleton]
      exact fun he => hne he.symm
    · obtain ⟨hd, hq, ha, hi⟩ := ih h.failed hv
      exact ⟨hd, hq, ha, hi.trans (indexed_tried_iff h.pids)⟩

/-- The condition is on the timers and the marks. -/
theorem drainCareful_congr (starts : ℕ → Bool) (queue : List Text) (w w' : State)
    (hd : w'.debounce = w.debounce) (hi : ∀ v, Indexed v w'.marks ↔ Indexed v w.marks) (pid : ℕ) :
    DrainCareful starts w' queue pid ↔ DrainCareful starts w queue pid := by
  induction queue generalizing pid with
  | nil => exact Iff.rfl
  | cons vault queue ih =>
    rw [DrainCareful, DrainCareful, hd, hi, ih]

/-- **Draining the queue** is survived exactly if it is done with care, by variables where every
vault waits or has been indexed. -/
theorem Ready.survives_iff (h : Ready queue w) (hall : ∀ v, Waits w queue v ∨ Indexed v w.marks) :
    DrainCareful starts w queue w.spawned ↔ Survives (drainQueue starts queue w) := by
  induction queue generalizing w with
  | nil => exact ⟨fun _ v hv _ => (hall v).resolve_left hv, fun _ => trivial⟩
  | cons vault queue ih =>
    rw [DrainCareful, drainQueue]
    split_ifs with hs
    · refine ⟨fun _ v hv hrun => ?_, fun _ => Or.inl hs⟩
      have hne : v ≠ vault := fun he =>
        hrun ⟨vault, w.spawned⟩ (List.mem_append_right _ (List.mem_singleton.mpr rfl)) he.symm
      refine ((hall v).resolve_left fun hwaits => hv (hwaits.imp_right fun hq => ?_)).cons
        (by simp [Mark.Polls])
      exact (List.mem_cons.mp hq).resolve_left hne
    · have hcongr := drainCareful_congr starts queue w
        { attempt vault queue w with indexing := false }
        rfl (fun v => indexed_tried_iff h.pids) (w.spawned + 1)
      rw [or_iff_right hs]
      by_cases hspared : vault ∈ w.debounce ∨ Indexed vault w.marks
      · rw [and_iff_right hspared, ← ih h.failed fun v => ?_]
        · exact hcongr.symm
        · by_cases hv : v = vault
          · subst hv
            exact hspared.imp Or.inl (indexed_tried_iff h.pids).mpr
          · refine (hall v).imp (Or.imp_right fun hq => ?_) (indexed_tried_iff h.pids).mpr
            exact (List.mem_cons.mp hq).resolve_left hv
      · -- the change is lost: nothing is left to do for the vault
        refine ⟨fun hcareful => absurd hcareful.1 hspared, fun hsurvives => absurd ?_ hspared⟩
        obtain ⟨hd, hq, ha, hi⟩ := h.failed.not_mem_drainQueue starts (List.nodup_cons.mp h.nodup).1
        by_cases hwaits : vault ∈ w.debounce
        · exact Or.inl hwaits
        · refine Or.inr ((indexed_tried_iff h.pids).mp (hi.mp (hsurvives vault ?_ ha)))
          rintro (hmem | hmem)
          · rw [hd] at hmem
            exact hwaits hmem
          · exact hq hmem

/-! ### The callbacks -/

/-- A vault that does not wait, and is not being indexed. -/
theorem Good.waits_or_indexed (h : Good w) (hw : Survives w) (hidle : w.indexing = false)
    (v : Text) :
    Waits w w.queue v ∨ Indexed v w.marks := by
  by_cases hwaits : Waits w w.queue v
  · exact Or.inl hwaits
  · refine Or.inr (hw v hwaits fun run hrun => ?_)
    rcases h.single with ⟨-, hnone, -⟩ | ⟨hbusy, -⟩
    · rw [hnone] at hrun
      cases hrun
    · rw [hidle] at hbusy
      cases hbusy

theorem Survives.scheduleIndex (h : Survives w) (cause : Cause) (vault : Text) :
    Survives (State.scheduleIndex cause vault w) := by
  intro v hwaits hrun
  have hne : v ≠ vault := fun he => hwaits (Or.inl (mem_add.mpr (Or.inr he)))
  refine (h v (fun hw => hwaits (hw.imp_left fun hd => mem_add.mpr (Or.inl hd))) hrun).cons ?_
  rw [Mark.Polls, Mark.scheduled.injEq]
  exact fun he => hne he.1.symm

theorem Survives.reconcile (h : Survives w) (world : World) (attaches : Text → Bool) :
    Survives (State.reconcile world attaches w) := by
  refine reconcile_rule (fun w vault h => ?_) h
  obtain ⟨watched, lastSeen, hlook | hlook⟩ := look_cases world attaches w vault
  · rw [hlook]
    exact h
  · rw [hlook]
    exact Survives.scheduleIndex (fun v hv hrun => h v hv hrun) .poll vault

theorem Survives.embeds_only (h : Survives w) (hw : EmbedsOnly w w') : Survives w' := by
  intro v hwaits hrun
  rw [Waits, hw.debounce, hw.queue] at hwaits
  rw [hw.awaited] at hrun
  rcases hw.marks with hm | hm
  · rw [hm]
    exact h v hwaits hrun
  · rw [hm]
    exact (h v hwaits hrun).cons (by simp [Mark.Polls])

theorem survives_debounceFires (h : Good w) (hw : Survives w) (hmem : vault ∈ w.debounce) :
    Careful w (.debounceFires vault starts) ↔
        Survives (enqueue starts vault { w with debounce := w.debounce.erase vault }) := by
  rw [Careful, enqueue, drain]
  rcases Bool.eq_false_or_eq_true w.indexing with hi | hi
  · rw [if_pos hi]
    refine ⟨fun _ v hv hrun => hw v (fun hwaits => hv (hwaits.debounceFires vault)) hrun,
      fun _ _ hidle => ?_⟩
    rw [hi] at hidle
    cases hidle
  · rw [if_neg (by simp [hi]), ← (h.ready_debounceFires hi vault).survives_iff fun v =>
      (h.waits_or_indexed hw hi v).imp_left fun hv => hv.debounceFires vault]
    have hcongr := drainCareful_congr starts (add w.queue vault)
      { w with debounce := w.debounce.erase vault }
        { w with debounce := w.debounce.erase vault, queue := add w.queue vault }
      rfl (fun _ => Iff.rfl) w.spawned
    exact ⟨fun hc => hcongr.mpr (hc hmem hi), fun hd _ _ => hcongr.mp hd⟩

/-- What the end of a process says of a vault. -/
theorem indexed_afterIndex_iff {run : IndexRun} {ending : Ending}
    (h : v ≠ run.vault ∨ ending ≠ .exits 0) :
    Indexed v (afterIndex run ending w).marks ↔ Indexed v w.marks := by
  cases ending with
  | throws => exact Iff.rfl
  | exits code =>
    refine indexed_cons_iff (by simp [Mark.Polls]) (by simp [Mark.Tries]) fun pid he => ?_
    cases he
    exact h.elim (fun hv => hv rfl) (fun hne => hne rfl)

theorem survives_indexEnds (h : Good w) (hw : Survives w) {i : ℕ} {run : IndexRun}
    (hi : w.awaited[i]? = some run) (ending : Ending) :
    Careful w (.indexEnds i ending starts) ↔
      Survives (drain starts { afterIndex run ending { w with awaited := w.awaited.eraseIdx i } with
          indexing := false }) := by
  obtain ⟨-, hrun, -, hwaits⟩ := h.awaited_get hi
  have hready := h.indexEnds (h.pids.awaited run (List.mem_of_getElem? hi)) ending
  have hcongr := drainCareful_congr starts w.queue (afterIndex run ending w) (ended run ending w)
    (by cases ending <;> rfl) (fun v => by rw [marks_ended]) w.spawned
  have hcareful : Careful w (.indexEnds i ending starts) ↔
      (ending = .exits 0 ∨ Waits w w.queue run.vault ∨ Indexed run.vault w.marks) ∧
        DrainCareful starts (ended run ending w) w.queue w.spawned := by
    rw [Careful, hi, hcongr]
    simp
  have hwaits' : ∀ v, Waits (ended run ending w) w.queue v ↔ Waits w w.queue v := fun v => by
    rw [Waits, debounce_ended, Waits]
  have hother : ∀ v, v ≠ run.vault → Waits w w.queue v ∨ Indexed v w.marks := fun v hv => by
    by_cases hwv : Waits w w.queue v
    · exact Or.inl hwv
    · refine Or.inr (hw v hwv ?_)
      rw [hrun, List.forall_mem_singleton]
      exact fun he => hv he.symm
  rw [hcareful, h.drain_indexEnds hi]
  by_cases hspared : ending = .exits 0 ∨ Waits w w.queue run.vault ∨ Indexed run.vault w.marks
  · rw [and_iff_right hspared, ← spawned_ended run ending w]
    refine hready.survives_iff fun v => ?_
    rw [hwaits', marks_ended]
    by_cases hv : v = run.vault
    · subst hv
      rcases hspared with rfl | hwv | hix
      · -- the process was started after the poll last scheduled the vault, or the vault waits
        refine hwaits.imp_right fun htried _ => ⟨run.pid, ?_, List.mem_cons_self ..⟩
        show _ ∈ since _ (_ :: _)
        rw [since_cons_of_not (by simp [Mark.Polls])]
        exact List.mem_cons_of_mem _ htried
      · exact Or.inl hwv
      · refine Or.inr ?_
        cases ending with
        | throws => exact hix
        | exits code => exact hix.cons (by simp [Mark.Polls])
    · exact (hother v hv).imp_right (indexed_afterIndex_iff (Or.inl hv)).mpr
  · -- nothing is left to do for the vault
    refine ⟨fun hc => absurd hc.1 hspared, fun hsurvives => absurd ?_ hspared⟩
    have hq : run.vault ∉ w.queue := fun hq => hspared (Or.inr (Or.inl (Or.inr hq)))
    obtain ⟨hd, hq, ha, hix⟩ := hready.not_mem_drainQueue starts hq
    have hne : ending ≠ .exits 0 := fun he => hspared (Or.inl he)
    rw [marks_ended, indexed_afterIndex_iff (Or.inr hne)] at hix
    refine Or.inr (Or.inr (hix.mp (hsurvives run.vault ?_ ha)))
    rintro (hmem | hmem)
    · rw [hd, debounce_ended] at hmem
      exact hspared (Or.inr (Or.inl (Or.inl hmem)))
    · exact hq hmem

/-- **A callback** is survived exactly if it is careful. -/
theorem careful_iff (hgood : Good w) (hw : Survives w) (e : Event) :
    Careful w e ↔ ∀ w', callback w e = some w' → Survives w' := by
  have hiff : ∀ {w₁}, callback w e = some w₁ → (Careful w e ↔ Survives w₁) →
      (Careful w e ↔ ∀ w', callback w e = some w' → Survives w') := by
    intro w₁ hstep hc
    rw [hc]
    refine ⟨fun hs w' h' => ?_, fun hall => hall w₁ hstep⟩
    rw [hstep, Option.some.injEq] at h'
    exact h' ▸ hs
  have hnone : callback w e = none → Careful w e →
      (Careful w e ↔ ∀ w', callback w e = some w' → Survives w') := by
    intro hstep hc
    refine ⟨fun _ w' h' => ?_, fun _ => hc⟩
    rw [hstep] at h'
    cases h'
  cases e with
  | changed vault file =>
    by_cases hv : vault ∈ w.watched
    · refine hiff (if_pos hv) (iff_of_true trivial ?_)
      split_ifs
      · exact hw.scheduleIndex .event vault
      · exact hw
    · exact hnone (if_neg hv) trivial
  | poll world attaches => exact hiff rfl (iff_of_true trivial (hw.reconcile world attaches))
  | debounceFires vault starts =>
    by_cases hv : vault ∈ w.debounce
    · exact hiff (if_pos hv) (survives_debounceFires hgood hw hv)
    · exact hnone (if_neg hv) fun hmem => absurd hmem hv
  | indexEnds i ending starts =>
    cases hi : w.awaited[i]? with
    | none => exact hnone (by rw [callback, hi]; rfl) fun run hrun => by rw [hi] at hrun; cases hrun
    | some run => exact hiff (by rw [callback, hi]; rfl) (survives_indexEnds hgood hw hi ending)
  | embedFires starts =>
    by_cases ht : w.embedTimer = true
    · exact hiff (if_pos ht) (iff_of_true trivial (hw.embeds_only (embedsOnly_runEmbed w starts)))
    · exact hnone (if_neg ht) trivial
  | embedEnds =>
    by_cases hpos : 0 < w.embedAwaited
    · exact hiff (if_pos hpos) (iff_of_true trivial (hw.embeds_only (embedsOnly_endEmbed w _)))
    · exact hnone (if_neg hpos) trivial

/-! ### Every run -/

theorem survives_started (world : World) (attaches : Text → Bool) :
    Survives (started world attaches) := by
  refine Survives.reconcile (fun v _ _ hp => ?_) world attaches
  obtain ⟨m, hm, -⟩ := hp
  cases hm

/-- **A detected change survives** in every state of a run if and only if all its callbacks are
careful. -/
theorem change_survives_iff (world : World) (attaches : Text → Bool) (tr : List Event) :
    loop.Along Careful (started world attaches) tr ↔
        loop.Always Survives (started world attaches) tr :=
  Machine.along_iff (fun _ e hgood hw => careful_iff hgood hw e)
    (fun _ _ _ hgood _ hstep _ => hgood.callback hstep)
    (good_started world attaches) (survives_started world attaches)

/-- The poll schedules the sample's vault, the index process cannot be started, and the change is
taken for indexed. -/
theorem not_survives_spawn : ¬ ∀ w, Reached w → Survives w := by
  intro h
  have hlost := h (sampleEnd false) ⟨sampleWorld 1, fun _ => true, sampleEvents false,
    sampleEnd_run false⟩ sampleVault
    (by simp [Waits, sampleEnd]) (by simp [sampleEnd])
      ⟨.scheduled sampleVault .poll, by decide, rfl⟩
  obtain ⟨pid, -, hexited⟩ := hlost
  simp [sampleEnd] at hexited

end OracleSkills.Watcher
