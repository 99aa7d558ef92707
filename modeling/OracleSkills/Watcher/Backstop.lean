import OracleSkills.Watcher.Wakeups

/-!
# The poll backstop

The poll is there to catch "anything fs.watch missed (new date dirs, new vaults, platforms without
recursive watch)". It compares the latest modification time of a vault with the latest one that it
has seen, and takes the first sight of a vault for a baseline. So a file that is moved in with an
older time, or that is there when a vault appears, is missed.

`poll_catches_iff`: of two calls of `reconcile`, with no other between them, the second one
schedules every vault with a `.md` file that has been added or modified if and only if each of these
vaults had been seen, and has a `.md` file that is newer than what had been seen in it.
-/

namespace OracleSkills.Watcher

open Python Concurrency State

/-- The `.md` files of a vault. -/
def memories (world : World) (vault : Text) : List MdFile :=
  ((world.node (memoryDir vault)).map Node.mdFiles).getD []

/-- A `.md` file of the vault has been added or modified from one time to another. -/
def Changed (world₁ world₂ : World) (vault : Text) : Prop :=
  vault ∈ discoverVaults world₂ ∧ ∃ f ∈ memories world₂ vault, f ∉ memories world₁ vault

/-- The call of `reconcile` schedules the vault. -/
def Catches (world : World) (attaches : Text → Bool) (w : State) (vault : Text) : Prop :=
  ∃ marks, (reconcile world attaches w).marks = marks ++ w.marks ∧ .scheduled vault .poll ∈ marks

/-- The vault had been seen, and has a file that is newer than what had been seen in it. -/
def Newer (world : World) (w : State) (vault : Text) : Prop :=
  ∃ prev, w.lastSeen.get? vault = some prev ∧ ∃ f ∈ memories world vault, prev < f.mtimeMs

/-- No time that has been seen is before the epoch. -/
def SeenNonneg (w : State) : Prop := ∀ vault prev, w.lastSeen.get? vault = some prev → 0 ≤ prev

variable {w w' : State} {world : World} {attaches : Text → Bool} {vault v : Text}

/-! ### Looking at one vault -/

theorem mtime_nonneg (world : World) (vault : Text) : 0 ≤ mtime world vault := by
  rw [mtime]
  cases world.node (memoryDir vault) with
  | none => exact le_refl 0
  | some d => exact not_lt.mp fun h => absurd ((lt_maxMtimeMd_iff d (maxMtimeMd d)).mpr
    (Or.inl h)) (lt_irrefl _)

/-- The latest time of a vault is after one that is not before the epoch exactly if that of one of
its files is. -/
theorem lt_mtime_iff {prev : ℚ} (h : 0 ≤ prev) :
    prev < mtime world vault ↔ ∃ f ∈ memories world vault, prev < f.mtimeMs := by
  rw [mtime, memories]
  cases world.node (memoryDir vault) with
  | none => simpa using h
  | some d =>
    show prev < maxMtimeMd d ↔ _
    rw [lt_maxMtimeMd_iff, or_iff_right (not_lt.mpr h)]
    rfl

/-- The vault is scheduled if its latest time is after the one that was seen. -/
theorem look_marks (world : World) (attaches : Text → Bool) (w : State) (vault : Text) :
    (look world attaches w vault).marks =
      if (w.lastSeen.get? vault).any (· < mtime world vault) then
          .scheduled vault .poll :: w.marks else w.marks := by
  obtain ⟨watched, hw⟩ := attachWatch_eq attaches vault w
  unfold look
  simp only [hw]
  cases w.lastSeen.get? vault with
  | none => rfl
  | some prev =>
    simp only [Option.any_some, decide_eq_true_eq]
    split_ifs <;> rfl

/-- Looking at a vault leaves what has been seen of the others as it is. -/
theorem look_lastSeen_of_ne (h : v ≠ vault) :
    (look world attaches w vault).lastSeen.get? v = w.lastSeen.get? v := by
  obtain ⟨watched, hw⟩ := attachWatch_eq attaches vault w
  unfold look
  simp only [hw]
  cases hp : w.lastSeen.get? vault with
  | none => exact Dict.get?_set_of_ne _ h _
  | some prev =>
    simp only
    split_ifs
    · exact Dict.get?_set_of_ne _ h _
    · rfl

theorem SeenNonneg.look (h : SeenNonneg w) (world : World) (attaches : Text → Bool) (vault : Text) :
    SeenNonneg (look world attaches w vault) := by
  intro v prev hv
  obtain ⟨watched, hw⟩ := attachWatch_eq attaches vault w
  have hset : (w.lastSeen.set vault (mtime world vault)).get? v = some prev → 0 ≤ prev := by
    rw [Dict.get?_set]
    split_ifs
    · intro he
      cases he
      exact mtime_nonneg world vault
    · exact h v prev
  unfold State.look at hv
  simp only [hw] at hv
  cases hp : w.lastSeen.get? vault with
  | none =>
    rw [hp] at hv
    exact hset hv
  | some p =>
    rw [hp] at hv
    simp only at hv
    split_ifs at hv
    · exact hset hv
    · exact h v prev hv

/-! ### A call of `reconcile` -/

/-- What a call of `reconcile` adds to the marks: a vault is scheduled if its latest time is after
the one that was seen before the call. -/
theorem reconcile_marks (world : World) (attaches : Text → Bool) (w : State) :
    (reconcile world attaches w).marks =
      (((discoverVaults world).filter fun v => (w.lastSeen.get? v).any (· < mtime world v)).map
        (.scheduled · .poll)).reverse ++ w.marks := by
  have hfold : ∀ (vaults : List Text) (w : State), vaults.Nodup →
      (vaults.foldl (look world attaches) w).marks =
      ((vaults.filter fun v => (w.lastSeen.get? v).any (· < mtime world v)).map
          (.scheduled · .poll)).reverse ++ w.marks := by
    intro vaults
    induction vaults with
    | nil => exact fun _ _ => rfl
    | cons vault vaults ih =>
      intro w hnodup
      obtain ⟨hmem, hnodup⟩ := List.nodup_cons.mp hnodup
      have hsame : vaults.filter
          (fun v => ((look world attaches w vault).lastSeen.get? v).any (· < mtime world v)) =
          vaults.filter fun v => (w.lastSeen.get? v).any (· < mtime world v) := by
        refine List.filter_congr fun v hv => ?_
        rw [look_lastSeen_of_ne (show v ≠ vault from fun he => hmem (he ▸ hv))]
      rw [List.foldl_cons, ih _ hnodup, hsame, look_marks, List.filter_cons]
      split_ifs
      · rw [List.map_cons, List.reverse_cons, List.append_assoc]
        rfl
      · rfl
  exact hfold _ w (nodup_discoverVaults world)

/-- **A call of `reconcile`** schedules a vault exactly if it finds it with a file that is newer
than what had been seen in it. -/
theorem catches_iff (h : SeenNonneg w) :
    Catches world attaches w vault ↔ vault ∈ discoverVaults world ∧ Newer world w vault := by
  have hany : (w.lastSeen.get? vault).any (· < mtime world vault) = true ↔ Newer world w vault := by
    rw [Newer, Option.any_eq_true]
    refine exists_congr fun prev => and_congr_right fun hprev => ?_
    rw [decide_eq_true_eq, lt_mtime_iff (h vault prev hprev)]
  unfold Catches
  simp only [reconcile_marks, List.append_cancel_right_eq, exists_eq_left', List.mem_reverse,
    List.mem_map, List.mem_filter, Mark.scheduled.injEq, and_true, exists_eq_right]
  rw [hany]

/-! ### Two calls in a row -/

/-- A callback that is no poll. -/
def Event.NoPoll : Event → Prop
  | .poll .. => False
  | _ => True

/-- Only a poll changes what has been seen. -/
theorem lastSeen_callback {e : Event} (h : callback w e = some w') (he : e.NoPoll) :
    w'.lastSeen = w.lastSeen := by
  have hdrain : ∀ (starts : ℕ → Bool) (queue : List Text) (w : State),
      (drainQueue starts queue w).lastSeen = w.lastSeen :=
    fun starts queue w => drainQueue_rule (P := fun _ w' => w'.lastSeen = w.lastSeen)
      (Q := fun w' => w'.lastSeen = w.lastSeen)
      (fun _ _ _ h _ => h) (fun _ _ _ h _ => h) (fun _ h => h) rfl
  have hdrain' : ∀ (starts : ℕ → Bool) (w : State), (drain starts w).lastSeen = w.lastSeen := by
    intro starts w
    rw [drain]
    split_ifs
    · rfl
    · exact hdrain starts w.queue w
  have hend : ∀ w : State, (endEmbed w).lastSeen = w.lastSeen := by
    intro w
    unfold endEmbed
    dsimp only
    split_ifs <;> rfl
  cases e with
  | changed vault file =>
    simp only [callback] at h
    split_ifs at h <;> cases h <;> rfl
  | poll => exact absurd he id
  | debounceFires vault starts =>
    simp only [callback] at h
    split_ifs at h
    cases h
    rw [enqueue, hdrain']
  | indexEnds i ending starts =>
    obtain ⟨run, -, rfl⟩ := Option.map_eq_some_iff.mp h
    rw [hdrain']
    cases ending <;> rfl
  | embedFires starts =>
    simp only [callback] at h
    split_ifs at h
    cases h
    unfold runEmbed
    dsimp only
    split_ifs
    · rfl
    · rfl
    · rw [hend]
  | embedEnds =>
    simp only [callback] at h
    split_ifs at h
    cases h
    rw [hend]

theorem lastSeen_run {tr : List Event} (htr : ∀ e ∈ tr, e.NoPoll) (h : loop.run w tr = some w') :
    w'.lastSeen = w.lastSeen := by
  induction tr generalizing w with
  | nil =>
    rw [Machine.run_nil, Option.some.injEq] at h
    rw [h]
  | cons e tr ih =>
    obtain ⟨he, htr⟩ := List.forall_mem_cons.mp htr
    rw [Machine.run_cons, Option.bind_eq_some_iff] at h
    obtain ⟨w₁, hstep, h⟩ := h
    rw [ih htr h, lastSeen_callback hstep he]

theorem SeenNonneg.reconcile (h : SeenNonneg w) (world : World) (attaches : Text → Bool) :
    SeenNonneg (reconcile world attaches w) :=
      reconcile_rule (fun _ vault h => h.look world attaches vault) h

theorem seenNonneg_empty : SeenNonneg .empty := fun _ _ h => nomatch h

theorem SeenNonneg.callback {e : Event} (h : SeenNonneg w) (hstep : callback w e = some w') :
    SeenNonneg w' := by
  have hrest : e.NoPoll → SeenNonneg w' := by
    intro he v prev hv
    rw [lastSeen_callback hstep he] at hv
    exact h v prev hv
  cases e with
  | poll world attaches =>
    cases hstep
    exact h.reconcile world attaches
  | _ => exact hrest trivial

theorem Reached.seenNonneg (h : Reached w) : SeenNonneg w := by
  obtain ⟨world, attaches, tr, hrun⟩ := h
  exact Machine.run_invariant (fun _ _ _ h hstep => SeenNonneg.callback h hstep)
    (seenNonneg_empty.reconcile world attaches) hrun

/-- The first of two calls of `reconcile` that follow each other is the one with which the watcher
begins, or a poll; callbacks that are no polls lead to the second one. -/
structure Consecutive (world₁ : World) (attaches : Text → Bool) (w₁ w₂ : State) : Prop where
  first : ∃ w, (w = .empty ∨ Reached w) ∧ w₁ = reconcile world₁ attaches w
  between : ∃ tr, (∀ e ∈ tr, e.NoPoll) ∧ loop.run w₁ tr = some w₂

/-- **The poll catches every change** if and only if every vault with a changed file had been seen
by the calls before, and has a file that is newer than what they had seen in it. -/
theorem poll_catches_iff {world₁ : World} {attaches₁ : Text → Bool} {w₁ w₂ : State}
    (h : Consecutive world₁ attaches₁ w₁ w₂) (world₂ : World) (attaches₂ : Text → Bool) :
    (∀ vault, Changed world₁ world₂ vault → Catches world₂ attaches₂ w₂ vault) ↔
      ∀ vault, Changed world₁ world₂ vault → Newer world₂ w₁ vault := by
  obtain ⟨w, hw, rfl⟩ := h.first
  obtain ⟨tr, htr, hrun⟩ := h.between
  have hseen : w₂.lastSeen = (reconcile world₁ attaches₁ w).lastSeen := lastSeen_run htr hrun
  have hnonneg : SeenNonneg w₂ := by
    have h₁ : SeenNonneg w := hw.elim (fun he => he ▸ seenNonneg_empty) Reached.seenNonneg
    intro v prev hv
    rw [hseen] at hv
    exact h₁.reconcile world₁ attaches₁ v prev hv
  refine forall_congr' fun vault => imp_congr_right fun hchanged => ?_
  rw [catches_iff hnonneg, Newer, Newer, hseen]
  exact and_iff_right hchanged.1

/-! ### A sample -/

/-- A vault with memories of these names and times. -/
def vaultWorld (files : List (Text × ℚ)) : World where
  readdir base := if base = "/home/chillox-intern".toList then some ["vault".toList] else none
  node p := if p = memoryDir sampleVault then
    some (.dir (files.map fun f => (f.1, .file [] f.2))) else none

/-- Where the watcher begins. -/
def before : World := vaultWorld [("a.md".toList, 5)]

theorem consecutive_before :
    Consecutive before (fun _ => true) (started before fun _ => true)
    (started before fun _ => true) :=
  ⟨⟨_, Or.inl rfl, rfl⟩, [], fun _ h => absurd h List.not_mem_nil, rfl⟩

theorem poll_catches_sample :
    (∀ vault, Changed before (vaultWorld [("a.md".toList, 5), ("b.md".toList, 7)]) vault →
        Catches (vaultWorld [("a.md".toList, 5), ("b.md".toList, 7)]) (fun _ => true)
          (started before fun _ => true) vault) ↔
      ∀ vault, Changed before (vaultWorld [("a.md".toList, 5), ("b.md".toList, 7)]) vault →
        Newer (vaultWorld [("a.md".toList, 5), ("b.md".toList, 7)])
            (started before fun _ => true) vault :=
  poll_catches_iff consecutive_before _ _

/-- A memory that is moved in with an older time is missed. -/
theorem not_catches_moved :
    ¬ ∀ world₁ attaches₁ w₁ w₂ world₂ attaches₂, Consecutive world₁ attaches₁ w₁ w₂ →
      ∀ vault, Changed world₁ world₂ vault → Catches world₂ attaches₂ w₂ vault := by
  intro h
  have hchanged :
      Changed before (vaultWorld [("a.md".toList, 5), ("b.md".toList, 3)]) sampleVault :=
    ⟨by decide +kernel, ⟨["b.md".toList], [], 3⟩, by decide +kernel, by decide +kernel⟩
  obtain ⟨marks, hmarks, hmem⟩ := h before (fun _ => true) _ _
    (vaultWorld [("a.md".toList, 5), ("b.md".toList, 3)])
    (fun _ => true) consecutive_before sampleVault hchanged
  have hnone : (reconcile (vaultWorld [("a.md".toList, 5), ("b.md".toList, 3)]) (fun _ => true)
      (started before fun _ => true)).marks = [] := by decide +kernel
  rw [hnone] at hmarks
  obtain ⟨rfl, -⟩ := List.append_eq_nil_iff.mp hmarks.symm
  cases hmem

end OracleSkills.Watcher
