import OracleSkills.Concurrency.Ranking
import OracleSkills.Watcher.Wakeups

/-!
# The watcher settles

The callbacks of the watcher call for each other: a debounce timer queues a vault, the end of one
index process starts another and sets the timer of the embed pass, and a pass that ends may set this
timer again, since changes have arrived "mid-embed". If no memory changes any more, this comes to an
end, whatever the processes do and in whatever order they end (`settles`). `work` counts what is
still to come. When nothing is left, each vault has had an index process tried since it was last
scheduled, and the vector collection a pass since the last of these ended.
-/

namespace OracleSkills.Watcher

open Python Concurrency State

/-- An event that no change of a file causes: the end of a timer or of a process. -/
def Event.Quiet : Event → Prop
  | .changed .. => False
  | .poll .. => False
  | _ => True

/-- What is still to come. A vault in the queue costs more than one that is being indexed, since its
process starts; the end of a process may set the timer of the embed pass, and the end of a pass may
set it again. -/
def State.work (w : State) : ℕ :=
  6 * w.debounce.length + 5 * w.queue.length + 4 * w.awaited.length + 3 * w.embedTimer.toNat +
    2 * w.embedPending.toNat +
    2 * w.embedAwaited

/-- Nothing waits, nothing runs, and nothing has been forgotten. -/
structure Settled (w : State) : Prop where
  debounce : w.debounce = []
  queue : w.queue = []
  indexing : w.indexing = false
  embedTimer : w.embedTimer = false
  embedding : w.embedding = false
  woken : ∀ vault, Woken vault w.marks
  embedded : Embedded w.marks

variable {w w' : State} {queue : List Text} {vault : Text} {starts : ℕ → Bool} {e : Event}

/-! ### What each function costs -/

theorem work_drainQueue (starts : ℕ → Bool) (queue : List Text) (w : State) :
    (drainQueue starts queue w).work ≤ { w with queue := queue }.work := by
  refine drainQueue_rule
    (P := fun q v => { v with queue := q }.work ≤ { w with queue := queue }.work)
    (Q := fun v => v.work ≤ { w with queue := queue }.work) (fun vault q v h _ => ?_)
      (fun vault q v h _ => ?_) (fun v h => h) le_rfl
  · simp only [work, attempt, List.length_cons] at h ⊢
    omega
  · simp only [work, attempt, List.length_cons, List.length_append, List.length_nil] at h ⊢
    omega

theorem work_drain (starts : ℕ → Bool) (w : State) : (drain starts w).work ≤ w.work := by
  rw [drain]
  split_ifs
  · exact le_rfl
  · exact work_drainQueue starts w.queue w

theorem length_add_le (queue : List Text) (vault : Text) :
    (add queue vault).length ≤ queue.length + 1 := by
  rw [add]
  split_ifs
  · omega
  · simp

theorem work_debounceFires (h : vault ∈ w.debounce) (starts : ℕ → Bool) :
    (enqueue starts vault { w with debounce := w.debounce.erase vault }).work < w.work := by
  have hdrain :=
    work_drain starts { w with debounce := w.debounce.erase vault, queue := add w.queue vault }
  have hqueue := length_add_le w.queue vault
  have herase := List.length_erase_of_mem h
  have hpos := List.length_pos_of_mem h
  rw [enqueue]
  simp only [work] at hdrain ⊢
  omega

theorem work_afterIndex (run : IndexRun) (ending : Ending) (w : State) :
    (afterIndex run ending w).work ≤ w.work + 3 := by
  cases ending with
  | throws => exact Nat.le_add_right ..
  | exits code =>
    simp only [afterIndex, scheduleEmbed, work, Bool.toNat_true]
    omega

theorem work_indexEnds {i : ℕ} {run : IndexRun} (h : w.awaited[i]? = some run) (ending : Ending)
    (starts : ℕ → Bool) :
    (drain starts { afterIndex run ending { w with awaited := w.awaited.eraseIdx i } with
        indexing := false }).work < w.work := by
  have hdrain :=
    work_drain starts
      { afterIndex run ending { w with awaited := w.awaited.eraseIdx i } with indexing := false }
  have hafter := work_afterIndex run ending { w with awaited := w.awaited.eraseIdx i }
  have hlt : i < w.awaited.length := (List.getElem?_eq_some_iff.mp h).1
  have herase := List.length_eraseIdx_of_lt hlt
  simp only [work] at hdrain hafter ⊢
  omega

theorem work_endEmbed (w : State) : (endEmbed w).work ≤ w.work + 1 := by
  cases hp : w.embedPending with
  | true =>
    rw [endEmbed_of_pending hp]
    simp only [work, hp, Bool.toNat_true, Bool.toNat_false]
    omega
  | false =>
    rw [endEmbed_of_not_pending hp]
    simp only [work]
    omega

theorem work_embedFires (h : Good w) (htimer : w.embedTimer = true) (starts : Bool) :
    (runEmbed starts { w with embedTimer := false }).work < w.work := by
  have hle := Bool.toNat_le w.embedPending
  by_cases he : w.embedding = true
  · have hrun : runEmbed starts { w with embedTimer := false } =
        { w with embedTimer := false, embedPending := true } :=
      runEmbed_of_embedding he
    rw [hrun]
    simp only [work, htimer, Bool.toNat_true, Bool.toNat_false]
    omega
  · rw [Bool.not_eq_true] at he
    have hpending : w.embedPending = false := by
      by_contra hp
      have htrue := h.embeds.pending (by simpa using hp)
      rw [he] at htrue
      cases htrue
    unfold runEmbed endEmbed
    simp only [he, hpending, Bool.false_eq_true, ↓reduceIte]
    split_ifs
    all_goals
      simp only [work, htimer, hpending, Bool.toNat_true, Bool.toNat_false]
      omega

/-- **Every quiet callback** leaves less to come. -/
theorem work_callback (h : Good w) (he : e.Quiet) (hstep : callback w e = some w') :
    w'.work < w.work := by
  cases e with
  | changed vault file => cases he
  | poll world attaches => cases he
  | debounceFires vault starts =>
    simp only [callback] at hstep
    split_ifs at hstep with hmem
    cases hstep
    exact work_debounceFires hmem starts
  | indexEnds i ending starts =>
    obtain ⟨run, hi, rfl⟩ := Option.map_eq_some_iff.mp hstep
    exact work_indexEnds hi ending starts
  | embedFires starts =>
    simp only [callback] at hstep
    split_ifs at hstep with htimer
    cases hstep
    exact work_embedFires h htimer starts
  | embedEnds =>
    simp only [callback] at hstep
    split_ifs at hstep with hpos
    cases hstep
    have hend := work_endEmbed { w with embedAwaited := w.embedAwaited - 1 }
    simp only [work] at hend ⊢
    omega

/-! ### Where nothing is left -/

/-- **Nothing is left** where no quiet callback can be called. -/
theorem settled_of_stuck (h : Good w) (hstuck : loop.Stuck Event.Quiet w) : Settled w := by
  have hdebounce : w.debounce = [] := by
    cases hd : w.debounce with
    | nil => rfl
    | cons vault rest =>
      have hnone : callback w (.debounceFires vault fun _ => true) = none :=
        hstuck (.debounceFires ..) trivial
      simp [callback, hd] at hnone
  have hawaited : w.awaited = [] := by
    cases ha : w.awaited with
    | nil => rfl
    | cons run rest =>
      have hnone : callback w (.indexEnds 0 .throws fun _ => true) = none :=
        hstuck (.indexEnds ..) trivial
      simp [callback, ha] at hnone
  have htimer : w.embedTimer = false := by
    by_contra ht
    have hnone : callback w (.embedFires true) = none := hstuck (.embedFires ..) trivial
    simp [callback, ht] at hnone
  have hembeds : w.embedding = false := by
    by_contra he
    have hone := h.embeds.awaited
    rw [if_pos (by simpa using he)] at hone
    have hnone : callback w .embedEnds = none := hstuck .embedEnds trivial
    simp [callback, hone] at hnone
  obtain ⟨hidle, -, hqueue⟩ | ⟨-, run, hrun, -⟩ := h.single
  · refine ⟨hdebounce, hqueue, hidle, htimer, hembeds, fun vault => ?_, ?_⟩
    · refine (h.wakes vault).resolve_left ?_
      rw [Waits, hdebounce, hqueue]
      simp
    · rcases h.embeds.wakes with ht | hp | hans
      · rw [htimer] at ht
        cases ht
      · rw [h.embeds.pending hp] at hembeds
        cases hembeds
      · exact hans
  · rw [hawaited] at hrun
    cases hrun

/-- **The watcher settles**: from any state that it reaches, a run without changes and polls is no
longer than what is still to come, whatever the processes do, and if it cannot go on then the
watcher is settled; and there is such a run. -/
theorem settles (h : Reached w) :
    (∀ tr w', (∀ e ∈ tr, e.Quiet) → loop.run w tr = some w' →
      tr.length ≤ w.work ∧ ((∀ e : Event, e.Quiet → callback w' e = none) → Settled w')) ∧
      ∃ tr w', (∀ e ∈ tr, e.Quiet) ∧ loop.run w tr = some w' ∧ Settled w' := by
  have hstep : ∀ s e s', Good s → e.Quiet → loop.step s e = some s' → Good s' ∧ s'.work < s.work :=
    fun s e s' hs he hse => ⟨hs.callback hse, work_callback hs he hse⟩
  constructor
  · intro tr w' htr hrun
    have hlength := Machine.length_add_le hstep h.good htr hrun
    have hgood : Good w' :=
      Machine.run_invariant (fun _ _ _ hs hse => Good.callback hs hse) h.good hrun
    exact ⟨by omega, settled_of_stuck hgood⟩
  · obtain ⟨tr, w', htr, hrun, hgood, hstuck⟩ := Machine.exists_stuck hstep h.good
    exact ⟨tr, w', htr, hrun, settled_of_stuck hgood hstuck⟩

/-- One vault is being indexed. -/
theorem settles_sample :
    ∃ tr w', (∀ e ∈ tr, e.Quiet) ∧ loop.run (sampleEnd true) tr = some w' ∧ Settled w' :=
  (settles ⟨sampleWorld 1, fun _ => true, sampleEvents true, sampleEnd_run true⟩).2

end OracleSkills.Watcher
