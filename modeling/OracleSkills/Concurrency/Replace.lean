import OracleSkills.Concurrency.Interleaving

/-!
# Read, compute, replace

A process reads a shared value, computes from it, with what it learns from outside, a
result, writes the result to a file of its own, and puts it in the place of the shared
value by one rename. The rename is atomic; the process as a whole is not.

`Inv` says what holds in every interleaving: the shared value is the first one or the
last one that was put there, and whatever a process read was one of these. Of two
processes there are two cases. If one of them reads after the other has renamed
(`ReadAfter`), it works on the other's result, and its own is the last
(`results_of_readAfter`). Otherwise both worked on the first value, and one of the
results is lost (`results_of_overlap`).
-/

namespace Concurrency

/-- What each process computes, and the value it puts in place. -/
structure Replacement (ι ν χ α : Type*) where
  /-- The result of process `i` from the value it read and the input `x` from outside,
  `none` where it gives up. -/
  compute : ι → ν → χ → Option α
  /-- The value that a result puts in place. -/
  put : α → ν

namespace Replacement

/-- How far a process is, with the value it read. -/
inductive Phase (ν α : Type*) where
  | start
  | loaded (v : ν)
  | ready (v : ν) (r : α)
  | written (v : ν) (r : α)
  | done (v : ν) (r : α)
  | failed

/-- A step of a process. It may fail at any time before it is done. -/
inductive Event (χ : Type*) where
  | read
  | compute (x : χ)
  | writeTemp
  | rename
  | fail

variable {ι ν χ α : Type*}

/-- The value a process read. -/
def Phase.base : Phase ν α → Option ν
  | .start => none
  | .loaded v => some v
  | .ready v _ => some v
  | .written v _ => some v
  | .done v _ => some v
  | .failed => none

/-- The process has a result. -/
def Phase.Has (v : ν) (r : α) : Phase ν α → Prop
  | .ready v' r' => v' = v ∧ r' = r
  | .written v' r' => v' = v ∧ r' = r
  | .done v' r' => v' = v ∧ r' = r
  | _ => False

variable (K : Replacement ι ν χ α)

/-- The steps. -/
def act (i : ι) : Event χ → ν → Phase ν α → Option (ν × Phase ν α)
  | .read, v, .start => some (v, .loaded v)
  | .compute x, v, .loaded u =>
    match K.compute i u x with
    | some r => some (v, .ready u r)
    | none => some (v, .failed)
  | .writeTemp, v, .ready u r => some (v, .written u r)
  | .rename, _, .written u r => some (K.put r, .done u r)
  | .fail, _, .done _ _ => none
  | .fail, _, .failed => none
  | .fail, v, _ => some (v, .failed)
  | _, _, _ => none

/-- The protocol of the processes. -/
def protocol : Protocol ι (Event χ) ν (Phase ν α) := ⟨K.act⟩

/-- No process has begun. -/
def init (v : ν) : Sys ι ν (Phase ν α) := ⟨v, fun _ => .start⟩

/-- What a step can do. -/
inductive Acts (i : ι) : Event χ → ν → Phase ν α → ν → Phase ν α → Prop where
  | read (v : ν) : Acts i .read v .start v (.loaded v)
  | compute (x : χ) (v u : ν) (r : α) (h : K.compute i u x = some r) : Acts i (.compute x) v
    (.loaded u) v (.ready u r)
  | writeTemp (v u : ν) (r : α) : Acts i .writeTemp v (.ready u r) v (.written u r)
  | rename (v u : ν) (r : α) : Acts i .rename v (.written u r) (K.put r) (.done u r)
  | giveUp (x : χ) (v u : ν) (h : K.compute i u x = none) : Acts i (.compute x) v
    (.loaded u) v .failed
  | fail (v : ν) (p : Phase ν α) (h : ∀ u r, p ≠ .done u r) : Acts i .fail v p v .failed

variable {K}

/-- **What a step can do**: the inversion of `act`. -/
theorem acts_of_act {i : ι} {e : Event χ} {v v' : ν} {p p' : Phase ν α}
    (h : K.act i e v p = some (v', p')) :
    K.Acts i e v p v' p' := by
  cases e with
  | read =>
    cases p with
    | start => cases h; exact Acts.read v
    | _ => cases h
  | compute x =>
    cases p with
    | loaded u =>
      simp only [act] at h
      cases hc : K.compute i u x with
      | none => rw [hc] at h; cases h; exact Acts.giveUp x v u hc
      | some r => rw [hc] at h; cases h; exact Acts.compute x v u r hc
    | _ => cases h
  | writeTemp =>
    cases p with
    | ready u r => cases h; exact Acts.writeTemp v u r
    | _ => cases h
  | rename =>
    cases p with
    | written u r => cases h; exact Acts.rename v u r
    | _ => cases h
  | fail =>
    cases p with
    | done u r => cases h
    | failed => cases h
    | _ => cases h; exact Acts.fail _ _ fun _ _ hp => nomatch hp

section

variable {i : ι} {e : Event χ} {d d' : ν} {p p' : Phase ν α}

/-- A process that is done does nothing more. -/
theorem Acts.not_done (h : K.Acts i e d p d' p') (v : ν) (r : α) : p ≠ .done v r := by
  cases h with
  | fail _ _ hne => exact hne v r
  | _ => exact fun hp => nomatch hp

/-- A result that is there was there, or has just been computed. -/
theorem Acts.has (h : K.Acts i e d p d' p') {v : ν} {r : α} (hp' : p'.Has v r) :
    p.Has v r ∨ ∃ x, K.compute i v x = some r := by
  cases h with
  | read => exact absurd hp' id
  | compute x _ u r' hc =>
    obtain ⟨rfl, rfl⟩ := hp'
    exact Or.inr ⟨x, hc⟩
  | writeTemp => exact Or.inl hp'
  | rename => exact Or.inl hp'
  | giveUp => exact absurd hp' id
  | fail => exact absurd hp' id

/-- A step leaves the shared value as it is, or puts its process's result there. -/
theorem Acts.shared (h : K.Acts i e d p d' p') :
    (d' = d ∧ ∀ v r, p' ≠ .done v r) ∨ ∃ v r, p' = .done v r ∧ d' = K.put r := by
  cases h with
  | rename _ u r => exact Or.inr ⟨u, r, rfl, rfl⟩
  | _ => exact Or.inl ⟨rfl, fun _ _ hp => nomatch hp⟩

/-- A value that was read was read before, or has just been read. -/
theorem Acts.base (h : K.Acts i e d p d' p') {v : ν} (hp' : p'.base = some v) :
    p.base = some v ∨ p = .start ∧ e = .read ∧ v = d := by
  cases h with
  | read =>
    cases hp'
    exact Or.inr ⟨rfl, rfl, rfl⟩
  | compute => exact Or.inl hp'
  | writeTemp => exact Or.inl hp'
  | rename => exact Or.inl hp'
  | giveUp => cases hp'
  | fail => cases hp'

/-- A read loads the shared value. -/
theorem Acts.read_eq (h : K.Acts i .read d p d' p') : p = .start ∧ p' = .loaded d ∧ d' = d := by
  cases h
  exact ⟨rfl, rfl, rfl⟩

/-- No step leads back to the start. -/
theorem Acts.ne_start (h : K.Acts i e d p d' p') : p' ≠ .start := by
  cases h <;> exact fun hp => nomatch hp

end

/-! ### What holds in every interleaving -/

/-- The invariant of all interleavings that begin with the shared value `v₀`. -/
structure Inv (K : Replacement ι ν χ α) (v₀ : ν) (s : Sys ι ν (Phase ν α)) : Prop where
  /-- A result is what the process computes from the value it read. -/
  computed : ∀ i v r, (s.loc i).Has v r → ∃ x, K.compute i v x = some r
  /-- The shared value is the first one, or was put there by a process that is done. -/
  shared : (s.shared = v₀ ∧ ∀ i v r, s.loc i ≠ .done v r) ∨ ∃ i v r, s.loc i = .done v r ∧
    s.shared = K.put r
  /-- What a process read was the first value, or had been put there by another. -/
  base : ∀ i v, (s.loc i).base = some v → v = v₀ ∨ ∃ j u r, j ≠ i ∧
    s.loc j = .done u r ∧ v = K.put r

theorem inv_init (v₀ : ν) : Inv K v₀ (init v₀) where
  computed _ _ _ h := absurd h id
  shared := Or.inl ⟨rfl, fun _ _ _ h => nomatch h⟩
  base _ _ h := nomatch h

variable [DecidableEq ι] {s s' : Sys ι ν (Phase ν α)} {i : ι} {e : Event χ}

theorem acts_of_step (h : K.protocol.step s i e = some s') :
    K.Acts i e s.shared (s.loc i) s'.shared (s'.loc i) :=
  acts_of_act (Protocol.act_of_step h)

/-- A process that is done stays as it is. -/
theorem done_step (h : K.protocol.step s i e = some s') {j : ι} {v : ν} {r : α}
    (hj : s.loc j = .done v r) :
    s'.loc j = .done v r := by
  by_cases hji : j = i
  · subst hji
    exact absurd hj ((acts_of_step h).not_done v r)
  · rw [Protocol.step_loc_of_ne h hji, hj]

theorem done_run {tr : List (ι × Event χ)} (h : K.protocol.run s tr = some s') {j : ι}
    {v : ν} {r : α} (hj : s.loc j = .done v r) : s'.loc j = .done v r :=
  Protocol.run_invariant (I := fun t => t.loc j = .done v r)
    (fun _ _ _ _ ht hstep => done_step hstep ht) hj h

/-- What is left to do for a process that has read. -/
def finish (i : ι) (x : χ) : List (ι × Event χ) := [(i, .compute x), (i, .writeTemp), (i, .rename)]

theorem run_finish {v : ν} {x : χ} {r : α} (hi : s.loc i = .loaded v)
    (hc : K.compute i v x = some r) :
    K.protocol.run s (finish i x) = some ⟨K.put r, Function.update s.loc i (.done v r)⟩ := by
  simp [finish, Protocol.run, Protocol.step, protocol, act, hi, hc]

/-- A process that has not begun reads, and then does the rest. -/
theorem run_read_finish {x : χ} {r : α} (hi : s.loc i = .start)
    (hc : K.compute i s.shared x = some r) :
    K.protocol.run s ((i, .read) :: finish i x) =
        some ⟨K.put r, Function.update s.loc i (.done s.shared r)⟩ := by
  simp [finish, Protocol.run, Protocol.step, protocol, act, hi, hc]

/-- Every step keeps the invariant. -/
theorem Inv.step {v₀ : ν} (hs : Inv K v₀ s) (h : K.protocol.step s i e = some s') :
    Inv K v₀ s' := by
  have hacts := acts_of_step h
  have hloc : ∀ j, j ≠ i → s'.loc j = s.loc j := fun j hj => Protocol.step_loc_of_ne h hj
  refine ⟨fun j v r hj => ?_, ?_, fun j v hj => ?_⟩
  · by_cases hji : j = i
    · subst hji
      exact (hacts.has hj).elim (hs.computed j v r) id
    · exact hs.computed j v r (hloc j hji ▸ hj)
  · rcases hacts.shared with ⟨hsh, hi⟩ | ⟨v, r, hi, hput⟩
    · rcases hs.shared with ⟨hv, hnone⟩ | ⟨j, v, r, hj, hv⟩
      · refine Or.inl ⟨hsh.trans hv, fun j v r => ?_⟩
        by_cases hji : j = i
        · exact hji ▸ hi v r
        · exact hloc j hji ▸ hnone j v r
      · exact Or.inr ⟨j, v, r, done_step h hj, hsh.trans hv⟩
    · exact Or.inr ⟨i, v, r, hi, hput⟩
  · have hold : (s.loc j).base = some v → v = v₀ ∨ ∃ k u r, k ≠ j ∧ s'.loc k = .done u r ∧
        v = K.put r := by
      intro hv
      rcases hs.base j v hv with hv₀ | ⟨k, u, r, hkj, hk, hput⟩
      · exact Or.inl hv₀
      · exact Or.inr ⟨k, u, r, hkj, done_step h hk, hput⟩
    by_cases hji : j = i
    · subst hji
      rcases hacts.base hj with hb | ⟨hstart, -, rfl⟩
      · exact hold hb
      · -- the value just read is the shared one
        rcases hs.shared with ⟨hv, -⟩ | ⟨k, u, r, hk, hv⟩
        · exact Or.inl hv
        · refine Or.inr ⟨k, u, r, ?_, done_step h hk, hv⟩
          rintro rfl
          rw [hstart] at hk
          cases hk
    · exact hold (hloc j hji ▸ hj)

theorem inv_run {v₀ : ν} {tr : List (ι × Event χ)} (h : K.protocol.run (init v₀) tr = some s) :
    Inv K v₀ s :=
  Protocol.run_invariant (fun _ _ _ _ hs hstep => hs.step hstep) (inv_init v₀) h

/-! ### Two processes -/

/-- In the run `tr` from `v₀`, process `q` reads when process `p` has renamed. -/
def ReadAfter (K : Replacement ι ν χ α) (v₀ : ν) (tr : List (ι × Event χ)) (q p : ι) : Prop :=
  ∃ pre post a, tr = pre ++ (q, .read) :: post ∧ K.protocol.run (init v₀) pre = some a ∧
    ∃ v r, a.loc p = .done v r

/-- Once a process has left the start, what it has read stays the same. -/
theorem base_run {tr : List (ι × Event χ)} {q : ι} (h : K.protocol.run s tr = some s')
    (hs : s.loc q ≠ .start) {v : ν} (hv : (s'.loc q).base = some v) : (s.loc q).base = some v := by
  have hinv : s'.loc q ≠ .start ∧ ∀ v, (s'.loc q).base = some v → (s.loc q).base = some v := by
    refine Protocol.run_invariant
      (I := fun t => t.loc q ≠ .start ∧ ∀ v, (t.loc q).base = some v → (s.loc q).base = some v)
      (fun t i e t' ht hstep => ?_) ⟨hs, fun _ hv => hv⟩ h
    by_cases hqi : q = i
    · subst hqi
      have hacts := acts_of_step hstep
      refine ⟨hacts.ne_start, fun v hv => ?_⟩
      rcases hacts.base hv with hb | ⟨hstart, -⟩
      · exact ht.2 v hb
      · exact absurd hstart ht.1
    · rwa [Protocol.step_loc_of_ne hstep hqi]
  exact hinv.2 v hv

/-- A process that has read a value did so at some point of the run. -/
theorem exists_read {tr : List (ι × Event χ)} {q : ι} {v : ν} (h : K.protocol.run s tr = some s')
    (hs : s.loc q = .start) (hq : (s'.loc q).base = some v) :
    ∃ pre post a, tr = pre ++ (q, .read) :: post ∧ K.protocol.run s pre = some a ∧
        a.loc q = .start ∧ a.shared = v := by
  induction tr generalizing s with
  | nil =>
    rw [Protocol.run_nil, Option.some.injEq] at h
    rw [← h, hs] at hq
    cases hq
  | cons x tr ih =>
    obtain ⟨i, e⟩ := x
    rw [Protocol.run_cons, Option.bind_eq_some_iff] at h
    obtain ⟨t, ht, h⟩ := h
    by_cases hstart : t.loc q = .start
    · obtain ⟨pre, post, a, rfl, ha, haq, hav⟩ := ih h hstart
      exact ⟨(i, e) :: pre, post, a,
        rfl, by rw [Protocol.run_cons, ht, Option.bind_some, ha], haq, hav⟩
    · -- the first step is the one that leaves the start
      obtain rfl : q = i := by
        by_contra hqi
        exact hstart ((Protocol.step_loc_of_ne ht hqi).trans hs)
      rcases (acts_of_step ht).base (base_run h hstart hq) with hb | ⟨-, rfl, hv⟩
      · rw [hs] at hb
        cases hb
      · exact ⟨[], tr, s, rfl, rfl, hs, hv.symm⟩

section

variable {v₀ : ν} {tr : List (ι × Event χ)} {p q : ι} {vp vq : ν} {rp rq : α}

/-- Once `p` is done, only `q` can put a value there. -/
theorem shared_of_last {a s : Sys ι ν (Phase ν α)} {v : ν} {r : α} (hall : ∀ i, i = p ∨ i = q)
    (h : K.protocol.run a tr = some s)
    (hp : a.loc p = .done v r) (hnot : ∀ u x, a.loc q ≠ .done u x)
    (hq : s.loc q = .done vq rq) : s.shared = K.put rq := by
  have hlast : s.loc p = .done v r ∧ ∀ u x, s.loc q = .done u x → s.shared = K.put x := by
    refine Protocol.run_invariant
      (I := fun t => t.loc p = .done v r ∧ ∀ u x, t.loc q = .done u x → t.shared = K.put x)
      (fun t i e t' ht hstep => ⟨done_step hstep ht.1, fun u x hx => ?_⟩) ⟨hp,
        fun u x hx => absurd hx (hnot u x)⟩ h
    have hacts := acts_of_step hstep
    have hip : i ≠ p := by
      rintro rfl
      exact hacts.not_done v r ht.1
    obtain rfl := (hall i).resolve_left hip
    rcases hacts.shared with ⟨-, hne⟩ | ⟨u', x', hx', hput⟩
    · exact absurd hx (hne u x)
    · rw [hx, Phase.done.injEq] at hx'
      rw [hput, hx'.2]
  exact hlast.2 vq rq hq

/-- One process after the other: the second works on the first one's result, and its own
result is what remains. -/
theorem results_of_readAfter (hall : ∀ i, i = p ∨ i = q) (h : K.protocol.run (init v₀) tr = some s)
    (hp : s.loc p = .done vp rp) (hq : s.loc q = .done vq rq) (hafter : ReadAfter K v₀ tr q p) :
    vp = v₀ ∧ vq = K.put rp ∧ s.shared = K.put rq := by
  obtain ⟨pre, post, a, rfl, ha, v, r, hap⟩ := hafter
  obtain ⟨a', b, ha', hab, hpost⟩ := Protocol.run_split h
  rw [ha, Option.some.injEq] at ha'
  subst ha'
  obtain ⟨haq, hbq, hbv⟩ := (acts_of_step hab).read_eq
  have hbp : b.loc p = .done v r := done_step hab hap
  obtain ⟨rfl, rfl⟩ : v = vp ∧ r = rp := by
    have hsp := done_run hpost hbp
    rw [hp, Phase.done.injEq] at hsp
    exact ⟨hsp.1.symm, hsp.2.symm⟩
  have hinv := inv_run ha
  -- up to the read, only `p` has put a value there
  have hother : ∀ j u x, a.loc j = .done u x → j = p ∧ u = v ∧ x = r := by
    intro j u x hj
    rcases hall j with rfl | rfl
    · rw [hap, Phase.done.injEq] at hj
      exact ⟨rfl, hj.1.symm, hj.2.symm⟩
    · rw [haq] at hj
      cases hj
  have hav : a.shared = K.put r := by
    rcases hinv.shared with ⟨-, hnone⟩ | ⟨j, u, x, hj, hput⟩
    · exact absurd hap (hnone p v r)
    · obtain ⟨-, -, rfl⟩ := hother j u x hj
      exact hput
  refine ⟨?_, ?_, ?_⟩
  · rcases hinv.base p v (by rw [hap]; rfl) with hv | ⟨j, u, x, hjp, hj, -⟩
    · exact hv
    · exact absurd (hother j u x hj).1 hjp
  · have hbase :=
      base_run (v := vq) hpost (by rw [hbq]; exact fun hx => nomatch hx) (by rw [hq]; rfl)
    rw [hbq, hav] at hbase
    exact (Option.some.inj hbase).symm
  · exact shared_of_last hall hpost hbp (fun u x hx => by rw [hbq] at hx; cases hx) hq

/-- If neither reads after the other has renamed, both worked on the first value, and one
result remains. -/
theorem results_of_overlap (hall : ∀ i, i = p ∨ i = q) (h : K.protocol.run (init v₀) tr = some s)
    (hp : s.loc p = .done vp rp) (hq : s.loc q = .done vq rq) (hqp : ¬ ReadAfter K v₀ tr q p)
    (hpq : ¬ ReadAfter K v₀ tr p q) :
    vp = v₀ ∧ vq = v₀ ∧ (s.shared = K.put rp ∨ s.shared = K.put rq) := by
  have hfirst : ∀ i j, (∀ k, k = i ∨ k = j) → ∀ u x, s.loc i = .done u x → ¬ ReadAfter K v₀ tr i j →
      u = v₀ := by
    intro i j hij u x hi hafter
    obtain ⟨pre, post, a, rfl, ha, hai, rfl⟩ := exists_read (v := u) h rfl (by rw [hi]; rfl)
    rcases (inv_run ha).shared with ⟨hv, -⟩ | ⟨k, w, y, hk, -⟩
    · exact hv
    · rcases hij k with rfl | rfl
      · rw [hai] at hk
        cases hk
      · exact absurd ⟨pre, post, a, rfl, ha, w, y, hk⟩ hafter
  refine ⟨hfirst p q hall vp rp hp hpq, hfirst q p (fun k => (hall k).symm) vq rq hq hqp, ?_⟩
  rcases (inv_run h).shared with ⟨-, hnone⟩ | ⟨k, w, y, hk, hput⟩
  · exact absurd hp (hnone p vp rp)
  · rcases hall k with rfl | rfl
    · rw [hp, Phase.done.injEq] at hk
      exact Or.inl (hk.2 ▸ hput)
    · rw [hq, Phase.done.injEq] at hk
      exact Or.inr (hk.2 ▸ hput)

end

end Replacement

end Concurrency
