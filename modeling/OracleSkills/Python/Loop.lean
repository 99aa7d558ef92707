import Mathlib.Data.List.Nodup

/-!
# Loops that may raise

A `for` loop over a list, with a body that turns a state into the next one or raises. The
loop gives the last state, and whether it came to the end of the list. What every turn keeps
under a condition holds at the end of a loop all of whose turns meet it
(`forEach_invariant`); the condition and the invariant may also speak of the items that have
had their turn.
-/

namespace Python

universe u v

variable {σ : Type u} {ε : Type v} {body : σ → ε → Option σ} {s s' : σ} {x : ε} {pre xs ys : List ε}

/-- The state in which a loop ends, and whether it ends without an exception. -/
def forEach (body : σ → ε → Option σ) : List ε → σ → σ × Bool
  | [], s => (s, true)
  | x :: xs, s =>
    match body s x with
    | none => (s, false)
    | some s' => forEach body xs s'

@[simp] theorem forEach_nil : forEach body [] s = (s, true) := rfl

theorem forEach_cons_of_some (h : body s x = some s') :
    forEach body (x :: xs) s = forEach body xs s' := by
  rw [forEach, h]

theorem forEach_cons_of_none (h : body s x = none) : forEach body (x :: xs) s = (s, false) := by
  rw [forEach, h]

/-- Every turn that the loop takes meets `C`, which may speak of the items before it. -/
def Along (body : σ → ε → Option σ) (C : List ε → σ → ε → Prop) : List ε → List ε → σ → Prop
  | _, [], _ => True
  | pre, x :: xs, s => C pre s x ∧ ∀ s', body s x = some s' → Along body C (pre ++ [x]) xs s'

variable {C : List ε → σ → ε → Prop} {I : List ε → σ → Prop}

/-- **The invariant rule**: what every turn keeps holds where the loop ends, of the items that
have had their turn, which are all of them if nothing was raised. -/
theorem forEach_invariant
    (hstep : ∀ pre s x s', I pre s → C pre s x → body s x = some s' → I (pre ++ [x]) s')
    (hs : I pre s) (hC : Along body C pre xs s) :
    ∃ done rest, xs = done ++ rest ∧ I (pre ++ done) (forEach body xs s).1 ∧
        ((forEach body xs s).2 = true → rest = []) := by
  induction xs generalizing pre s with
  | nil => exact ⟨[], [], rfl, by simpa using hs, fun _ => rfl⟩
  | cons x xs ih =>
    obtain ⟨hx, hxs⟩ := hC
    cases hb : body s x with
    | none =>
      rw [forEach_cons_of_none hb]
      exact ⟨[], x :: xs, rfl, by simpa using hs, fun h => nomatch h⟩
    | some s' =>
      rw [forEach_cons_of_some hb]
      obtain ⟨done, rest, rfl, hI, hrest⟩ := ih (hstep pre s x s' hs hx hb) (hxs s' hb)
      exact ⟨x :: done, rest, rfl, by simpa using hI, hrest⟩

/-- A loop whose turns change nothing. -/
theorem forEach_fixed (h : ∀ x, body s x = some s) : forEach body xs s = (s, true) := by
  induction xs with
  | nil => rfl
  | cons x xs ih => rw [forEach_cons_of_some (h x), ih]

/-- If nothing was raised, all the items have had their turn. -/
theorem forEach_invariant_of_ends
    (hstep : ∀ pre s x s', I pre s → C pre s x → body s x = some s' → I (pre ++ [x]) s')
    (hs : I pre s) (hC : Along body C pre xs s) (hends : (forEach body xs s).2 = true) :
    I (pre ++ xs) (forEach body xs s).1 := by
  obtain ⟨done, rest, hxs, hI, hrest⟩ := forEach_invariant hstep hs hC
  rw [hrest hends, List.append_nil] at hxs
  rwa [← hxs] at hI

/-- A loop whose turns never raise comes to its end. -/
theorem forEach_ends
    (hstep : ∀ pre s x, I pre s → C pre s x → ∃ s', body s x = some s' ∧ I (pre ++ [x]) s')
    (hs : I pre s) (hC : Along body C pre xs s) :
    (forEach body xs s).2 = true ∧ I (pre ++ xs) (forEach body xs s).1 := by
  induction xs generalizing pre s with
  | nil => exact ⟨rfl, by simpa using hs⟩
  | cons x xs ih =>
    obtain ⟨hx, hxs⟩ := hC
    obtain ⟨s', hb, hI⟩ := hstep pre s x hs hx
    rw [forEach_cons_of_some hb]
    obtain ⟨hend, hI'⟩ := ih hI (hxs s' hb)
    exact ⟨hend, by simpa using hI'⟩

/-- The state in which a loop ends is the one after the items that have had their turn. -/
theorem exists_forEach (body : σ → ε → Option σ) (xs : List ε) (s : σ) :
    ∃ done rest, xs = done ++ rest ∧ forEach body done s = ((forEach body xs s).1, true) := by
  induction xs generalizing s with
  | nil => exact ⟨[], [], rfl, rfl⟩
  | cons x xs ih =>
    cases hb : body s x with
    | none => exact ⟨[], x :: xs, rfl, by rw [forEach_cons_of_none hb, forEach_nil]⟩
    | some s' =>
      obtain ⟨done, rest, hxs, hdone⟩ := ih s'
      refine ⟨x :: done, rest, by rw [hxs, List.cons_append], ?_⟩
      rw [forEach_cons_of_some hb, forEach_cons_of_some hb, hdone]

/-- The loop reaches the state `t` after the items `done`. -/
def Reaches (body : σ → ε → Option σ) (xs : List ε) (s : σ) (done : List ε) (t : σ) : Prop :=
  ∃ rest, xs = done ++ rest ∧ forEach body done s = (t, true)

/-- **Enough for every state**: if the turns that meet `C` keep `I`, it holds in every state that is
reached. -/
theorem Along.reaches
    (hstep : ∀ pre s s', ∀ x ∈ xs, I pre s → C pre s x → body s x = some s' → I (pre ++ [x]) s')
    (hs : I pre s) (hC : Along body C pre xs s) :
    ∀ done t, Reaches body xs s done t → I (pre ++ done) t := by
  induction xs generalizing pre s with
  | nil =>
    rintro done t ⟨rest, hxs, ht⟩
    obtain ⟨rfl, rfl⟩ := List.append_eq_nil_iff.mp hxs.symm
    cases ht
    simpa using hs
  | cons x xs ih =>
    obtain ⟨hx, hxs⟩ := hC
    rintro done t ⟨rest, heq, ht⟩
    cases done with
    | nil =>
      cases ht
      simpa using hs
    | cons y done =>
      rw [List.cons_append, List.cons.injEq] at heq
      obtain ⟨rfl, hrest⟩ := heq
      cases hb : body s x with
      | none =>
        rw [forEach_cons_of_none hb] at ht
        cases ht
      | some s' =>
        rw [forEach_cons_of_some hb] at ht
        have hmem : ∀ y ∈ xs, y ∈ x :: xs := fun y hy => List.mem_cons_of_mem _ hy
        have hI := ih (fun pre s s' y hy => hstep pre s s' y (hmem y hy))
          (hstep pre s s' x (List.mem_cons_self ..) hs hx hb) (hxs s' hb) done t ⟨rest, hrest, ht⟩
        simpa using hI

/-- **No more than needed**: if a turn that keeps `I` meets `C`, the turns do whose states all
satisfy `I`. -/
theorem along_of_reaches
    (hstep : ∀ pre s, ∀ x ∈ xs, I pre s → (∀ s', body s x = some s' → I (pre ++ [x]) s') →
      C pre s x) (hs : I pre s)
    (hI : ∀ done t, Reaches body xs s done t → I (pre ++ done) t) : Along body C pre xs s := by
  induction xs generalizing pre s with
  | nil => trivial
  | cons x xs ih =>
    have hnext : ∀ s', body s x = some s' → I (pre ++ [x]) s' := fun s' hb =>
      hI [x] s' ⟨xs, rfl, by rw [forEach_cons_of_some hb, forEach_nil]⟩
    have hmem : ∀ y ∈ xs, y ∈ x :: xs := fun y hy => List.mem_cons_of_mem _ hy
    refine ⟨hstep pre s x (List.mem_cons_self ..) hs hnext, fun s' hb => ?_⟩
    refine ih (fun pre s y hy => hstep pre s y (hmem y hy)) (hnext s' hb) ?_
    rintro done t ⟨rest, hxs, ht⟩
    have hI' := hI (x :: done) t
      ⟨rest, by rw [hxs, List.cons_append], by rw [forEach_cons_of_some hb, ht]⟩
    simpa using hI'

/-- **The exact condition**: if `C` says of each turn just that it keeps `I`, then all turns meet
`C` exactly if every state that is reached satisfies `I`. -/
theorem along_iff
    (hstep : ∀ pre s x, I pre s → (C pre s x ↔ ∀ s', body s x = some s' → I (pre ++ [x]) s'))
    (hs : I pre s) :
    Along body C pre xs s ↔ ∀ done t, Reaches body xs s done t → I (pre ++ done) t :=
  ⟨Along.reaches (fun pre s s' x _ h hC => (hstep pre s x h).mp hC s') hs,
    along_of_reaches (fun pre s x _ h hI => (hstep pre s x h).mpr hI) hs⟩

/-- A turn of the list meets the condition in the state that the turns before it lead to. -/
theorem Along.at {t : σ} (h : Along body C pre (xs ++ x :: ys) s)
    (hxs : forEach body xs s = (t, true)) : C (pre ++ xs) t x := by
  induction xs generalizing pre s with
  | nil =>
    cases hxs
    simpa using h.1
  | cons y xs ih =>
    cases hb : body s y with
    | none =>
      rw [forEach_cons_of_none hb] at hxs
      cases hxs
    | some s' =>
      rw [forEach_cons_of_some hb] at hxs
      simpa using ih (h.2 s' hb) hxs

theorem Along.of_append (h : Along body C pre (xs ++ ys) s) : Along body C pre xs s := by
  induction xs generalizing pre s with
  | nil => trivial
  | cons x xs ih => exact ⟨h.1, fun s' hb => ih (h.2 s' hb)⟩

/-- A condition may be put in place of one that follows from it on the items of the list. -/
theorem Along.imp_mem {D : List ε → σ → ε → Prop} (h : Along body C pre xs s)
    (hD : ∀ pre s, ∀ x ∈ xs, C pre s x → D pre s x) : Along body D pre xs s := by
  induction xs generalizing pre s with
  | nil => trivial
  | cons x xs ih =>
    exact ⟨hD _ _ x (List.mem_cons_self ..) h.1, fun s' hb =>
      ih (h.2 s' hb) fun pre s y hy => hD pre s y (List.mem_cons_of_mem _ hy)⟩

theorem Along.and {D : List ε → σ → ε → Prop} (h : Along body C pre xs s)
    (h' : Along body D pre xs s) :
    Along body (fun pre s x => C pre s x ∧ D pre s x) pre xs s := by
  induction xs generalizing pre s with
  | nil => trivial
  | cons x xs ih => exact ⟨⟨h.1, h'.1⟩, fun s' hb => ih (h.2 s' hb) (h'.2 s' hb)⟩

theorem along_true : ∀ {pre xs : List ε} {s : σ}, Along body (fun _ _ _ => True) pre xs s
  | _, [], _ => trivial
  | _, _ :: _, _ => ⟨trivial, fun _ _ => along_true⟩

/-- Conditions that say the same of the turns that a loop takes to its end. -/
theorem along_congr_of_ends {D : List ε → σ → ε → Prop} (hends : (forEach body xs s).2 = true)
    (hiff : ∀ pre s s', ∀ x ∈ xs, body s x = some s' → (C pre s x ↔ D pre s x)) :
    Along body C pre xs s ↔ Along body D pre xs s := by
  induction xs generalizing pre s with
  | nil => exact Iff.rfl
  | cons x xs ih =>
    cases hb : body s x with
    | none =>
      rw [forEach_cons_of_none hb] at hends
      cases hends
    | some s' =>
      rw [forEach_cons_of_some hb] at hends
      refine and_congr (hiff pre s s' x (List.mem_cons_self ..) hb) (forall₂_congr fun t ht => ?_)
      cases hb.symm.trans ht
      exact ih hends fun pre s s' y hy => hiff pre s s' y (List.mem_cons_of_mem _ hy)

/-- **Two loops** go through the same states, the second to its end, exactly if their turns do the
same. -/
theorem reaches_iff_along {body' : σ → ε → Option σ} (hends : (forEach body xs s).2 = true) :
    (∀ done t, Reaches body' xs s done t ↔ Reaches body xs s done t) ↔
      Along body (fun _ s x => body' s x = body s x) pre xs s := by
  induction xs generalizing pre s with
  | nil =>
    refine ⟨fun _ => trivial, fun _ done t => exists_congr fun rest =>
      and_congr_right fun hxs => ?_⟩
    rw [(List.append_eq_nil_iff.mp hxs.symm).1, forEach_nil, forEach_nil]
  | cons x xs ih =>
    cases hb : body s x with
    | none =>
      rw [forEach_cons_of_none hb] at hends
      cases hends
    | some s' =>
      rw [forEach_cons_of_some hb] at hends
      -- a first turn that does the same leads to the rest of the loop
      have hcons : ∀ {b : σ → ε → Option σ}, b s x = some s' → ∀ done t,
          Reaches b (x :: xs) s (x :: done) t ↔ Reaches b xs s' done t := by
        intro b hbs done t
        simp only [Reaches, List.cons_append, List.cons.injEq, true_and, forEach_cons_of_some hbs]
      constructor
      · intro h
        have hfirst : body' s x = some s' := by
          obtain ⟨rest, -, hr⟩ :=
            (h [x] s').mpr ⟨xs, rfl, by rw [forEach_cons_of_some hb, forEach_nil]⟩
          cases hb' : body' s x with
          | none =>
            rw [forEach_cons_of_none hb'] at hr
            cases hr
          | some t =>
            rw [forEach_cons_of_some hb', forEach_nil] at hr
            cases hr
            rfl
        refine ⟨hfirst.trans hb.symm, fun t ht => ?_⟩
        cases hb.symm.trans ht
        exact (ih hends).mp fun done t => by rw [← hcons hfirst, ← hcons hb, h]
      · rintro ⟨hfirst, hrest⟩ done t
        have hfirst' : body' s x = some s' := hfirst.trans hb
        cases done with
        | nil => rfl
        | cons y done =>
          by_cases hy : y = x
          · subst hy
            rw [hcons hfirst', hcons hb]
            exact (ih hends).mpr (hrest s' hb) done t
          · refine iff_of_false ?_ ?_ <;>
            · rintro ⟨rest, hxs, -⟩
              exact hy (List.cons.inj hxs).1.symm

/-- In a list without duplicates no item has had its turn before. -/
theorem along_not_mem (h : (pre ++ xs).Nodup) : Along body (fun pre _ x => x ∉ pre) pre xs s := by
  induction xs generalizing pre s with
  | nil => trivial
  | cons x xs ih =>
    have happend : (pre ++ [x] ++ xs).Nodup := by simpa using h
    refine ⟨fun hx => ?_, fun s' _ => ih happend⟩
    exact List.disjoint_of_nodup_append h hx (List.mem_cons_self ..)

/-- Of items that differ in what `f` makes of them, none has been there before by that. -/
theorem along_map_not_mem {κ : Type*} (f : ε → κ) (h : ((pre ++ xs).map f).Nodup) :
    Along body (fun pre _ x => f x ∉ pre.map f) pre xs s := by
  induction xs generalizing pre s with
  | nil => trivial
  | cons x xs ih =>
    have happend : ((pre ++ [x] ++ xs).map f).Nodup := by simpa using h
    refine ⟨fun hx => ?_, fun s' _ => ih happend⟩
    rw [List.map_append] at h
    exact List.disjoint_of_nodup_append h hx (List.mem_cons_self ..)

end Python
