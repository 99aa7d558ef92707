import OracleSkills.Files.Tree

/-!
# Replacing a directory, file by file

To replace a directory is to unlink what is in it, one file after the other, and to write what is to
be there, one file after the other, each of which holds something else until it is written to its
end. A process may stop between any two of these steps, and leaves the tree as they have left it.

`run_unlinks` and `run_writes` say what is in the tree after any of them; `run_replacement`, that
after all of them it is the tree with the directory replaced (`replaceDir`).
-/

namespace Files

variable {ν α : Type*} [DecidableEq ν]

namespace Tree

/-- What a process does to one file. -/
inductive Op (ν α : Type*) where
  | unlink (p : Path ν)
  /-- The file holds this, from now on. -/
  | write (p : Path ν) (x : α)

/-- The tree without the file at `p`. -/
def unlink (t : Tree ν α) (p : Path ν) : Tree ν α :=
  t.select fun q x => if q = p then none else some x

/-- A file that is there is written over, and another one created. -/
def write (t : Tree ν α) (p : Path ν) (x : α) : Option (Tree ν α) :=
  if (t.get? p).isSome then some (t.edit p fun _ => x) else t.create p x

/-- One step. -/
def Op.apply (t : Tree ν α) : Op ν α → Option (Tree ν α)
  | .unlink p => some (t.unlink p)
  | .write p x => t.write p x

/-- The steps, in order. -/
def runOps (t : Tree ν α) : List (Op ν α) → Option (Tree ν α)
  | [] => some t
  | op :: ops => (op.apply t).bind fun t' => runOps t' ops

/-- The tree `T` is there before, between or after the steps. -/
def Stops (t : Tree ν α) (ops : List (Op ν α)) (T : Tree ν α) : Prop :=
  ∃ pre post, ops = pre ++ post ∧ t.runOps pre = some T

/-- What is last written at `q`. -/
def lastOf (writes : List (Path ν × α)) (q : Path ν) : Option α :=
  (writes.reverse.find? fun w => w.1 = q).map Prod.snd

/-- Files below `d` are unlinked, and others written. -/
def replacing (d : Path ν) (gone : List (Path ν)) (writes : List (Path ν × α)) : List (Op ν α) :=
  gone.map .unlink ++ writes.map fun w => .write (d ++ w.1) w.2

/-- The steps in which the directory `d` of `t` is replaced by `s`: every file is unlinked, in any
order, and files of `s` are written, in any order, and hold anything in between. -/
structure Replacement (t : Tree ν α) (d : Path ν) (s : Tree ν α) (gone : List (Path ν))
    (writes : List (Path ν × α)) : Prop where
  gone : ∀ p, p ∈ gone ↔ d <+: p ∧ ∃ x, (p, x) ∈ t
  writes : ∀ w ∈ writes, ∃ x, (w.1, x) ∈ s

/-- Every file of `s` is written to its end. -/
def Complete (s : Tree ν α) (writes : List (Path ν × α)) : Prop :=
  ∀ q x, (q, x) ∈ s → lastOf writes q = some x

variable {t t' T s : Tree ν α} {d p q : Path ν} {x y : α} {gone : List (Path ν)}
  {writes : List (Path ν × α)} {ops ops' : List (Op ν α)}

/-! ### Steps -/

theorem mem_unlink : (q, x) ∈ t.unlink p ↔ (q, x) ∈ t ∧ q ≠ p := by
  rw [unlink, mem_select]
  constructor
  · rintro ⟨y, hy, h⟩
    split_ifs at h with hq
    cases h
    exact ⟨hy, hq⟩
  · exact fun ⟨hx, hq⟩ => ⟨x, hx, if_neg hq⟩

/-- After a write the file holds what has been written, and the others are as they were. -/
theorem mem_write (h : t.write p x = some t') :
    (q, y) ∈ t' ↔ (q = p ∧ y = x) ∨ (q ≠ p ∧ (q, y) ∈ t) := by
  unfold write at h
  split_ifs at h with hp
  · cases h
    obtain ⟨z, hz⟩ := Option.isSome_iff_exists.mp hp
    rw [get?_eq_some_iff] at hz
    rw [mem_def, edit, List.mem_map]
    constructor
    · rintro ⟨⟨r, w⟩, hr, heq⟩
      simp only [Prod.mk.injEq] at heq
      obtain ⟨rfl, rfl⟩ := heq
      by_cases hrp : r = p
      · exact Or.inl ⟨hrp, if_pos hrp⟩
      · exact Or.inr ⟨hrp, by rwa [if_neg hrp]⟩
    · rintro (⟨rfl, rfl⟩ | ⟨hq, hy⟩)
      · exact ⟨_, hz, by simp⟩
      · exact ⟨_, hy, by simp [hq]⟩
  · rw [mem_create h]
    have hno : ∀ z, (p, z) ∉ t := fun z hz =>
      hp (Option.isSome_iff_exists.mpr ⟨z, get?_eq_some_iff.mpr hz⟩)
    refine or_congr_right ⟨fun hy => ⟨?_, hy⟩, And.right⟩
    rintro rfl
    exact hno y hy

/-- A file can be written where one is, or nothing is in the way. -/
theorem exists_write (h : ∀ f ∈ t.files, f.1 ≠ p → ¬ f.1 <+: p ∧ ¬ p <+: f.1) :
    ∃ t', t.write p x = some t' := by
  unfold write
  split_ifs with hp
  · exact ⟨_, rfl⟩
  · refine ⟨_, dif_pos fun f hf => h f hf ?_⟩
    rintro rfl
    exact hp (Option.isSome_iff_exists.mpr ⟨f.2, get?_eq_some_iff.mpr hf⟩)

@[simp] theorem runOps_nil : t.runOps [] = some t := rfl

theorem runOps_append : t.runOps (ops ++ ops') = (t.runOps ops).bind fun t' => t'.runOps ops' := by
  induction ops generalizing t with
  | nil => rfl
  | cons op ops ih =>
    rw [List.cons_append, runOps, runOps, Option.bind_assoc]
    exact congrArg _ (funext fun t' => ih)

/-! ### Unlinking -/

/-- **After files have been unlinked**, the others are there. -/
theorem run_unlinks (t : Tree ν α) (gone : List (Path ν)) :
    ∃ T, t.runOps (gone.map .unlink) = some T ∧ ∀ q x, (q, x) ∈ T ↔ (q, x) ∈ t ∧ q ∉ gone := by
  induction gone generalizing t with
  | nil => exact ⟨t, rfl, fun q x => by simp⟩
  | cons p gone ih =>
    obtain ⟨T, hT, hmem⟩ := ih (t.unlink p)
    refine ⟨T, hT, fun q x => ?_⟩
    rw [hmem, mem_unlink, List.mem_cons, not_or, and_assoc]

/-- A replacement comes through a tree in which nothing is below `d`. -/
theorem Replacement.stops_emptied (h : Replacement t d s gone writes) :
    ∃ T, t.Stops (replacing d gone writes) T ∧ ∀ q x, (q, x) ∈ T ↔ (q, x) ∈ t ∧ ¬ d <+: q := by
  obtain ⟨T, hT, hmem⟩ := run_unlinks t gone
  refine ⟨T, ⟨_, _, rfl, hT⟩, fun q x => ?_⟩
  rw [hmem, h.gone]
  exact and_congr_right fun hx => not_congr (and_iff_left ⟨x, hx⟩)

/-! ### Writing -/

theorem lastOf_concat (w : Path ν × α) :
    lastOf (writes ++ [w]) q = if w.1 = q then some w.2 else lastOf writes q := by
  unfold lastOf
  rw [List.reverse_append, List.reverse_singleton, List.singleton_append, List.find?_cons]
  by_cases h : w.1 = q <;> simp [h]

theorem exists_of_lastOf (h : lastOf writes q = some x) : (q, x) ∈ writes := by
  obtain ⟨w, hw, rfl⟩ := Option.map_eq_some_iff.mp h
  have hq : w.1 = q := by simpa using List.find?_some hw
  rw [← hq]
  exact List.mem_reverse.mp (List.mem_of_find?_eq_some hw)

/-- **After files of `s` have been written** below a directory that was empty, each holds what was
written last. -/
theorem run_writes (hclear : t.Clear d) (hempty : ∀ q x, (q, x) ∈ t → ¬ d <+: q)
    (hs : ∀ w ∈ writes, ∃ x, (w.1, x) ∈ s) :
    ∃ T, t.runOps (writes.map fun w => .write (d ++ w.1) w.2) = some T ∧
      ∀ q x, (q, x) ∈ T ↔ (q, x) ∈ t ∨ ∃ r, q = d ++ r ∧ lastOf writes r = some x := by
  induction writes using List.reverseRecOn with
  | nil => exact ⟨t, rfl, fun q x => by simp [lastOf]⟩
  | append_singleton writes w ih =>
    obtain ⟨T, hT, hmem⟩ := ih fun w hw => hs w (List.mem_append_left _ hw)
    -- nothing is in the way: what is outside of `d` is not above it, and what is below are files of
    -- `s`
    have hfree : ∀ f ∈ T.files, f.1 ≠ d ++ w.1 → ¬ f.1 <+: d ++ w.1 ∧ ¬ d ++ w.1 <+: f.1 := by
      rintro ⟨q, y⟩ hf hne
      rcases (hmem q y).mp hf with hq | ⟨r, rfl, hr⟩
      · refine ⟨fun hp => ?_, fun hp => hempty q y hq ((List.prefix_append d w.1).trans hp)⟩
        rcases List.prefix_or_prefix_of_prefix hp (List.prefix_append d w.1) with hd | hd
        · exact hclear _ hq hd
        · exact hempty q y hq hd
      · obtain ⟨a, ha⟩ := hs (r, y) (List.mem_append_left _ (exists_of_lastOf hr))
        obtain ⟨b, hb⟩ := hs w (List.mem_append_right _ (List.mem_singleton.mpr rfl))
        have hrw : r ≠ w.1 := fun h => hne (congrArg (d ++ ·) h)
        simp only [List.prefix_append_right_inj]
        exact ⟨fun hp => hrw (s.free (r, a) ha (w.1, b) hb hp),
          fun hp => hrw (s.free (w.1, b) hb (r, a) ha hp).symm⟩
    obtain ⟨T', hT'⟩ := exists_write (x := w.2) hfree
    refine ⟨T', ?_, fun q x => ?_⟩
    · rw [List.map_append, runOps_append, hT]
      simp only [List.map_cons, List.map_nil, Option.bind_some, runOps, Op.apply, hT']
    · rw [mem_write hT', hmem]
      simp only [lastOf_concat]
      by_cases hq : q = d ++ w.1
      · subst hq
        have hno : (d ++ w.1, x) ∉ t := fun hx => hempty _ _ hx (List.prefix_append d w.1)
        simp [hno, eq_comm]
      · have hne : ∀ r, q = d ++ r → w.1 ≠ r := fun r hr h => hq (h ▸ hr)
        simp only [hq, false_and, false_or, ne_eq, not_false_eq_true, true_and]
        refine or_congr_right (exists_congr fun r => and_congr_right fun hr => ?_)
        rw [if_neg (hne r hr)]

/-- **All steps** replace the directory. -/
theorem run_replacement {u : Tree ν α} (h : Replacement t d s gone writes)
    (hall : Complete s writes)
    (hu : t.replaceDir d s = some u) :
    ∃ T, t.runOps (replacing d gone writes) = some T ∧ ∀ q x, (q, x) ∈ T ↔ (q, x) ∈ u := by
  obtain ⟨T₀, hT₀, hmem₀⟩ := run_unlinks t gone
  have hmem : ∀ q x, (q, x) ∈ T₀ ↔ (q, x) ∈ t ∧ ¬ d <+: q := fun q x => by
    rw [hmem₀, h.gone]
    exact and_congr_right fun hx => not_congr (and_iff_left ⟨x, hx⟩)
  have hclear : T₀.Clear d := fun f hf => clear_of_replaceDir hu f ((hmem f.1 f.2).mp hf).1
  obtain ⟨T, hT, hmemT⟩ := run_writes hclear (fun q x hx => ((hmem q x).mp hx).2) h.writes
  refine ⟨T, ?_, fun q x => ?_⟩
  · rw [replacing, runOps_append, hT₀]
    exact hT
  · rw [hmemT, hmem, mem_replaceDir hu]
    refine or_congr_right (exists_congr fun r => and_congr_right fun _ =>
      ⟨fun hr => ?_, fun hr => hall r x hr⟩)
    obtain ⟨y, hy⟩ := h.writes _ (exists_of_lastOf hr)
    rw [hall r y hy, Option.some.injEq] at hr
    exact hr ▸ hy

/-- A directory can be replaced step by step. -/
theorem exists_replacement (t : Tree ν α) (d : Path ν) (s : Tree ν α) :
    ∃ gone writes, Replacement t d s gone writes ∧ Complete s writes := by
  refine ⟨(t.files.filter fun f => d <+: f.1).map Prod.fst, s.files,
    ⟨fun p => ?_, fun w hw => ⟨w.2, hw⟩⟩, fun q x hx => ?_⟩
  · rw [List.mem_map]
    constructor
    · rintro ⟨f, hf, rfl⟩
      obtain ⟨hmem, hd⟩ := List.mem_filter.mp hf
      exact ⟨by simpa using hd, f.2, hmem⟩
    · rintro ⟨hd, x, hx⟩
      exact ⟨(p, x), List.mem_filter.mpr ⟨hx, by simpa using hd⟩, rfl⟩
  · have hsome : (s.files.reverse.find? fun w => w.1 = q).isSome := by
      rw [List.find?_isSome]
      exact ⟨(q, x), List.mem_reverse.mpr hx, by simp⟩
    obtain ⟨w, hw⟩ := Option.isSome_iff_exists.mp hsome
    have hwq : w.1 = q := by simpa using List.find?_some hw
    have hmem : (q, w.2) ∈ s := hwq ▸ List.mem_reverse.mp (List.mem_of_find?_eq_some hw)
    rw [lastOf, hw, Option.map_some, eq_of_mem hmem hx]

end Tree

end Files
