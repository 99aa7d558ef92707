import Mathlib.Data.List.Dedup
import Mathlib.Data.List.Nodup
import Mathlib.Data.List.Infix

/-!
# Directory trees

A tree of files, seen from its top directory: what stands in it at which path. A path is the
list of the names on the way. Directories are not listed, they are where files are. No path
is listed twice, and no file stands where another file's path has a directory; both are
fields of `Tree`, so that every operation has to keep them.

`Tree.below` is what stands below a directory, `Tree.without` the tree after a directory is
removed, and `Tree.replaceDir` the tree after a directory has been removed and another tree
copied in its place, which fails where a file is in the way. `Tree.holding` lists the
directories that hold a file of a given name, as a walk through the tree finds them; a walk
itself goes through them in one of many orders (`Walk`).
-/

namespace Files

variable {ν α : Type*}

/-- The names from the top of a tree down to a file or directory. -/
abbrev Path (ν : Type*) := List ν

/-- A tree of files. -/
structure Tree (ν α : Type*) where
  /-- The files, with their paths. -/
  files : List (Path ν × α)
  /-- A path is the path of one file. -/
  nodup : (files.map Prod.fst).Nodup
  /-- A file is not a directory. -/
  free : ∀ f ∈ files, ∀ g ∈ files, f.1 <+: g.1 → f.1 = g.1

namespace Tree

variable {t s t' : Tree ν α} {d e p : Path ν} {x y : α} {m : ν}

instance : Membership (Path ν × α) (Tree ν α) := ⟨fun t f => f ∈ t.files⟩

theorem mem_def {f : Path ν × α} : f ∈ t ↔ f ∈ t.files := Iff.rfl

/-- What stands at a path is one file. -/
theorem eq_of_mem (hx : (p, x) ∈ t) (hy : (p, y) ∈ t) : x = y :=
  congrArg Prod.snd (List.inj_on_of_nodup_map t.nodup hx hy rfl)

/-- A file has nothing below it. -/
theorem eq_nil_of_mem (hx : (p, x) ∈ t) (hy : (p ++ e, y) ∈ t) : e = [] := by
  have h : p = p ++ e := t.free _ hx _ hy (List.prefix_append p e)
  exact List.self_eq_append_right.mp h

variable [DecidableEq ν]

/-! ### Looking -/

/-- The file at a path. -/
def get? (t : Tree ν α) (p : Path ν) : Option α := (t.files.find? fun f => f.1 = p).map Prod.snd

theorem get?_eq_some_iff : t.get? p = some x ↔ (p, x) ∈ t := by
  unfold get?
  constructor
  · intro h
    obtain ⟨⟨q, y⟩, hf, rfl⟩ := Option.map_eq_some_iff.mp h
    obtain rfl : q = p := by simpa using List.find?_some hf
    exact List.mem_of_find?_eq_some hf
  · intro hx
    cases hf : t.files.find? fun f => f.1 = p with
    | none => exact absurd (List.find?_eq_none.mp hf _ hx) (by simp)
    | some f =>
      obtain ⟨q, y⟩ := f
      obtain rfl : q = p := by simpa using List.find?_some hf
      rw [eq_of_mem hx (List.mem_of_find?_eq_some hf)]
      rfl

/-- The names that stand in the top directory. -/
def names (t : Tree ν α) : List ν := (t.files.filterMap fun f => f.1.head?).dedup

theorem mem_names {n : ν} : n ∈ t.names ↔ ∃ q y, (n :: q, y) ∈ t := by
  unfold names
  rw [List.mem_dedup, List.mem_filterMap]
  constructor
  · rintro ⟨⟨q, y⟩, hf, h⟩
    obtain ⟨r, rfl⟩ := List.head?_eq_some_iff.mp h
    exact ⟨r, y, hf⟩
  · rintro ⟨q, y, hf⟩
    exact ⟨_, hf, rfl⟩

theorem nodup_names (t : Tree ν α) : t.names.Nodup := List.nodup_dedup _

/-! ### Removing and copying -/

/-- The tree without the directory `d`. -/
def without (t : Tree ν α) (d : Path ν) : Tree ν α where
  files := t.files.filter fun f => ¬ d <+: f.1
  nodup := t.nodup.sublist (List.Sublist.map _ List.filter_sublist)
  free f hf g hg := t.free f (List.mem_of_mem_filter hf) g (List.mem_of_mem_filter hg)

@[simp] theorem mem_without : (p, x) ∈ t.without d ↔ (p, x) ∈ t ∧ ¬ d <+: p := by
  simp [mem_def, without]

/-- The tree below the directory `d`. -/
def below (t : Tree ν α) (d : Path ν) : Tree ν α where
  files := t.files.filterMap fun f => if d <+: f.1 then some (f.1.drop d.length, f.2) else none
  nodup := by
    rw [List.Nodup, List.pairwise_map]
    refine (List.pairwise_map.mp t.nodup).filterMap _ fun f g hfg b hb c hc hbc => hfg ?_
    split_ifs at hb hc with hf hg
    cases hb
    cases hc
    -- both begin with `d`, and go on alike
    rw [← List.prefix_iff_eq_append.mp hf, ← List.prefix_iff_eq_append.mp hg]
    exact congrArg (d ++ ·) hbc
  free := by
    have hmem : ∀ b ∈ t.files.filterMap fun f => if d <+: f.1 then
        some (f.1.drop d.length, f.2) else none,
        (d ++ b.1, b.2) ∈ t.files := by
      intro b hb
      obtain ⟨f, hf, h⟩ := List.mem_filterMap.mp hb
      split_ifs at h with hd
      cases h
      rwa [List.prefix_iff_eq_append.mp hd]
    intro b hb c hc h
    exact List.append_cancel_left
      (t.free _ (hmem b hb) _ (hmem c hc) ((List.prefix_append_right_inj d).mpr h))

@[simp] theorem mem_below : (p, x) ∈ t.below d ↔ (d ++ p, x) ∈ t := by
  simp only [mem_def, below, List.mem_filterMap]
  constructor
  · rintro ⟨⟨q, z⟩, hf, h⟩
    split_ifs at h with hd
    obtain ⟨r, rfl⟩ := hd
    cases h
    rwa [List.drop_left]
  · exact fun h => ⟨_, h, by simp⟩

/-- The tree with `f` applied to the file at `p`. -/
def edit (t : Tree ν α) (p : Path ν) (f : α → α) : Tree ν α where
  files := t.files.map fun g => (g.1, if g.1 = p then f g.2 else g.2)
  nodup := by simpa [Function.comp_def] using t.nodup
  free := by
    simp only [List.forall_mem_map]
    exact t.free

/-- No file stands at `d` or above it: it is a directory, or can be made one. -/
def Clear (t : Tree ν α) (d : Path ν) : Prop := ∀ f ∈ t.files, ¬ f.1 <+: d

instance : Decidable (t.Clear d) := inferInstanceAs (Decidable (∀ f ∈ t.files, ¬ f.1 <+: d))

/-- `d` removed, and the tree `s` copied in its place, if nothing is in the way. -/
def replaceDir (t : Tree ν α) (d : Path ν) (s : Tree ν α) : Option (Tree ν α) :=
  if h : t.Clear d then
    some {
      files := (t.without d).files ++ s.files.map fun f => (d ++ f.1, f.2)
      nodup := by
        rw [List.map_append, List.map_map]
        refine List.Nodup.append (t.without d).nodup ?_ fun q hq hr => ?_
        · have hmap : s.files.map (Prod.fst ∘ fun f => (d ++ f.1, f.2)) =
              (s.files.map Prod.fst).map (d ++ ·) := by
            rw [List.map_map]
            rfl
          rw [hmap]
          exact s.nodup.map fun a b => List.append_cancel_left
        · obtain ⟨f, hf, rfl⟩ := List.mem_map.mp hq
          obtain ⟨g, -, he⟩ := List.mem_map.mp hr
          exact (mem_without.mp hf).2 (he ▸ List.prefix_append d g.1)
      free := by
        intro f hf g hg hfg
        rw [List.mem_append] at hf hg
        rcases hf with hf | hf <;> rcases hg with hg | hg
        · exact (t.without d).free f hf g hg hfg
        · -- a file of `t` that is above a copied one is above `d`, or below it
          obtain ⟨b, -, rfl⟩ := List.mem_map.mp hg
          obtain ⟨hft, hd⟩ := mem_without.mp hf
          rcases List.prefix_or_prefix_of_prefix hfg (List.prefix_append d b.1) with hp | hp
          · exact absurd hp (h f hft)
          · exact absurd hp hd
        · obtain ⟨a, -, rfl⟩ := List.mem_map.mp hf
          exact absurd ((List.prefix_append d a.1).trans hfg) (mem_without.mp hg).2
        · obtain ⟨a, ha, rfl⟩ := List.mem_map.mp hf
          obtain ⟨b, hb, rfl⟩ := List.mem_map.mp hg
          exact congrArg (d ++ ·) (s.free a ha b hb ((List.prefix_append_right_inj d).mp hfg)) }
  else none

theorem replaceDir_isSome_iff : (∃ t', t.replaceDir d s = some t') ↔ t.Clear d := by
  unfold replaceDir
  split_ifs with h <;> simp [h]

theorem replaceDir_of_not_clear (h : ¬ t.Clear d) : t.replaceDir d s = none := dif_neg h

theorem clear_of_replaceDir (h : t.replaceDir d s = some t') : t.Clear d :=
  replaceDir_isSome_iff.mp ⟨t', h⟩

/-- What stands in the tree afterwards: what stood outside of `d`, and the copies. -/
theorem mem_replaceDir (h : t.replaceDir d s = some t') :
    (p, x) ∈ t' ↔ ((p, x) ∈ t ∧ ¬ d <+: p) ∨ ∃ q, p = d ++ q ∧ (q, x) ∈ s := by
  unfold replaceDir at h
  split_ifs at h with hc
  cases h
  rw [mem_def, List.mem_append]
  apply or_congr mem_without
  rw [List.mem_map]
  constructor
  · rintro ⟨⟨q, y⟩, hq, h⟩
    cases h
    exact ⟨q, rfl, hq⟩
  · rintro ⟨q, rfl, hq⟩
    exact ⟨(q, x), hq, rfl⟩

/-- Outside of `d` nothing has changed. -/
theorem mem_replaceDir_of_not_prefix (h : t.replaceDir d s = some t') (hp : ¬ d <+: p) :
    (p, x) ∈ t' ↔ (p, x) ∈ t := by
  rw [mem_replaceDir h]
  constructor
  · rintro (⟨hx, -⟩ | ⟨q, rfl, -⟩)
    · exact hx
    · exact absurd (List.prefix_append d q) hp
  · exact fun hx => Or.inl ⟨hx, hp⟩

/-- Below `d` stands what was copied. -/
theorem append_mem_replaceDir (h : t.replaceDir d s = some t') : (d ++ p, x) ∈ t' ↔ (p, x) ∈ s := by
  rw [mem_replaceDir h]
  constructor
  · rintro (⟨-, hp⟩ | ⟨q, hq, hx⟩)
    · exact absurd (List.prefix_append d p) hp
    · rwa [List.append_cancel_left hq]
  · exact fun hx => Or.inr ⟨p, rfl, hx⟩

/-- A new file at `p`, if nothing stands there. -/
def create (t : Tree ν α) (p : Path ν) (x : α) : Option (Tree ν α) :=
  if h : ∀ f ∈ t.files, ¬ f.1 <+: p ∧ ¬ p <+: f.1 then
    some {
      files := (p, x) :: t.files
      nodup := by
        rw [List.map_cons, List.nodup_cons, List.mem_map]
        refine ⟨?_, t.nodup⟩
        rintro ⟨f, hf, rfl⟩
        exact (h f hf).1 (List.prefix_refl _)
      free := by
        simp only [List.forall_mem_cons]
        exact ⟨⟨fun _ => trivial, fun g hg hp => absurd hp (h g hg).2⟩,
          fun f hf => ⟨fun hp => absurd hp (h f hf).1, t.free f hf⟩⟩ }
  else none

theorem mem_create (h : t.create e y = some t') : (p, x) ∈ t' ↔ (p = e ∧ x = y) ∨ (p, x) ∈ t := by
  unfold create at h
  split_ifs at h
  cases h
  rw [mem_def, List.mem_cons, Prod.mk.injEq, mem_def]

/-- What stood there is there, and stands elsewhere. -/
theorem ne_of_create (h : t.create e y = some t') (hx : (p, x) ∈ t) : p ≠ e := by
  unfold create at h
  split_ifs at h with hc
  rintro rfl
  exact (hc _ hx).1 (List.prefix_refl _)

/-! ### Walking -/

/-- The directories that hold a file named `m`, with those files, as far as they can be reached
through directories whose names are `visible`. -/
def holding (t : Tree ν α) (m : ν) (visible : ν → Bool) : List (Path ν × α) :=
  t.files.filterMap fun f =>
    if f.1.getLast? = some m ∧ f.1.dropLast.all visible then some (f.1.dropLast, f.2) else none

variable {visible : ν → Bool}

theorem mem_holding : (d, x) ∈ t.holding m visible ↔ (d ++ [m], x) ∈ t ∧ d.all visible := by
  rw [holding, List.mem_filterMap]
  constructor
  · rintro ⟨⟨q, y⟩, hq, h⟩
    split_ifs at h with hc
    obtain ⟨hlast, hall⟩ := hc
    obtain ⟨d', rfl⟩ := List.getLast?_eq_some_iff.mp hlast
    rw [List.dropLast_concat] at h hall
    cases h
    exact ⟨hq, hall⟩
  · rintro ⟨hx, hall⟩
    exact ⟨_, hx, by rw [if_pos ⟨List.getLast?_concat, by rwa [List.dropLast_concat]⟩,
      List.dropLast_concat]⟩

/-- What a walk through a tree finds after a directory has been replaced: what it found outside
of it, and what it finds in the tree that was copied. -/
theorem mem_holding_replaceDir (h : t.replaceDir d s = some t') (hs : ∀ y, ([], y) ∉ s)
    (hd : d.all visible) :
    (e, x) ∈ t'.holding m visible ↔
      ((e, x) ∈ t.holding m visible ∧ ¬ d <+: e) ∨ ∃ q, e = d ++ q ∧
          (q, x) ∈ s.holding m visible := by
  simp only [mem_holding]
  rw [mem_replaceDir h]
  constructor
  · rintro ⟨⟨hx, hp⟩ | ⟨q, hq, hx⟩, hall⟩
    · exact Or.inl ⟨⟨hx, hall⟩, fun he => hp (he.trans (List.prefix_append e [m]))⟩
    · -- the copied file is not the copy's top
      rcases List.eq_nil_or_concat q with rfl | ⟨r, n, rfl⟩
      · exact absurd hx (hs x)
      · rw [List.concat_eq_append, ← List.append_assoc] at hq
        obtain ⟨rfl, hn⟩ := List.append_inj' hq rfl
        cases hn
        rw [List.all_append, Bool.and_eq_true] at hall
        exact Or.inr ⟨r, rfl, by simpa using hx, hall.2⟩
  · rintro (⟨⟨hx, hall⟩, hp⟩ | ⟨q, rfl, hx, hall⟩)
    · refine ⟨Or.inl ⟨hx, fun hd' => ?_⟩, hall⟩
      rcases List.prefix_concat_iff.mp hd' with rfl | hd'
      · exact clear_of_replaceDir h _ hx (List.prefix_refl _)
      · exact hp hd'
    · exact ⟨Or.inr ⟨q ++ [m], List.append_assoc .., hx⟩, by rw [List.all_append, hd, hall]; rfl⟩

/-- An order in which a walk may go through these directories: a directory comes before those
below it. -/
def Walk (t : Tree ν α) (m : ν) (visible : ν → Bool) (l : List (Path ν × α)) : Prop :=
  l.Perm (t.holding m visible) ∧ l.Pairwise fun f g => ¬ g.1 <+: f.1

theorem nodup_holding (t : Tree ν α) : ((t.holding m visible).map Prod.fst).Nodup := by
  rw [List.Nodup, List.pairwise_map]
  unfold holding
  refine (List.pairwise_map.mp t.nodup).filterMap _ fun f g hfg b hb c hc hbc => hfg ?_
  split_ifs at hb hc with hf hg
  cases hb
  cases hc
  -- both end with `m`, and begin alike
  obtain ⟨d, hd⟩ := List.getLast?_eq_some_iff.mp hf.1
  obtain ⟨e, he⟩ := List.getLast?_eq_some_iff.mp hg.1
  rw [hd, he, List.dropLast_concat, List.dropLast_concat] at hbc
  rw [hd, he, show d = e from hbc]

/-- A walk can go through them from the top down. -/
theorem exists_walk (t : Tree ν α) (m : ν) (visible : ν → Bool) : ∃ l, t.Walk m visible l := by
  refine ⟨(t.holding m visible).mergeSort fun f g => decide (f.1.length ≤ g.1.length),
    List.mergeSort_perm _ _, ?_⟩
  have hsorted :
      ((t.holding m visible).mergeSort fun f g => decide (f.1.length ≤ g.1.length)).Pairwise
      fun f g => decide (f.1.length ≤ g.1.length) := by
    apply List.pairwise_mergeSort
    · intro a b c
      simp only [decide_eq_true_eq]
      omega
    · intro a b
      simp only [Bool.or_eq_true, decide_eq_true_eq]
      omega
  have hnodup :
      ((t.holding m visible).mergeSort fun f g => decide (f.1.length ≤ g.1.length)).Pairwise
      fun f g => f.1 ≠ g.1 := by
    rw [← List.pairwise_map (R := fun a b => a ≠ b)]
    exact ((List.mergeSort_perm _ _).map _).nodup_iff.mpr t.nodup_holding
  refine (hsorted.and hnodup).imp fun {f g} hfg hp => hfg.2 ?_
  simp only [decide_eq_true_eq] at hfg
  exact (hp.eq_of_length_le hfg.1).symm

theorem Walk.mem_iff {l : List (Path ν × α)} (h : t.Walk m visible l) :
    (d, x) ∈ l ↔ (d ++ [m], x) ∈ t ∧ d.all visible := by
  rw [h.1.mem_iff, mem_holding]

/-! ### Files left out -/

section

variable {β γ : Type*}

/-- The files that `f` has something for. -/
def select (t : Tree ν α) (f : Path ν → α → Option β) : Tree ν β where
  files := t.files.filterMap fun g => (f g.1 g.2).map fun y => (g.1, y)
  nodup := by
    rw [List.Nodup, List.pairwise_map]
    refine (List.pairwise_map.mp t.nodup).filterMap _ fun g h hgh b hb c hc hbc => hgh ?_
    obtain ⟨y, -, rfl⟩ := Option.map_eq_some_iff.mp hb
    obtain ⟨z, -, rfl⟩ := Option.map_eq_some_iff.mp hc
    exact hbc
  free := by
    intro b hb c hc h
    obtain ⟨g, hg, hb⟩ := List.mem_filterMap.mp hb
    obtain ⟨g', hg', hc⟩ := List.mem_filterMap.mp hc
    obtain ⟨y, -, rfl⟩ := Option.map_eq_some_iff.mp hb
    obtain ⟨z, -, rfl⟩ := Option.map_eq_some_iff.mp hc
    exact t.free g hg g' hg' h

variable {f g : Path ν → α → Option β} {y : β}

omit [DecidableEq ν] in
theorem mem_select : (p, y) ∈ t.select f ↔ ∃ x, (p, x) ∈ t ∧ f p x = some y := by
  simp only [mem_def, select, List.mem_filterMap, Prod.exists, Option.map_eq_some_iff,
    Prod.mk.injEq]
  constructor
  · rintro ⟨q, x, hx, z, hf, rfl, rfl⟩
    exact ⟨x, hx, hf⟩
  · rintro ⟨x, hx, hf⟩
    exact ⟨p, x, hx, y, hf, rfl, rfl⟩

omit [DecidableEq ν] in
theorem select_select (h : Path ν → β → Option γ) :
    (t.select f).select h = t.select fun p x => (f p x).bind (h p) := by
  have hfiles : ((t.select f).select h).files = (t.select fun p x => (f p x).bind (h p)).files := by
    simp only [select, List.filterMap_filterMap]
    refine List.filterMap_congr fun g _ => ?_
    cases f g.1 g.2 <;> rfl
  revert hfiles
  cases (t.select f).select h
  rintro rfl
  rfl

/-- What is below a directory is what is selected there. -/
theorem below_select_congr (h : ∀ p x, (p, x) ∈ t → d <+: p → f p x = g p x) :
    (t.select f).below d = (t.select g).below d := by
  have hfiles : ((t.select f).below d).files = ((t.select g).below d).files := by
    simp only [select, below, List.filterMap_filterMap]
    refine List.filterMap_congr fun k hk => ?_
    by_cases hd : d <+: k.1
    · rw [h k.1 k.2 hk hd]
    · cases f k.1 k.2 <;> cases g k.1 k.2 <;> simp [hd]
  revert hfiles
  cases (t.select f).below d
  rintro rfl
  rfl

end

end Tree

end Files
