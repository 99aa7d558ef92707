import Mathlib.Data.List.Basic
import Mathlib.Data.Set.Function

/-!
# Items written line by line, under marks

Items of several kinds are written one after the other: the mark of its kind, its text, and a
separator between two items. Nothing is escaped, so that a text may itself hold a separator with a
mark behind it, and what is written may be that of other items as well.

`Format.cut` cuts an item before each such line. `Format.write_eq_iff` says when two lists of items
are written alike: exactly if they are cut into the same pieces. Items that cannot be cut any more
(`Format.Plain`) are therefore written apart (`Format.write_injOn`).
-/

namespace Coding

variable {α κ : Type*}

/-- A separator, and a mark for each kind, by which a line can be read. -/
structure Format (α κ : Type*) where
  sep : α
  mark : κ → List α
  /-- The kind with whose mark a line begins, and the rest of the line. -/
  read : List α → Option (κ × List α)
  read_eq_some_iff : ∀ {l k t}, read l = some (k, t) ↔ l = mark k ++ t
  sep_notMem : ∀ k, sep ∉ mark k
  mark_ne_nil : ∀ k, mark k ≠ []

namespace Format

variable (F : Format α κ)

/-- What is written for the items. -/
def write (items : List (κ × List α)) : List α :=
  [F.sep].intercalate (items.map fun x => F.mark x.1 ++ x.2)

/-- The lines up to the first one that begins with a mark. -/
def own (ls : List (List α)) : List (List α) := ls.takeWhile fun l => (F.read l).isNone

/-- The lines in blocks: each begins with a line under a mark. -/
def blocks : List (List α) → List (κ × List (List α))
  | [] => []
  | l :: ls =>
    match F.read l with
    | none => blocks ls
    | some (k, t) => (k, t :: F.own ls) :: blocks ls

/-- The text of lines with a mark before the first one. -/
def under (k : κ) : List (List α) → List (List α)
  | [] => []
  | t :: ls => (F.mark k ++ t) :: ls

variable {F} {x : κ × List α} {items items' : List (κ × List α)} {ls ms : List (List α)} {k : κ}
  {t : List α}

/-! ### Joining -/

theorem intercalate_append {s : List α} (hl : ls ≠ []) (hm : ms ≠ []) :
    s.intercalate (ls ++ ms) = s.intercalate ls ++ s ++ s.intercalate ms := by
  induction ls with
  | nil => exact absurd rfl hl
  | cons l ls ih =>
    cases ls with
    | nil => rw [List.singleton_append, List.intercalate_cons_of_ne_nil hm,
      List.intercalate_singleton]
    | cons l' ls =>
      rw [List.cons_append, List.intercalate_cons_of_ne_nil (by simp), ih (by simp),
        List.intercalate_cons_of_ne_nil (List.cons_ne_nil _ _)]
      simp only [List.append_assoc]

/-- To join what is joined is to join all. -/
theorem intercalate_flatMap {β : Type*} {s : List α} {f : β → List (List α)} (hf : ∀ x, f x ≠ [])
    (xs : List β) :
    s.intercalate (xs.flatMap f) = s.intercalate (xs.map fun x => s.intercalate (f x)) := by
  induction xs with
  | nil => rfl
  | cons x xs ih =>
    cases xs with
    | nil => simp
    | cons y ys =>
      have hne : (y :: ys).flatMap f ≠ [] := by simp [hf y]
      have hne' : (y :: ys).map (fun x => s.intercalate (f x)) ≠ [] := List.cons_ne_nil _ _
      rw [List.flatMap_cons, intercalate_append (hf x) hne, ih]
      exact (List.intercalate_cons_of_ne_nil hne').symm

theorem intercalate_under {s : α} (hl : ls ≠ []) :
    [s].intercalate (F.under k ls) = F.mark k ++ [s].intercalate ls := by
  obtain ⟨l, ls, rfl⟩ := List.exists_cons_of_ne_nil hl
  rw [under]
  cases ls with
  | nil => simp
  | cons m ms => simp [List.intercalate_cons_cons]

theorem write_eq_nil_iff : F.write items = [] ↔ items = [] := by
  refine ⟨fun h => ?_, fun h => by rw [h]; rfl⟩
  cases items with
  | nil => rfl
  | cons x items =>
    have hne : F.mark x.1 ≠ [] := F.mark_ne_nil _
    cases items with
    | nil => simp [write, hne] at h
    | cons y items => simp [write, List.intercalate_cons_cons, hne] at h

/-! ### Blocks of lines -/

/-- A line under a mark is read. -/
theorem read_mark (F : Format α κ) (k : κ) (t : List α) :
    F.read (F.mark k ++ t) = some (k, t) := F.read_eq_some_iff.mpr rfl

/-- The first line is under a mark. -/
def Begins (F : Format α κ) (ls : List (List α)) : Prop := ∀ l ∈ ls.head?, (F.read l).isSome

theorem own_append (hm : F.Begins ms) : F.own (ls ++ ms) = F.own ls := by
  induction ls with
  | nil =>
    cases ms with
    | nil => rfl
    | cons m ms =>
      have hm' : (F.read m).isSome := hm m rfl
      simp [own, Option.isNone_eq_false_iff.mpr hm']
  | cons l ls ih =>
    simp only [own, List.cons_append, List.takeWhile_cons] at ih ⊢
    split_ifs with hl
    · rw [ih]
    · rfl

theorem blocks_append (hm : F.Begins ms) : F.blocks (ls ++ ms) = F.blocks ls ++ F.blocks ms := by
  induction ls with
  | nil => rfl
  | cons l ls ih =>
    rw [List.cons_append, blocks, blocks]
    cases F.read l with
    | none => exact ih
    | some x => simp only [own_append hm, ih, List.cons_append]

/-- No line is lost between the blocks. -/
theorem own_append_blocks (F : Format α κ) (ls : List (List α)) :
    F.own ls ++ (F.blocks ls).flatMap (fun b => F.under b.1 b.2) = ls := by
  induction ls with
  | nil => rfl
  | cons l ls ih =>
    rw [own, List.takeWhile_cons, blocks]
    cases hl : F.read l with
    | none =>
      simp only [Option.isNone_none, if_true, List.cons_append]
      exact congrArg (l :: ·) ih
    | some y =>
      obtain ⟨k, t⟩ := y
      rw [F.read_eq_some_iff] at hl
      simp only [Option.isNone_some, Bool.false_eq_true, if_false, List.nil_append,
        List.flatMap_cons]
      rw [under, List.cons_append, ih, hl]

theorem own_of_begins (h : F.Begins ls) : F.own ls = [] := by
  cases ls with
  | nil => rfl
  | cons l ls =>
    have hl : (F.read l).isSome := h l rfl
    simp [own, Option.isNone_eq_false_iff.mpr hl]

/-- The lines of a block are lines, the first one without its mark. -/
theorem mem_block {b : κ × List (List α)} {l : List α} (hb : b ∈ F.blocks ls) (hl : l ∈ b.2) :
    l ∈ ls ∨ ∃ k, F.mark k ++ l ∈ ls := by
  induction ls with
  | nil => cases hb
  | cons m ms ih =>
    have hrest : b ∈ F.blocks ms → l ∈ m :: ms ∨ ∃ k, F.mark k ++ l ∈ m :: ms := fun h =>
      (ih h).imp (List.mem_cons_of_mem _) fun ⟨k, hk⟩ => ⟨k, List.mem_cons_of_mem _ hk⟩
    rw [blocks] at hb
    cases hm : F.read m with
    | none =>
      rw [hm] at hb
      exact hrest hb
    | some y =>
      obtain ⟨k, t⟩ := y
      rw [hm, List.mem_cons] at hb
      rcases hb with rfl | hb
      · rcases List.mem_cons.mp hl with rfl | hl
        · exact Or.inr ⟨k, F.read_eq_some_iff.mp hm ▸ List.mem_cons_self ..⟩
        · exact Or.inl (List.mem_cons_of_mem _ ((List.takeWhile_prefix _).subset hl))
      · exact hrest hb

theorem block_ne_nil {b : κ × List (List α)} (hb : b ∈ F.blocks ls) : b.2 ≠ [] := by
  induction ls with
  | nil => cases hb
  | cons m ms ih =>
    rw [blocks] at hb
    cases hm : F.read m with
    | none =>
      rw [hm] at hb
      exact ih hb
    | some y =>
      rw [hm, List.mem_cons] at hb
      rcases hb with rfl | hb
      · exact List.cons_ne_nil _ _
      · exact ih hb

/-! ### Items and their pieces -/

variable [DecidableEq α] (F)

/-- The lines that are written for an item. -/
def lines (x : κ × List α) : List (List α) := F.under x.1 (x.2.splitOn F.sep)

/-- The pieces of an item: its text, cut before each line that begins with a mark. -/
def cut (x : κ × List α) : List (κ × List α) := (F.blocks (F.lines x)).map fun b =>
    (b.1, [F.sep].intercalate b.2)

/-- None of the lines of its text, from the second one on, begins with a mark. -/
def Plain (x : κ × List α) : Prop := ∀ l ∈ (x.2.splitOn F.sep).tail, F.read l = none

instance (x : κ × List α) : Decidable (F.Plain x) := inferInstanceAs (Decidable (∀ l ∈ _, _))

variable {F}

theorem exists_lines (F : Format α κ) (x : κ × List α) :
    ∃ l ls, x.2.splitOn F.sep = l :: ls ∧ F.lines x = (F.mark x.1 ++ l) :: ls := by
  obtain ⟨l, ls, h⟩ := List.exists_cons_of_ne_nil (List.splitOn_ne_nil F.sep x.2)
  exact ⟨l, ls, h, by rw [lines, h, under]⟩

theorem lines_ne_nil (F : Format α κ) (x : κ × List α) : F.lines x ≠ [] := by
  obtain ⟨l, ls, -, h⟩ := F.exists_lines x
  rw [h]
  exact List.cons_ne_nil _ _

/-- No line of a text holds a separator. -/
theorem sep_notMem_of_mem_splitOn {s : α} {t l : List α} (hl : l ∈ t.splitOn s) : s ∉ l := by
  induction t generalizing l with
  | nil =>
    rw [List.splitOn_nil, List.mem_singleton] at hl
    rw [hl]
    exact List.not_mem_nil
  | cons a t ih =>
    obtain ⟨m, ms, hm⟩ := List.exists_cons_of_ne_nil (List.splitOn_ne_nil s t)
    rw [List.splitOn_cons_eq_if_modifyHead, hm] at hl
    rw [hm] at ih
    split_ifs at hl with ha
    · rcases List.mem_cons.mp hl with rfl | hl
      · exact List.not_mem_nil
      · exact ih hl
    · rw [List.modifyHead_cons, List.mem_cons] at hl
      rcases hl with rfl | hl
      · intro hmem
        rcases List.mem_cons.mp hmem with rfl | hmem
        · simp at ha
        · exact ih (List.mem_cons_self ..) hmem
      · exact ih (List.mem_cons_of_mem _ hl)

theorem sep_notMem_of_mem_lines {l : List α} (hl : l ∈ F.lines x) : F.sep ∉ l := by
  obtain ⟨m, ms, hsplit, hlines⟩ := F.exists_lines x
  have hno : ∀ l ∈ m :: ms, F.sep ∉ l := fun l hl => sep_notMem_of_mem_splitOn (hsplit ▸ hl)
  rw [hlines, List.mem_cons] at hl
  rcases hl with rfl | hl
  · intro hmem
    rcases List.mem_append.mp hmem with hmem | hmem
    · exact F.sep_notMem _ hmem
    · exact hno m (List.mem_cons_self ..) hmem
  · exact hno l (List.mem_cons_of_mem _ hl)

/-- What is written is the lines of the items, joined. -/
theorem write_eq (F : Format α κ) (items : List (κ × List α)) :
    F.write items = [F.sep].intercalate (items.flatMap F.lines) := by
  rw [intercalate_flatMap F.lines_ne_nil, write]
  refine congrArg _ (List.map_congr_left fun x _ => ?_)
  rw [lines, intercalate_under (List.splitOn_ne_nil _ _), List.intercalate_splitOn]

/-- The lines that are written can be told apart. -/
theorem splitOn_write (h : items ≠ []) : (F.write items).splitOn F.sep = items.flatMap F.lines := by
  rw [write_eq, List.splitOn_intercalate]
  · intro l hl
    obtain ⟨x, -, hl⟩ := List.mem_flatMap.mp hl
    exact sep_notMem_of_mem_lines hl
  · obtain ⟨x, items, rfl⟩ := List.exists_cons_of_ne_nil h
    simp [lines_ne_nil]

/-! ### Cutting -/

theorem begins_flatMap_lines (F : Format α κ) (items : List (κ × List α)) :
    F.Begins (items.flatMap F.lines) := by
  cases items with
  | nil => exact fun l hl => nomatch hl
  | cons x items =>
    obtain ⟨l, ls, -, h⟩ := F.exists_lines x
    intro m hm
    rw [List.flatMap_cons, h, List.cons_append, List.head?_cons, Option.mem_some_iff] at hm
    rw [← hm, read_mark]
    rfl

/-- The pieces of the items are those of the lines that are written. -/
theorem flatMap_cut (F : Format α κ) (items : List (κ × List α)) :
    items.flatMap F.cut = (F.blocks (items.flatMap F.lines)).map fun b =>
        (b.1, [F.sep].intercalate b.2) := by
  induction items with
  | nil => rfl
  | cons x items ih =>
    rw [List.flatMap_cons, List.flatMap_cons, blocks_append (F.begins_flatMap_lines items),
      List.map_append, ← ih]
    rfl

/-- The pieces of the items are written as the items are. -/
theorem write_flatMap_cut (F : Format α κ) (items : List (κ × List α)) :
    F.write (items.flatMap F.cut) = F.write items := by
  have hlines : (items.flatMap F.cut).flatMap F.lines = items.flatMap F.lines := by
    have hblock : ∀ b ∈ F.blocks (items.flatMap F.lines),
        F.lines (b.1, [F.sep].intercalate b.2) = F.under b.1 b.2 := by
      intro b hb
      rw [lines, List.splitOn_intercalate _ _ (block_ne_nil hb)]
      intro l hl hmem
      have hno : ∀ m ∈ items.flatMap F.lines, F.sep ∉ m := fun m hm => by
        obtain ⟨x, -, hm⟩ := List.mem_flatMap.mp hm
        exact sep_notMem_of_mem_lines hm
      rcases mem_block hb hl with hl | ⟨k, hl⟩
      · exact hno l hl hmem
      · exact hno _ hl (List.mem_append_right _ hmem)
    have hall := F.own_append_blocks (items.flatMap F.lines)
    rw [own_of_begins (F.begins_flatMap_lines items), List.nil_append] at hall
    rw [flatMap_cut, List.flatMap_map]
    refine Eq.trans ?_ hall
    exact congrArg List.flatten (List.map_congr_left hblock)
  rw [write_eq, write_eq, hlines]

/-- **Unique up to the cuts**: two lists of items are written alike exactly if they are cut into the
same pieces. -/
theorem write_eq_iff :
    F.write items = F.write items' ↔ items.flatMap F.cut = items'.flatMap F.cut := by
  constructor
  · intro h
    by_cases hnil : items = []
    · rw [hnil, show F.write [] = [] from rfl] at h
      rw [hnil, write_eq_nil_iff.mp h.symm]
    · have hnil' : items' ≠ [] := fun he =>
        hnil (write_eq_nil_iff.mp (h.trans (write_eq_nil_iff.mpr he)))
      rw [flatMap_cut, flatMap_cut, ← splitOn_write hnil, ← splitOn_write hnil', h]
  · intro h
    rw [← F.write_flatMap_cut items, h, F.write_flatMap_cut]

/-! ### Plain items -/

theorem Plain.cut_eq (h : F.Plain x) : F.cut x = [x] := by
  obtain ⟨l, ls, hsplit, hlines⟩ := F.exists_lines x
  have hown : ∀ ms : List (List α), (∀ m ∈ ms, F.read m = none) → F.own ms = ms ∧
      F.blocks ms = [] := by
    intro ms hms
    induction ms with
    | nil => exact ⟨rfl, rfl⟩
    | cons m ms ih =>
      have hm := hms m (List.mem_cons_self ..)
      obtain ⟨hown, hblocks⟩ := ih fun y hy => hms y (List.mem_cons_of_mem _ hy)
      rw [own] at hown ⊢
      rw [List.takeWhile_cons, hown, blocks, hm]
      exact ⟨rfl, hblocks⟩
  obtain ⟨hown, hblocks⟩ := hown ls (by rw [Plain, hsplit] at h; exact h)
  have htext : [F.sep].intercalate (l :: ls) = x.2 := hsplit ▸ List.intercalate_splitOn F.sep
  rw [cut, hlines, blocks, read_mark]
  simp only [hown, hblocks, List.map_cons, List.map_nil, htext]

/-- **Plain items are written apart.** -/
theorem write_injOn (F : Format α κ) : Set.InjOn F.write {items | ∀ x ∈ items, F.Plain x} := by
  intro items h items' h' heq
  have hcut : ∀ {items : List (κ × List α)}, (∀ x ∈ items, F.Plain x) →
      items.flatMap F.cut = items := by
    intro items h
    induction items with
    | nil => rfl
    | cons x items ih =>
      rw [List.flatMap_cons, (h x (List.mem_cons_self ..)).cut_eq,
        ih fun y hy => h y (List.mem_cons_of_mem _ hy)]
      rfl
  rw [← hcut h, ← hcut h', write_eq_iff.mp heq]

end Format

end Coding
