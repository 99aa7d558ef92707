import OracleSkills.Coding.MarkedLines

/-!
# Lists in blocks, each under a head

Some items of a list are heads. A head begins a block, and the items up to the next head belong to
it; what comes before the first head belongs to none. `exists_headed` cuts a list into what is
skipped and its blocks, and the lemmas after it say what the heads are (`filter_flatMap_items`) and
what is left from the first of them on (`dropWhile_flatMap_items`).
-/

namespace Coding

variable {α : Type*} {isHead : α → Bool}

/-- A block: a head, and items that are none. -/
structure Headed (isHead : α → Bool) where
  head : α
  more : List α
  isHead_head : isHead head = true
  isHead_more : ∀ a ∈ more, isHead a = false

namespace Headed

def items (b : Headed isHead) : List α := b.head :: b.more

theorem items_ne_nil (b : Headed isHead) : b.items ≠ [] := List.cons_ne_nil _ _

theorem filter_items (b : Headed isHead) : b.items.filter isHead = [b.head] := by
  have hmore : b.more.filter isHead = [] :=
    List.filter_eq_nil_iff.mpr fun a ha => by rw [b.isHead_more a ha]; exact Bool.false_ne_true
  rw [items, List.filter_cons_of_pos b.isHead_head, hmore]

end Headed

open Headed

/-- **A list is what is skipped before the first head, and blocks.** -/
theorem exists_headed (isHead : α → Bool) (as : List α) :
    ∃ (skipped : List α) (bs : List (Headed isHead)),
    as = skipped ++ bs.flatMap items ∧ ∀ a ∈ skipped, isHead a = false := by
  induction as with
  | nil => exact ⟨[], [], rfl, fun a ha => absurd ha List.not_mem_nil⟩
  | cons a as ih =>
    obtain ⟨skipped, bs, rfl, hskipped⟩ := ih
    cases ha : isHead a with
    | true =>
      -- what was skipped is the rest of the block of the new head
      refine ⟨[], ⟨a, skipped, ha, hskipped⟩ :: bs, ?_, fun a ha => absurd ha List.not_mem_nil⟩
      simp [items]
    | false =>
      refine ⟨a :: skipped, bs, rfl, fun b hb => ?_⟩
      rcases List.mem_cons.mp hb with rfl | hb
      · exact ha
      · exact hskipped b hb

variable {skipped : List α} (bs : List (Headed isHead))

/-- The heads are the items that begin the blocks. -/
theorem filter_flatMap_items (h : ∀ a ∈ skipped, isHead a = false) :
    (skipped ++ bs.flatMap items).filter isHead = bs.map head := by
  have hskipped : skipped.filter isHead = [] :=
    List.filter_eq_nil_iff.mpr fun a ha => by rw [h a ha]; exact Bool.false_ne_true
  rw [List.filter_append, hskipped, List.nil_append]
  induction bs with
  | nil => rfl
  | cons b bs ih => rw [List.flatMap_cons, List.filter_append, filter_items, ih, List.map_cons,
    List.singleton_append]

/-- From the first head on there are the blocks. -/
theorem dropWhile_flatMap_items (h : ∀ a ∈ skipped, isHead a = false) :
    (skipped ++ bs.flatMap items).dropWhile (fun a => !isHead a) = bs.flatMap items := by
  rw [List.dropWhile_append_of_pos fun a ha => by rw [h a ha]; rfl]
  cases bs with
  | nil => rfl
  | cons b bs => simp [items, b.isHead_head]

end Coding
