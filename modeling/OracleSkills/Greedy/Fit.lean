import Mathlib.Algebra.Order.Group.Defs
import Mathlib.Data.List.Basic

/-!
# Greedy fits

Items that have a cost are offered one after another, and each is taken if its cost is within what
is left to spend. What is taken is never too much (`taken_le`). If no cost is negative, what is left
at the end is less than the cost of each item that was passed over (`left_lt`), and an item that was
taken after another one had been passed over costs less than that one (`pairwise_fit`). Items that
are offered by descending keys are sorted stably, so that those of one key stay in their order
(`pairwise_descending`).
-/

namespace Greedy

universe u v w

section Sums

variable {α : Type u} {β : Type v} {M : Type w} [AddCommMonoid M] {f g : α → M}

/-- The sum of `f` over a list. -/
def total (f : α → M) : List α → M
  | [] => 0
  | a :: as => f a + total f as

theorem total_congr {as : List α} (h : ∀ a ∈ as, f a = g a) : total f as = total g as := by
  induction as with
  | nil => rfl
  | cons a as ih => rw [total, total, h a (List.mem_cons_self ..),
    ih fun b hb => h b (List.mem_cons_of_mem _ hb)]

theorem total_perm {as bs : List α} (h : as.Perm bs) : total f as = total f bs := by
  induction h with
  | nil => rfl
  | cons a _ ih => rw [total, total, ih]
  | swap a b as => rw [total, total, total, total, add_left_comm]
  | trans _ _ ih ih' => rw [ih, ih']

theorem total_map (f : β → M) (g : α → β) (as : List α) :
    total f (as.map g) = total (fun a => f (g a)) as := by
  induction as with
  | nil => rfl
  | cons a as ih => rw [List.map_cons, total, total, ih]

theorem total_add (f g : α → M) (as : List α) :
    total (fun a => f a + g a) as = total f as + total g as := by
  induction as with
  | nil => exact (add_zero 0).symm
  | cons a as ih => rw [total, total, total, ih, add_add_add_comm]

theorem total_filter (f : α → M) (p : α → Bool) (as : List α) :
    total f (as.filter p) = total (fun a => if p a then f a else 0) as := by
  induction as with
  | nil => rfl
  | cons a as ih =>
    rw [List.filter_cons, total]
    split_ifs
    · rw [total, ih]
    · rw [ih, zero_add]

end Sums

section Fits

variable {α : Type u} {β : Type v} {M : Type w} [AddCommGroup M] [LinearOrder M] {cost : α → M}

/-- A greedy fit: the items, each with whether it is taken. -/
def fit (cost : α → M) : M → List α → List (α × Bool)
  | _, [] => []
  | spare, a :: as =>
    if cost a ≤ spare then (a, true) :: fit cost (spare - cost a) as else
    (a, false) :: fit cost spare as

/-- What has been spent. -/
def taken (cost : α → M) (ds : List (α × Bool)) : M :=
  total (fun d => if d.2 then cost d.1 else 0) ds

theorem map_fst_fit (cost : α → M) (spare : M) (as : List α) :
    (fit cost spare as).map Prod.fst = as := by
  induction as generalizing spare with
  | nil => rfl
  | cons a as ih =>
    rw [fit]
    split_ifs <;> rw [List.map_cons, ih]

/-- A fit of items that are seen through a function. -/
theorem fit_map (cost : β → M) (g : α → β) (spare : M) (as : List α) :
    fit cost spare (as.map g) = (fit (fun a => cost (g a)) spare as).map fun d => (g d.1, d.2) := by
  induction as generalizing spare with
  | nil => rfl
  | cons a as ih =>
    rw [List.map_cons, fit, fit]
    split_ifs <;> rw [List.map_cons, ih]

variable [IsOrderedAddMonoid M]

/-- **No more is spent than there was.** -/
theorem taken_le {spare : M} (h : 0 ≤ spare) (as : List α) :
    taken cost (fit cost spare as) ≤ spare := by
  induction as generalizing spare with
  | nil => exact h
  | cons a as ih =>
    rw [fit]
    split_ifs with hc
    · have hrest := ih (sub_nonneg.mpr hc)
      rw [taken, total, if_pos rfl]
      exact le_sub_iff_add_le'.mp hrest
    · rw [taken, total, if_neg Bool.false_ne_true, zero_add]
      exact ih h

/-- What is taken costs no more than there was. -/
theorem cost_le_of_taken {spare : M} {as : List α} (hcost : ∀ a ∈ as, 0 ≤ cost a) {d : α × Bool}
    (hd : d ∈ fit cost spare as) (htaken : d.2 = true) : cost d.1 ≤ spare := by
  induction as generalizing spare with
  | nil => cases hd
  | cons a as ih =>
    have hrest := fun b hb => hcost b (List.mem_cons_of_mem _ hb)
    rw [fit] at hd
    split_ifs at hd with hc
    · rcases List.mem_cons.mp hd with rfl | hd
      · exact hc
      · exact (ih hrest hd).trans (sub_le_self _ (hcost a (List.mem_cons_self ..)))
    · rcases List.mem_cons.mp hd with rfl | hd
      · cases htaken
      · exact ih hrest hd

theorem taken_nonneg {ds : List (α × Bool)} (hcost : ∀ d ∈ ds, 0 ≤ cost d.1) :
    0 ≤ taken cost ds := by
  induction ds with
  | nil => exact le_rfl
  | cons d ds ih =>
    have hrest := ih fun e he => hcost e (List.mem_cons_of_mem _ he)
    rw [taken, total]
    split_ifs
    · exact add_nonneg (hcost d (List.mem_cons_self ..)) hrest
    · rw [zero_add]
      exact hrest

/-- **What is left is too little** for each item that was passed over. -/
theorem left_lt {spare : M} {as : List α} (hcost : ∀ a ∈ as, 0 ≤ cost a) {d : α × Bool}
    (hd : d ∈ fit cost spare as)
    (hpassed : d.2 = false) : spare - taken cost (fit cost spare as) < cost d.1 := by
  induction as generalizing spare with
  | nil => cases hd
  | cons a as ih =>
    have hrest := fun b hb => hcost b (List.mem_cons_of_mem _ hb)
    rw [fit] at hd ⊢
    split_ifs at hd ⊢ with hc
    · rcases List.mem_cons.mp hd with rfl | hd
      · cases hpassed
      · rw [taken, total, if_pos rfl, ← sub_sub]
        exact ih hrest hd
    · rw [taken, total, if_neg Bool.false_ne_true, zero_add]
      rcases List.mem_cons.mp hd with rfl | hd
      · have hnonneg : 0 ≤ taken cost (fit cost spare as) := taken_nonneg fun e he =>
          hrest e.1 (map_fst_fit cost spare as ▸ List.mem_map_of_mem he)
        exact (sub_le_self _ hnonneg).trans_lt (not_le.mp hc)
      · exact ih hrest hd

/-- **What is taken after an item was passed over costs less.** -/
theorem pairwise_fit {spare : M} {as : List α} (hcost : ∀ a ∈ as, 0 ≤ cost a) :
    (fit cost spare as).Pairwise fun d e => d.2 = false → e.2 = true → cost e.1 < cost d.1 := by
  induction as generalizing spare with
  | nil => exact List.Pairwise.nil
  | cons a as ih =>
    have hrest := fun b hb => hcost b (List.mem_cons_of_mem _ hb)
    rw [fit]
    split_ifs with hc
    · exact List.pairwise_cons.mpr ⟨fun e _ h => (by cases h), ih hrest⟩
    · exact List.pairwise_cons.mpr ⟨fun e he _ htaken =>
        (cost_le_of_taken hrest he htaken).trans_lt (not_le.mp hc), ih hrest⟩

end Fits

section Order

variable {α : Type u} {P : Type v} [LinearOrder P] {key : α → P} {R : α → α → Prop} {l : List α}

/-- Items in descending order of their keys, as a stable sort gives them. -/
def descending (key : α → P) (l : List α) : List α := l.mergeSort fun a b => decide (key b ≤ key a)

theorem descending_perm (key : α → P) (l : List α) :
    (descending key l).Perm l := List.mergeSort_perm l _

/-- Items of one key stay in their order. -/
theorem filter_descending (key : α → P) (l : List α) (k : P) :
    (descending key l).filter (fun a => decide (key a = k)) = l.filter fun a =>
        decide (key a = k) := by
  have hsame : (l.filter fun a => decide (key a = k)).Pairwise fun a b =>
      decide (key b ≤ key a) = true := by
    refine List.pairwise_of_forall_mem_list fun a ha b hb => decide_eq_true ?_
    rw [of_decide_eq_true (List.mem_filter.mp ha).2, of_decide_eq_true (List.mem_filter.mp hb).2]
  have hsub : (l.filter fun a => decide (key a = k)).Sublist (descending key l) :=
    List.sublist_mergeSort
      (fun _ _ _ hab hbc => decide_eq_true ((of_decide_eq_true hbc).trans (of_decide_eq_true hab)))
      (fun a b => by simpa using le_total (key b) (key a)) hsame List.filter_sublist
  have hfilter := hsub.filter fun a => decide (key a = k)
  simp only [List.filter_filter, Bool.and_self] at hfilter
  refine (hfilter.eq_of_length ?_).symm
  exact ((descending_perm key l).filter _).length_eq.symm

/-- **A stable sort**: of two items, the one with the higher key comes first, or the one that came
first. -/
theorem pairwise_descending (key : α → P) (hl : l.Pairwise R) :
    (descending key l).Pairwise fun a b => key b < key a ∨ key b = key a ∧ R a b := by
  have hle : (descending key l).Pairwise fun a b => decide (key b ≤ key a) = true :=
    List.pairwise_mergeSort
      (fun _ _ _ hab hbc => decide_eq_true ((of_decide_eq_true hbc).trans (of_decide_eq_true hab)))
      (fun a b => by simpa using le_total (key b) (key a)) l
  rw [List.pairwise_iff_forall_sublist] at hle ⊢
  intro a b hab
  rcases (of_decide_eq_true (hle hab)).lt_or_eq with hlt | heq
  · exact Or.inl hlt
  · refine Or.inr ⟨heq, ?_⟩
    have hsub := hab.filter fun c => decide (key c = key a)
    rw [filter_descending, List.filter_cons_of_pos (by simp),
      List.filter_cons_of_pos (by simp [heq]), List.filter_nil] at hsub
    exact List.pairwise_iff_forall_sublist.mp hl (hsub.trans List.filter_sublist)

end Order

end Greedy
