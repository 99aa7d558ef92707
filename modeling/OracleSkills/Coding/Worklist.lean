import Mathlib.Data.List.Basic

/-!
# Going through a tree with a stack

A tree is gone through by a loop: the last item is taken from a stack, something is done with it,
and its children are put on the stack. `Branching.walk_eq` says that this is the recursion: each
node of the tree is come to once, in the order in which it stands before its children, and they
stand from the last to the first.
-/

namespace Coding

universe u v

variable {α : Type u} {β : Type v}

/-- What the items of a list weigh together. -/
def load (weight : α → ℕ) : List α → ℕ
  | [] => 0
  | a :: as => weight a + load weight as

theorem load_append (weight : α → ℕ) (as bs : List α) :
    load weight (as ++ bs) = load weight as + load weight bs := by
  induction as with
  | nil => rw [List.nil_append, load, Nat.zero_add]
  | cons a as ih => rw [List.cons_append, load, load, ih, Nat.add_assoc]

theorem load_reverse (weight : α → ℕ) (as : List α) : load weight as.reverse = load weight as := by
  induction as with
  | nil => rfl
  | cons a as ih =>
    rw [List.reverse_cons, load_append, ih, load, load, load]
    omega

theorem weight_le_load {weight : α → ℕ} {as : List α} {a : α} (h : a ∈ as) :
    weight a ≤ load weight as := by
  induction h with
  | head as => exact Nat.le_add_right _ _
  | tail b _ ih => exact Nat.le_trans ih (Nat.le_add_left _ _)

/-- Items that have children, which weigh less than the item together. -/
structure Branching (α : Type u) where
  children : α → List α
  weight : α → ℕ
  load_lt : ∀ a, load weight (children a) < weight a

namespace Branching

variable (B : Branching α)

theorem weight_child {a b : α} (h : b ∈ B.children a) : B.weight b < B.weight a :=
  Nat.lt_of_le_of_lt (weight_le_load h) (B.load_lt a)

/-- `stack.extend(children)`, with the top of the stack first. -/
def extend (a : α) (stack : List α) : List α := (B.children a).reverse ++ stack

/-- What a stack weighs when an item has been replaced by its children. -/
theorem load_extend (a : α) (stack : List α) :
    load B.weight (B.extend a stack) < load B.weight (a :: stack) := by
  have hlt := B.load_lt a
  rw [extend, load_append, load_reverse, load]
  omega

/-- The loop: `f` is done with the item that is taken from the stack. -/
def walk (f : β → α → β) (acc : β) : List α → β
  | [] => acc
  | a :: stack => walk f (f acc a) (B.extend a stack)
termination_by stack => load B.weight stack
decreasing_by exact B.load_extend a stack

/-- The nodes of a tree, each before its children, and of those the last one first. -/
def nodes (a : α) : List α := a :: (B.children a).reverse.flatMap fun b => nodes b
termination_by B.weight a
decreasing_by
  rename_i hb
  exact B.weight_child hb

theorem nodes_eq (a : α) : B.nodes a = a :: (B.children a).reverse.flatMap B.nodes := by rw [nodes]

/-- **The loop is the recursion.** -/
theorem walk_eq (f : β → α → β) (acc : β) (stack : List α) :
    B.walk f acc stack = (stack.flatMap B.nodes).foldl f acc := by
  induction acc, stack using walk.induct B f with
  | case1 acc => rw [walk, List.flatMap_nil, List.foldl_nil]
  | case2 acc a stack ih =>
    rw [walk, ih, extend, List.flatMap_cons, List.flatMap_append, nodes_eq, List.cons_append,
      List.foldl_cons]

/-- What is in a tree: the tree, and what is in its children. -/
inductive Within (x : α) : α → Prop
  | here : Within x x
  | child {a b : α} (hb : b ∈ B.children a) (h : Within x b) : Within x a

/-- **Every node is come to.** -/
theorem mem_nodes_iff {x a : α} : x ∈ B.nodes a ↔ B.Within x a := by
  constructor
  · intro h
    induction a using nodes.induct B with
    | case1 a ih =>
      rw [nodes_eq, List.mem_cons, List.mem_flatMap] at h
      rcases h with rfl | ⟨b, hb, hx⟩
      · exact .here
      · exact .child (List.mem_reverse.mp hb) (ih b (List.mem_reverse.mp hb) hx)
  · intro h
    induction h with
    | here => exact B.nodes_eq x ▸ List.mem_cons_self ..
    | child hb _ ih =>
      rw [nodes_eq]
      exact List.mem_cons_of_mem _ (List.mem_flatMap.mpr ⟨_, List.mem_reverse.mpr hb, ih⟩)

end Branching

end Coding
