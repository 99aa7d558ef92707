import Mathlib.Data.List.Basic

/-!
# Backtracking matchers

A regular expression is run on a place of a text, with what is to be done at the place where its
match ends (`exec`). Alternatives are tried in their order and a repetition as often as it goes, and
where what follows fails the next way is taken. So the first match is the one that such an engine
reports, and what it has captured is known where it ends.

A repetition of a class has one way only if what follows cannot begin with the class: to its end
(`exec_star_one`). A repetition of anything is once more of it, or nothing (`exec_star`).
-/

namespace Regex

universe u v

variable {α : Type u} {β : Type v}

/-- A place in a text: what is before it, backwards, and what is after it. -/
structure Place (α : Type u) where
  before : List α
  after : List α

/-- The place behind the longest run of `p`. -/
def Place.skip (p : α → Bool) (x : Place α) : Place α :=
  ⟨(x.after.takeWhile p).reverse ++ x.before, x.after.dropWhile p⟩

/-- What is between two places. -/
def Place.upTo (x y : Place α) : List α := x.after.take (x.after.length - y.after.length)

inductive Re (α : Type u) where
  /-- A character of a class. -/
  | one (p : α → Bool)
  /-- `\b`, between a character of the class of words and what is none. -/
  | boundary (p : α → Bool)
  | eps
  | seq (a b : Re α)
  | alt (a b : Re α)
  /-- `a*`. -/
  | star (a : Re α)

namespace Re

/-- `a+`. -/
def plus (a : Re α) : Re α := seq a (star a)

/-- `a?`. -/
def opt (a : Re α) : Re α := alt a eps

/-- A constant text. -/
def lit [DecidableEq α] : List α → Re α
  | [] => eps
  | c :: t => seq (one fun d => decide (d = c)) (lit t)

end Re

/-- As many steps as there is text for, each of which goes on, and then what follows. -/
def iterate (step : (Place α → Option β) → Place α → Option β) : ℕ → (Place α → Option β) →
    Place α → Option β
  | 0, k, x => k x
  | n + 1, k, x =>
    (step (fun y => if y.after.length < x.after.length then iterate step n k y else none) x).or
    (k x)

/-- The first way to match that what follows, `k`, accepts. -/
def exec : Re α → (Place α → Option β) → Place α → Option β
  | .one _, _, ⟨_, []⟩ => none
  | .one p, k, ⟨before, c :: after⟩ => if p c then k ⟨c :: before, after⟩ else none
  | .boundary p, k, x => if x.before.head?.any p ≠ x.after.head?.any p then k x else none
  | .eps, k, x => k x
  | .seq a b, k, x => exec a (exec b k) x
  | .alt a b, k, x => (exec a k x).or (exec b k x)
  | .star a, k, x => iterate (exec a) x.after.length k x

@[simp] theorem exec_one_cons (p : α → Bool) (k : Place α → Option β) (before after : List α)
    (c : α) :
    exec (.one p) k ⟨before, c :: after⟩ = if p c then k ⟨c :: before, after⟩ else none := rfl

@[simp] theorem exec_seq (a b : Re α) (k : Place α → Option β) (x : Place α) :
    exec (.seq a b) k x = exec a (exec b k) x := rfl

/-- The first place from `x` on where there is a match. -/
def search (f : Place α → Option β) : List α → List α → Option β
  | before, [] => f ⟨before, []⟩
  | before, c :: after => (f ⟨before, c :: after⟩).or (search f (c :: before) after)

/-- An expression with a group in it. -/
structure Grouped (α : Type u) where
  head : Re α
  group : Re α
  tail : Re α

/-- What the group captures, and where the match ends. -/
def Grouped.run (r : Grouped α) : Place α → Option (List α × Place α) :=
  exec r.head fun x => exec r.group (fun y => exec r.tail (fun z => some (x.upTo y, z)) y) x

/-- What the group captures. -/
def Grouped.capture (r : Grouped α) : Place α → Option (List α) :=
  exec r.head fun x => exec r.group (fun y => exec r.tail (fun _ => some (x.upTo y)) y) x

/-- `search`, as the text of the group. -/
def Grouped.search (r : Grouped α) (t : List α) : Option (List α) := Regex.search r.capture [] t

/-- At most `n` matches one after another, none of which is empty. -/
def Grouped.matches (r : Grouped α) : ℕ → Place α → List (List α)
  | 0, _ => []
  | n + 1, x =>
    match Regex.search r.run x.before x.after with
    | none => []
    | some (g, y) => g :: r.matches n y

/-- `findall`. -/
def Grouped.findall (r : Grouped α) (t : List α) : List (List α) := r.matches t.length ⟨[], t⟩

/-! ### Repetitions -/

section

variable {k : Place α → Option β} {x : Place α}

/-- Where no place is accepted, there is no match. -/
theorem exec_none (r : Re α) (x : Place α) : exec r (fun _ => (none : Option β)) x = none := by
  induction r generalizing x with
  | one p =>
    obtain ⟨before, _ | ⟨c, after⟩⟩ := x
    · rfl
    · exact ite_self _
  | boundary p => exact ite_self _
  | eps => rfl
  | seq a b iha ihb =>
    have hb : exec b (fun _ => (none : Option β)) = fun _ => none := funext ihb
    rw [exec_seq, hb]
    exact iha x
  | alt a b iha ihb =>
    show (exec a _ x).or (exec b _ x) = none
    rw [iha, ihb, Option.or_none]
  | star a iha =>
    have hsteps : ∀ n x, iterate (exec a) n (fun _ => (none : Option β)) x = none := by
      intro n
      induction n with
      | zero => exact fun _ => rfl
      | succ n ih =>
        intro x
        simp only [iterate, ih, ite_self, iha, Option.or_none]
    exact hsteps _ x

/-- More steps than there is text for make no difference. -/
theorem iterate_eq (a : Re α) {n m : ℕ} (hn : x.after.length ≤ n) (hm : x.after.length ≤ m) :
    iterate (exec a) n k x = iterate (exec a) m k x := by
  have hend : ∀ {m : ℕ} {x : Place α}, x.after.length = 0 → iterate (exec a) m k x = k x := by
    intro m x hx
    cases m with
    | zero => rfl
    | succ m => simp only [iterate, hx, Nat.not_lt_zero, if_false, exec_none, Option.none_or]
  induction n generalizing m x with
  | zero => rw [hend (Nat.le_zero.mp hn), hend (Nat.le_zero.mp hn)]
  | succ n ih =>
    cases m with
    | zero => rw [hend (Nat.le_zero.mp hm), hend (Nat.le_zero.mp hm)]
    | succ m =>
      have hrest : (fun y : Place α => if y.after.length < x.after.length then
          iterate (exec a) n k y else none) =
          fun y => if y.after.length < x.after.length then iterate (exec a) m k y else none := by
        funext y
        split_ifs with hlt
        · exact ih (by omega) (by omega)
        · rfl
      rw [iterate, iterate, hrest]

/-- **A repetition** is one more, with what is left, or nothing. -/
theorem exec_star (a : Re α) (k : Place α → Option β) (x : Place α) :
    exec (.star a) k x =
      (exec a (fun y => if y.after.length < x.after.length then exec (.star a) k y else none) x).or
        (k x) := by
  have hstep : iterate (exec a) (x.after.length + 1) k x = exec (.star a) k x :=
    iterate_eq a (Nat.le_succ _) (Nat.le_refl _)
  rw [← hstep, iterate]
  congr 2
  funext y
  split_ifs with hlt
  · exact iterate_eq a (Nat.le_of_lt hlt) (Nat.le_refl _)
  · rfl

variable {p : α → Bool}

theorem skip_cons_of_pos {before after : List α} {c : α} (hc : p c = true) :
    Place.skip p ⟨before, c :: after⟩ = Place.skip p ⟨c :: before, after⟩ := by
  rw [Place.skip, Place.skip, List.takeWhile_cons_of_pos hc, List.dropWhile_cons_of_pos hc,
    List.reverse_cons, List.append_assoc]
  rfl

theorem skip_cons_of_neg {before after : List α} {c : α} (hc : p c = false) :
    Place.skip p ⟨before, c :: after⟩ = ⟨before, c :: after⟩ := by
  rw [Place.skip, List.takeWhile_cons_of_neg (by simp [hc]),
    List.dropWhile_cons_of_neg (by simp [hc])]
  rfl

theorem exec_star_one_cons {before after : List α} {c : α} :
    exec (.star (.one p)) k ⟨before, c :: after⟩ =
      (if p c = true then exec (.star (.one p)) k ⟨c :: before, after⟩ else none).or
        (k ⟨before, c :: after⟩) := by
  rw [exec_star, exec_one_cons]
  simp only [List.length_cons, Nat.lt_succ_self, if_true]

/-- **A class is repeated to the end of its run**, where what follows begins with none of it. -/
theorem exec_star_one (hk : ∀ y c, y.after.head? = some c → p c = true → k y = none) (x : Place α) :
    exec (.star (.one p)) k x = k (x.skip p) := by
  obtain ⟨before, after⟩ := x
  induction after generalizing before with
  | nil => rfl
  | cons c after ih =>
    rw [exec_star_one_cons]
    cases hc : p c with
    | true => rw [if_pos rfl, ih, hk ⟨before, c :: after⟩ c rfl hc, Option.or_none,
      skip_cons_of_pos hc]
    | false => rw [if_neg Bool.false_ne_true, Option.none_or, skip_cons_of_neg hc]

/-- The same of `+`: there is one at least. -/
theorem exec_plus_one (hk : ∀ y c, y.after.head? = some c → p c = true → k y = none) (x : Place α) :
    exec (.plus (.one p)) k x = if x.after.head?.any p then k (x.skip p) else none := by
  obtain ⟨before, _ | ⟨c, after⟩⟩ := x
  · rfl
  · rw [Re.plus, exec_seq, exec_one_cons, exec_star_one hk]
    cases hc : p c with
    | true => rw [if_pos rfl, skip_cons_of_pos hc, List.head?_cons, Option.any_some, hc, if_pos rfl]
    | false => rw [if_neg Bool.false_ne_true, List.head?_cons, Option.any_some, hc,
      if_neg Bool.false_ne_true]

/-- Where the end of the run is accepted, it is taken. -/
theorem exec_star_one_of_isSome (hk : (k (x.skip p)).isSome = true) :
    exec (.star (.one p)) k x = k (x.skip p) := by
  obtain ⟨before, after⟩ := x
  induction after generalizing before with
  | nil => rfl
  | cons c after ih =>
    rw [exec_star_one_cons]
    cases hc : p c with
    | true =>
      rw [skip_cons_of_pos hc] at hk ⊢
      obtain ⟨b, hb⟩ := Option.isSome_iff_exists.mp hk
      rw [if_pos rfl, ih _ hk, hb, Option.some_or]
    | false => rw [if_neg Bool.false_ne_true, Option.none_or, skip_cons_of_neg hc]

theorem upTo_skip (p : α → Bool) (x : Place α) : x.upTo (x.skip p) = x.after.takeWhile p := by
  have hlength : x.after.length - (x.after.dropWhile p).length = (x.after.takeWhile p).length := by
    conv_lhs => rw [← List.takeWhile_append_dropWhile (p := p) (l := x.after), List.length_append]
    rw [List.takeWhile_append_dropWhile, Nat.add_sub_cancel]
  rw [Place.upTo, Place.skip, hlength]
  exact List.prefix_iff_eq_take.mp (List.takeWhile_prefix p) ▸ rfl

/-- **A constant text** is what comes next. -/
theorem exec_lit [DecidableEq α] (k : Place α → Option β) (t : List α) (before after : List α) :
    exec (.lit t) k ⟨before, t ++ after⟩ = k ⟨t.reverse ++ before, after⟩ := by
  induction t generalizing before with
  | nil => rfl
  | cons c t ih =>
    rw [Re.lit, exec_seq, List.cons_append, exec_one_cons, if_pos (decide_eq_true rfl), ih,
      List.reverse_cons, List.append_assoc]
    rfl

theorem exec_lit_singleton [DecidableEq α] (k : Place α → Option β) (c d : α)
    (before after : List α) :
    exec (.lit [c]) k ⟨before, d :: after⟩ = if d = c then k ⟨d :: before, after⟩ else none := by
  rw [Re.lit, exec_seq, exec_one_cons]
  simp only [decide_eq_true_eq]
  rfl

theorem exec_lit_eq_none [DecidableEq α] (k : Place α → Option β) {t : List α} {x : Place α}
    (h : ¬ t <+: x.after) :
    exec (.lit t) k x = none := by
  induction t generalizing x with
  | nil => exact absurd List.nil_prefix h
  | cons c t ih =>
    obtain ⟨before, _ | ⟨d, after⟩⟩ := x
    · rfl
    · rw [Re.lit, exec_seq, exec_one_cons]
      by_cases hd : d = c
      · subst hd
        rw [if_pos (decide_eq_true rfl)]
        exact ih fun hpre => h (List.cons_prefix_cons.mpr ⟨rfl, hpre⟩)
      · rw [if_neg (by simpa using hd)]

end

/-! ### The first match -/

/-- The ways to part a list: before its first item, or behind it. -/
theorem exists_cons_eq_append {c : α} {t : List α} {Q : List α → List α → Prop} :
    (∃ pre post, c :: t = pre ++ post ∧ Q pre post) ↔ Q [] (c :: t) ∨ ∃ pre post, t = pre ++ post ∧
        Q (c :: pre) post := by
  constructor
  · rintro ⟨pre, post, heq, h⟩
    obtain ⟨rfl, rfl⟩ | ⟨pre', rfl, rfl⟩ := List.cons_eq_append_iff.mp heq
    · exact Or.inl h
    · exact Or.inr ⟨pre', post, rfl, h⟩
  · rintro (h | ⟨pre, post, rfl, h⟩)
    · exact ⟨[], c :: t, rfl, h⟩
    · exact ⟨c :: pre, post, rfl, h⟩

theorem forall_cons_eq_append {c : α} {t : List α} {Q : List α → List α → Prop} :
    (∀ pre post, c :: t = pre ++ post → Q pre post) ↔ Q [] (c :: t) ∧ ∀ pre post, t = pre ++ post →
        Q (c :: pre) post := by
  constructor
  · exact fun h => ⟨h [] (c :: t) rfl, fun pre post heq => h (c :: pre) post (heq ▸ rfl)⟩
  · rintro ⟨hnil, hcons⟩ pre post heq
    obtain ⟨rfl, rfl⟩ | ⟨pre', rfl, rfl⟩ := List.cons_eq_append_iff.mp heq
    · exact hnil
    · exact hcons pre' post rfl

/-- **The first match** is at a place before which there is none. -/
theorem search_eq_some_iff {f : Place α → Option β} {before t : List α} {b : β} :
    search f before t = some b ↔
    ∃ pre post, t = pre ++ post ∧ f ⟨pre.reverse ++ before, post⟩ = some b ∧
      ∀ pre' post', t = pre' ++ post' → pre'.length < pre.length →
          f ⟨pre'.reverse ++ before, post'⟩ = none := by
  induction t generalizing before with
  | nil =>
    rw [search]
    constructor
    · exact fun h => ⟨[], [], rfl, h, fun _ _ _ hlt => absurd hlt (Nat.not_lt_zero _)⟩
    · rintro ⟨pre, post, heq, h, -⟩
      obtain ⟨rfl, rfl⟩ := List.append_eq_nil_iff.mp heq.symm
      exact h
  | cons c t ih =>
    rw [search, exists_cons_eq_append]
    simp only [forall_cons_eq_append, List.reverse_nil, List.reverse_cons, List.nil_append,
      List.append_assoc, List.singleton_append, List.length_nil, List.length_cons, Nat.not_lt_zero,
      Nat.succ_pos, Nat.succ_lt_succ_iff, false_imp_iff, true_imp_iff, implies_true, and_true]
    cases hhere : f ⟨before, c :: t⟩ with
    | some b' =>
      rw [Option.some_or]
      refine ⟨Or.inl, fun h => h.resolve_right ?_⟩
      rintro ⟨-, -, -, -, hnone, -⟩
      cases hnone
    | none =>
      rw [Option.none_or, ih]
      constructor
      · rintro ⟨pre, post, rfl, h, hfirst⟩
        exact Or.inr ⟨pre, post, rfl, h, rfl, hfirst⟩
      · rintro (h | ⟨pre, post, rfl, h, -, hfirst⟩)
        · cases h
        · exact ⟨pre, post, rfl, h, hfirst⟩

end Regex
