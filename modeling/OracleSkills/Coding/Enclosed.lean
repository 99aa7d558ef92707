import Mathlib.Data.List.Infix
import Mathlib.Data.List.Nodup

/-!
# What stands between an opening and a closing mark

A block begins with an opening mark and ends with the first closing mark behind it, and `outside` is
what is left of a list when its blocks are taken out, all at once and whatever they have in common.

`outside_append_block` and `outside_cons` say that it can be done from the left to the right, as a
global replacement by a pattern does it. No two marks overlap (`Marks`), so what stands behind a
block that ends cannot begin inside it.

To take blocks out may put a mark together whose letters were apart. `not_between_of_sublist` says
that this is the only way in which an opening mark and a closing mark behind it are left over.
-/

namespace Coding

variable {α β : Type*}

/-- An opening and a closing mark begin with the same letter, which is nowhere else in them. -/
structure Marks (opening closing : List β) : Prop where
  head : ∃ a o c, opening = a :: o ∧ closing = a :: c ∧ a ∉ o ∧ a ∉ c
  not_opening_prefix : ¬ opening <+: closing
  not_closing_prefix : ¬ closing <+: opening

variable (read : α → β) (opening closing : List β)

/-- `v` ends with the first closing mark in it. -/
def ClosesFirst (v : List α) : Prop := closing <:+ v.map read ∧ ¬ closing <:+: (v.map read).dropLast

/-- From an opening mark to the first closing mark behind it. -/
def Block (w : List α) : Prop :=
  ∃ o v, w = o ++ v ∧ o.map read = opening ∧ ClosesFirst read closing v

/-- `x` stands in a block. -/
def Enclosed (l : List α) (x : α) : Prop := ∃ w, Block read opening closing w ∧ w <:+: l ∧ x ∈ w

open Classical in
/-- What stands in no block. -/
noncomputable def outside (l : List α) : List α := l.filter (¬ Enclosed read opening closing l ·)

/-- An opening mark in `l`, and a closing mark behind it. -/
def Between (l o c : List α) : Prop :=
  o.map read = opening ∧ c.map read = closing ∧ ∃ a b d, l = a ++ o ++ b ++ c ++ d

variable {read opening closing} {l t w v o c : List α} {x u : α}

theorem mem_outside :
    x ∈ outside read opening closing l ↔ x ∈ l ∧ ¬ Enclosed read opening closing l x := by
  simp [outside]

theorem outside_sublist : (outside read opening closing l).Sublist l := List.filter_sublist

/-! ### The first closing mark -/

theorem exists_closesFirst (hne : closing ≠ []) (h : closing <:+: t.map read) :
    ∃ v, ClosesFirst read closing v ∧ v <+: t := by
  induction t using List.reverseRecOn with
  | nil => exact absurd (List.infix_nil.mp h) hne
  | append_singleton t y ih =>
    by_cases ht : closing <:+: t.map read
    · obtain ⟨v, hv, hp⟩ := ih ht
      exact ⟨v, hv, hp.trans (List.prefix_append t [y])⟩
    · refine ⟨t ++ [y], ⟨?_, by simpa using ht⟩, List.prefix_rfl⟩
      rw [List.map_append, List.map_singleton] at h ⊢
      exact (List.infix_concat_iff.mp h).resolve_right ht

theorem Marks.opening_ne_nil (h : Marks opening closing) : opening ≠ [] := by
  rintro rfl
  exact h.not_opening_prefix List.nil_prefix

theorem Marks.closing_ne_nil (h : Marks opening closing) : closing ≠ [] := by
  rintro rfl
  exact h.not_closing_prefix List.nil_prefix

/-- A block is not empty. -/
theorem Marks.length_pos (h : Marks opening closing) (hw : Block read opening closing w) :
    0 < w.length := by
  obtain ⟨o, v, rfl, ho, -⟩ := hw
  have hpos := List.length_pos_iff.mpr h.opening_ne_nil
  rw [← ho, List.length_map] at hpos
  rw [List.length_append]
  omega

/-- A block does not begin in the middle of another one and end behind it. -/
theorem Marks.not_straddles (h : Marks opening closing) {s e : List α}
    (hw : Block read opening closing (v ++ s))
    (hb : Block read opening closing (s ++ e)) (hs : s ≠ []) (he : e ≠ []) : False := by
  obtain ⟨a, po, pc, hopen, hclose, hao, hac⟩ := h.head
  obtain ⟨o, b, hwe, -, ⟨m, hm⟩, -⟩ := hw
  obtain ⟨o', v', hbe, ho', -, hfirst⟩ := hb
  -- what both blocks have, as it is read
  obtain ⟨y, ys, hy⟩ : ∃ y ys, s.map read = y :: ys :=
    List.exists_cons_of_ne_nil (by simpa using hs)
  have heq : y :: ys ++ e.map read = opening ++ v'.map read := by
    rw [← hy, ← ho', ← List.map_append, ← List.map_append, hbe]
  have hpre : ∀ z, z <+: y :: ys → z <+: opening ∨ opening <+: z := fun z hz =>
    List.prefix_or_prefix_of_prefix (hz.trans ⟨e.map read, heq⟩) (List.prefix_append opening _)
  have hne : closing ≠ y :: ys := fun hc =>
    (hpre closing (hc ▸ List.prefix_rfl)).elim h.not_closing_prefix h.not_opening_prefix
  have hsuffix : y :: ys <:+ closing ∨ closing <:+ y :: ys := by
    have hs : y :: ys <:+ (v ++ s).map read := ⟨v.map read, by rw [List.map_append, hy]⟩
    exact List.suffix_or_suffix_of_suffix hs
      ⟨o.map read ++ m, by rw [hwe, List.map_append, ← hm, List.append_assoc]⟩
  rcases hsuffix with hsuffix | ⟨r, hr⟩
  · -- it is an end of the closing mark, but begins with the letter of the marks
    rw [hclose, List.suffix_cons_iff, ← hclose] at hsuffix
    rcases hsuffix with hsuffix | hsuffix
    · exact hne hsuffix.symm
    · rw [hopen] at heq
      obtain ⟨rfl, -⟩ := List.cons.inj heq
      exact hac (hsuffix.subset List.mem_cons_self)
  · -- it holds the closing mark, so that the second block has an end in it
    obtain ⟨z, zs, rfl⟩ : ∃ z zs, r = z :: zs :=
      List.exists_cons_of_ne_nil (by rintro rfl; exact hne hr)
    have hbefore : opening <+: z :: zs := by
      have hlong : ¬ z :: zs ++ [a] <+: opening := by
        rw [hopen]
        rintro ⟨k, hk⟩
        refine hao ((List.cons.inj hk).2 ▸ ?_)
        simp
      have hz : z :: zs ++ [a] <+: y :: ys :=
        ⟨pc, by rw [← hr, hclose, List.append_assoc, List.singleton_append]⟩
      exact (List.prefix_concat_iff.mp ((hpre _ hz).resolve_left hlong)).resolve_left fun hc =>
        hlong (hc ▸ List.prefix_rfl)
    obtain ⟨k, hk⟩ := hbefore
    have hrest : v'.map read = k ++ closing ++ e.map read := by
      rw [← hr, ← hk] at heq
      simpa using heq.symm
    refine hfirst ⟨k, (e.map read).dropLast, ?_⟩
    rw [hrest, List.dropLast_append_of_ne_nil (by simpa using he)]

/-! ### From the left to the right -/

theorem Enclosed.mem (h : Enclosed read opening closing l x) : x ∈ l := by
  obtain ⟨w, -, hw, hx⟩ := h
  exact hw.subset hx

theorem Enclosed.mono (h : Enclosed read opening closing t x) (ht : t <:+: l) :
    Enclosed read opening closing l x := by
  obtain ⟨w, hw, hwt, hx⟩ := h
  exact ⟨w, hw, hwt.trans ht, hx⟩

theorem Marks.enclosed_append (h : Marks opening closing) (hw : Block read opening closing w)
    (hx : Enclosed read opening closing (w ++ t) x) :
    x ∈ w ∨ Enclosed read opening closing t x := by
  obtain ⟨b, hb, ⟨p, q, hpq⟩, hxb⟩ := hx
  rw [List.append_assoc, List.append_eq_append_iff] at hpq
  rcases hpq with ⟨k, rfl, hk⟩ | ⟨k, rfl, rfl⟩
  · rcases List.append_eq_append_iff.mp hk with ⟨e, rfl, rfl⟩ | ⟨e, rfl, rfl⟩
    · exact Or.inl (by simp [hxb])
    · -- the block that `x` is in begins in the other one
      rcases eq_or_ne k [] with rfl | hk'
      · exact Or.inr ⟨e, by simpa using hb, List.infix_append_left, by simpa using hxb⟩
      rcases eq_or_ne e [] with rfl | he
      · exact Or.inl (by simpa using Or.inr hxb)
      exact (h.not_straddles hw hb hk' he).elim
  · exact Or.inr ⟨b, hb, ⟨k, q, by simp⟩, hxb⟩

/-- A block is taken out as a whole, -/
theorem Marks.outside_append (h : Marks opening closing) (hnodup : (w ++ t).Nodup)
    (hw : Block read opening closing w) :
    outside read opening closing (w ++ t) = outside read opening closing t := by
  have hdisjoint := (List.nodup_append.mp hnodup).2.2
  have hin : ∀ x ∈ w, Enclosed read opening closing (w ++ t) x :=
    fun x hx => ⟨w, hw, List.infix_append_left, hx⟩
  have hbehind : ∀ x ∈ t, Enclosed read opening closing (w ++ t) x ↔
      Enclosed read opening closing t x := fun x hx =>
    ⟨fun he => (h.enclosed_append hw he).resolve_left fun hxw => hdisjoint x hxw x hx rfl,
      fun he => he.mono List.infix_append_right⟩
  simp only [outside]
  rw [List.filter_append,
    List.filter_eq_nil_iff.mpr fun x hx => by simpa using hin x hx, List.nil_append]
  exact List.filter_congr fun x hx => by simp [hbehind x hx]

open Classical in
/-- and where none begins, the first item stays. -/
theorem outside_cons (hnodup : (u :: t).Nodup)
    (hno : ∀ w, w <+: u :: t → ¬ Block read opening closing w) :
    outside read opening closing (u :: t) = u :: outside read opening closing t := by
  have hcons : ∀ x, Enclosed read opening closing (u :: t) x ↔
      Enclosed read opening closing t x := fun x => by
    refine ⟨?_, fun he => he.mono (List.suffix_cons u t).isInfix⟩
    rintro ⟨w, hw, hinfix, hx⟩
    rcases List.infix_cons_iff.mp hinfix with hp | hp
    · exact absurd hw (hno w hp)
    · exact ⟨w, hw, hp, hx⟩
  have hu : ¬ Enclosed read opening closing t u := fun he => (List.nodup_cons.mp hnodup).1 he.mem
  have htail : t.filter (¬ Enclosed read opening closing (u :: t) ·) =
      outside read opening closing t :=
    List.filter_congr fun x _ => by simp only [hcons]
  rw [← htail, outside, List.filter_cons, if_pos (by rw [hcons]; simpa using hu)]

/-! ### Where blocks have been -/

/-- What is left begins as the list does, up to where a block has been. -/
theorem prefix_outside {s : List α} (hnodup : l.Nodup) (hs : s <+: outside read opening closing l) :
    s <+: l ∨ ∃ s₁ s₂ w, s = s₁ ++ s₂ ∧ s₂ ≠ [] ∧ Block read opening closing w ∧ s₁ ++ w <+: l := by
  induction l generalizing s with
  | nil => exact Or.inl (List.eq_nil_of_sublist_nil (hs.sublist.trans outside_sublist) ▸
    List.nil_prefix)
  | cons u t ih =>
    rcases s with - | ⟨y, s⟩
    · exact Or.inl List.nil_prefix
    by_cases hblock : ∃ w, w <+: u :: t ∧ Block read opening closing w
    · obtain ⟨w, hw, hb⟩ := hblock
      exact Or.inr ⟨[], y :: s, w, rfl, List.cons_ne_nil y s, hb, hw⟩
    · rw [outside_cons hnodup fun w hw hb => hblock ⟨w, hw, hb⟩, List.cons_prefix_cons] at hs
      obtain ⟨rfl, hs⟩ := hs
      rcases ih (List.nodup_cons.mp hnodup).2 hs with hs | ⟨s₁, s₂, w, rfl, hne, hw, hp⟩
      · exact Or.inl (List.cons_prefix_cons.mpr ⟨rfl, hs⟩)
      · exact Or.inr ⟨y :: s₁, s₂, w, rfl, hne, hw, List.cons_prefix_cons.mpr ⟨rfl, hp⟩⟩

/-- **What is in one piece** in what is left was so in the list, or a block stood in the middle of
it. -/
theorem Marks.infix_outside (h : Marks opening closing) {s : List α} (hnodup : l.Nodup)
    (hs : s <:+: outside read opening closing l) :
    s <:+: l ∨ ∃ s₁ s₂ w, s = s₁ ++ s₂ ∧ s₁ ≠ [] ∧ s₂ ≠ [] ∧ Block read opening closing w ∧
        s₁ ++ w <:+: l := by
  induction hn : l.length using Nat.strongRecOn generalizing l with
  | ind n ih =>
    subst hn
    by_cases hblock : ∃ w, w <+: l ∧ Block read opening closing w
    · obtain ⟨w, ⟨t, rfl⟩, hb⟩ := hblock
      rw [h.outside_append hnodup hb] at hs
      have hlt : t.length < (w ++ t).length := by
        have hpos := h.length_pos hb
        rw [List.length_append]
        omega
      rcases ih t.length hlt (List.nodup_append.mp hnodup).2.1 hs rfl with
        hs | ⟨s₁, s₂, w', rfl, hne, hne', hb', hp⟩
      · exact Or.inl (hs.trans List.infix_append_right)
      · exact Or.inr ⟨s₁, s₂, w', rfl, hne, hne', hb', hp.trans List.infix_append_right⟩
    · rcases l with - | ⟨u, t⟩
      · exact Or.inl (hs.trans ⟨[], [], by simp [List.eq_nil_of_sublist_nil outside_sublist]⟩)
      rw [outside_cons hnodup fun w hw hb => hblock ⟨w, hw, hb⟩, List.infix_cons_iff] at hs
      have hnodup' := (List.nodup_cons.mp hnodup).2
      rcases hs with hs | hs
      · rcases s with - | ⟨y, s⟩
        · exact Or.inl List.nil_infix
        obtain ⟨rfl, hrest⟩ := List.cons_prefix_cons.mp hs
        rcases prefix_outside hnodup' hrest with hs | ⟨s₁, s₂, w, rfl, hne, hb, hp⟩
        · exact Or.inl (List.cons_prefix_cons.mpr ⟨rfl, hs⟩).isInfix
        · exact Or.inr ⟨y :: s₁, s₂, w, rfl, List.cons_ne_nil y s₁, hne, hb,
            (List.cons_prefix_cons.mpr ⟨rfl, hp⟩).isInfix⟩
      · have htail : t <:+: u :: t := (List.suffix_cons u t).isInfix
        rcases ih t.length (Nat.lt_succ_self _) hnodup' hs rfl with
          hs | ⟨s₁, s₂, w, rfl, hne, hne', hb, hp⟩
        · exact Or.inl (hs.trans htail)
        · exact Or.inr ⟨s₁, s₂, w, rfl, hne, hne', hb, hp.trans htail⟩

/-! ### What blocks are passed over in -/

/-- The items of `s` stand in `u` one behind the other, with nothing but whole blocks between
them. -/
inductive Spells (read : α → β) (opening closing : List β) : List α → List α → Prop where
  /-- The last item. -/
  | last (x : α) : Spells read opening closing [x] [x]
  /-- An item, blocks, and what goes on behind them. -/
  | cons {x : α} {ws : List (List α)} {s u : List α} (hws : ∀ w ∈ ws, Block read opening closing w)
      (h : Spells read opening closing s u) : Spells read opening closing (x :: s)
        (x :: (ws.flatten ++ u))

/-- `o` and behind it `c` can be read in `l` if blocks are passed over, and neither begins in a
block. -/
structure Legible (read : α → β) (opening closing : List β) (l o c : List α) : Prop where
  spelled : ∃ a u b v d, l = a ++ u ++ b ++ v ++ d ∧ Spells read opening closing o u ∧
    Spells read opening closing c v
  starts : ∀ x ∈ o.head?, ¬ Enclosed read opening closing l x
  starts_behind : ∀ x ∈ c.head?, ¬ Enclosed read opening closing l x

variable {s r : List α} {ws : List (List α)}

theorem Marks.outside_flatten (h : Marks opening closing) (hnodup : (ws.flatten ++ t).Nodup)
    (hws : ∀ w ∈ ws, Block read opening closing w) :
    outside read opening closing (ws.flatten ++ t) = outside read opening closing t := by
  induction ws with
  | nil => rfl
  | cons w ws ih =>
    rw [List.flatten_cons, List.append_assoc] at hnodup ⊢
    rw [h.outside_append hnodup (hws w List.mem_cons_self)]
    exact ih (List.nodup_append.mp hnodup).2.1 fun x hx => hws x (List.mem_cons_of_mem w hx)

/-- Before the first item that stays there are blocks. -/
theorem Marks.exists_of_outside_cons (h : Marks opening closing) (hnodup : l.Nodup)
    (hl : outside read opening closing l = x :: r) :
    ∃ (ws : List (List α)) (t : List α), l = ws.flatten ++ x :: t ∧
      (∀ w ∈ ws, Block read opening closing w) ∧
      outside read opening closing t = r := by
  induction hn : l.length using Nat.strongRecOn generalizing l with
  | ind n ih =>
    subst hn
    by_cases hblock : ∃ w, w <+: l ∧ Block read opening closing w
    · obtain ⟨w, ⟨t, rfl⟩, hb⟩ := hblock
      rw [h.outside_append hnodup hb] at hl
      have hlt : t.length < (w ++ t).length := by
        have hpos := h.length_pos hb
        rw [List.length_append]
        omega
      obtain ⟨ws, t', rfl, hws, ht'⟩ := ih t.length hlt (List.nodup_append.mp hnodup).2.1 hl rfl
      refine ⟨w :: ws, t', by simp, fun y hy => ?_, ht'⟩
      rcases List.mem_cons.mp hy with rfl | hy
      · exact hb
      · exact hws y hy
    · rcases l with - | ⟨u, t⟩
      · exact absurd (outside_sublist.subset (hl ▸ List.mem_cons_self)) List.not_mem_nil
      rw [outside_cons hnodup fun w hw hb => hblock ⟨w, hw, hb⟩, List.cons.injEq] at hl
      obtain ⟨rfl, rfl⟩ := hl
      exact ⟨[], t, rfl, fun w hw => absurd hw List.not_mem_nil, rfl⟩

/-- What is in one piece at the front of what stays is spelled behind some blocks. -/
theorem Marks.exists_spells (h : Marks opening closing) (hnodup : l.Nodup) (hs : s ≠ [])
    (hl : outside read opening closing l = s ++ r) :
    ∃ (ws : List (List α)) (u t : List α), l = ws.flatten ++ u ++ t ∧
      (∀ w ∈ ws, Block read opening closing w) ∧
      Spells read opening closing s u ∧ outside read opening closing t = r := by
  induction s generalizing l with
  | nil => exact absurd rfl hs
  | cons x s ih =>
    obtain ⟨ws, t, rfl, hws, ht⟩ := h.exists_of_outside_cons hnodup hl
    rcases eq_or_ne s [] with rfl | hne
    · exact ⟨ws, [x], t, by simp, hws, .last x, ht⟩
    · have hnodup' := (List.nodup_cons.mp (List.nodup_append.mp hnodup).2.1).2
      obtain ⟨ws', u, t', rfl, hws', hu, ht'⟩ := ih hnodup' hne ht
      exact ⟨ws, x :: (ws'.flatten ++ u), t', by simp, hws, .cons hws' hu, ht'⟩

/-- What is left behind a beginning of what stays is left of an end of the list. -/
theorem Marks.exists_append_of_outside (h : Marks opening closing) (hnodup : l.Nodup)
    (hl : outside read opening closing l = s ++ r) :
    ∃ a t, l = a ++ t ∧ outside read opening closing t = r := by
  rcases eq_or_ne s [] with rfl | hs
  · exact ⟨[], l, rfl, hl⟩
  · obtain ⟨ws, u, t, heq, -, -, ht⟩ := h.exists_spells hnodup hs hl
    exact ⟨ws.flatten ++ u, t, heq, ht⟩

/-- Up to an item that stands in no block, the blocks can be taken out before the rest is gone
through. -/
theorem Marks.exists_outside_append (h : Marks opening closing) {p q : List α}
    (hnodup : (p ++ x :: q).Nodup) (hx : ¬ Enclosed read opening closing (p ++ x :: q) x) :
    ∃ p', outside read opening closing (p ++ x :: q) = p' ++
        outside read opening closing (x :: q) := by
  induction hn : p.length using Nat.strongRecOn generalizing p with
  | ind n ih =>
    subst hn
    by_cases hblock : ∃ w, w <+: p ++ x :: q ∧ Block read opening closing w
    · obtain ⟨w, hw, hb⟩ := hblock
      have hxw : x ∉ w := fun hmem => hx ⟨w, hb, hw.isInfix, hmem⟩
      obtain ⟨p₂, rfl⟩ : w <+: p := by
        rcases List.prefix_or_prefix_of_prefix hw (List.prefix_append p (x :: q)) with hp | ⟨e, rfl⟩
        · exact hp
        rcases e with - | ⟨y, e⟩
        · simp
        · obtain ⟨rfl, -⟩ := List.cons_prefix_cons.mp ((List.prefix_append_right_inj p).mp hw)
          exact absurd (by simp) hxw
      rw [List.append_assoc] at hnodup hx ⊢
      rw [h.outside_append hnodup hb]
      refine ih p₂.length ?_ (List.nodup_append.mp hnodup).2.1
        (fun he => hx (he.mono List.infix_append_right)) rfl
      have hpos := h.length_pos hb
      rw [List.length_append]
      omega
    · rcases p with - | ⟨y, p⟩
      · exact ⟨[], rfl⟩
      rw [List.cons_append] at hnodup hx hblock ⊢
      rw [outside_cons hnodup fun w hw hb => hblock ⟨w, hw, hb⟩]
      obtain ⟨p', hp'⟩ := ih p.length (Nat.lt_succ_self _) (List.nodup_cons.mp hnodup).2
        (fun he => hx (he.mono (List.suffix_cons y _).isInfix)) rfl
      exact ⟨y :: p', by rw [hp', List.cons_append]⟩

/-- A block begins with the letter of the marks. -/
theorem Block.exists_cons {a : β} {k : List β} (hopen : opening = a :: k)
    (hb : Block read opening closing w) :
    ∃ x w', w = x :: w' ∧ read x = a := by
  obtain ⟨o, v, rfl, ho, -⟩ := hb
  rw [hopen, List.map_eq_cons_iff] at ho
  obtain ⟨x, o', rfl, hx, -⟩ := ho
  exact ⟨x, o' ++ v, rfl, hx⟩

/-- What is spelled comes to be in one piece, if no block begins at its first item and none of the
others has the letter that the marks begin with. -/
theorem Marks.outside_spells (h : Marks opening closing) {a : β} {k : List β}
    (hopen : opening = a :: k) {u : List α}
    (hu : Spells read opening closing s u) (hs : ∀ y ∈ s.tail, read y ≠ a) (hnodup : (u ++ t).Nodup)
    (hno : ∀ w, w <+: u ++ t → ¬ Block read opening closing w) :
    outside read opening closing (u ++ t) = s ++ outside read opening closing t := by
  induction hu with
  | last x => exact outside_cons hnodup hno
  | @cons x ws s u hws hu ih =>
    rw [List.cons_append, List.append_assoc] at hnodup hno ⊢
    have hnodup' := (List.nodup_cons.mp hnodup).2
    rw [outside_cons hnodup hno, h.outside_flatten hnodup' hws, List.cons_append, List.cons.injEq]
    refine ⟨rfl, ih (fun y hy => hs y (List.mem_of_mem_tail hy))
      (List.nodup_append.mp hnodup').2.1 ?_⟩
    -- the next item is not one that a block begins with
    intro w hw hb
    obtain ⟨y, w', rfl, hy⟩ := hb.exists_cons hopen
    cases hu with
    | last z =>
      obtain ⟨rfl, -⟩ := List.cons_prefix_cons.mp hw
      exact hs y (by simp) hy
    | cons hws' hu' =>
      rw [List.cons_append] at hw
      obtain ⟨rfl, -⟩ := List.cons_prefix_cons.mp hw
      exact hs y (by simp) hy

theorem Spells.head?_eq {u : List α} (hu : Spells read opening closing s u) :
    ∃ x s' u', s = x :: s' ∧ u = x :: u' := by
  cases hu with
  | last x => exact ⟨x, [], [], rfl, rfl⟩
  | cons => exact ⟨_, _, _, rfl, rfl⟩

/-- What is spelled behind `p` by a stretch that does not begin in a block comes to be in one
piece. -/
theorem Marks.exists_outside_spells (h : Marks opening closing) {a : β} {k : List β}
    (hopen : opening = a :: k)
    {p u : List α} (hu : Spells read opening closing s u) (hs : ∀ y ∈ s.tail, read y ≠ a)
    (hnodup : (p ++ (u ++ t)).Nodup)
    (hx : ∀ x ∈ s.head?, ¬ Enclosed read opening closing (p ++ (u ++ t)) x) :
    ∃ p', outside read opening closing (p ++ (u ++ t)) = p' ++
        (s ++ outside read opening closing t) := by
  have hpiece : (∀ w, w <+: u ++ t → ¬ Block read opening closing w) →
      outside read opening closing (u ++ t) = s ++ outside read opening closing t :=
    h.outside_spells hopen hu hs (List.nodup_append.mp hnodup).2.1
  obtain ⟨x, s', u', rfl, rfl⟩ := hu.head?_eq
  have hfirst := hx x rfl
  rw [List.cons_append] at hnodup hfirst hpiece ⊢
  obtain ⟨p', hp'⟩ := h.exists_outside_append hnodup hfirst
  refine ⟨p', ?_⟩
  rw [hp', hpiece]
  rintro w hw hb
  obtain ⟨y, w', rfl, -⟩ := hb.exists_cons hopen
  obtain ⟨rfl, -⟩ := List.cons_prefix_cons.mp hw
  exact hfirst ⟨y :: w', hb, hw.isInfix.trans (List.suffix_append p _).isInfix, List.mem_cons_self⟩

/-- **What comes to be in one piece** when the blocks are taken out, and something behind it: what
can be read if blocks are passed over. -/
theorem Marks.legible_iff (h : Marks opening closing) {a : β} {k : List β}
    (hopen : opening = a :: k) (hnodup : l.Nodup)
    (ho : o ≠ []) (hc : c ≠ []) (ho' : ∀ y ∈ o.tail, read y ≠ a) (hc' : ∀ y ∈ c.tail, read y ≠ a) :
    Legible read opening closing l o c ↔
        ∃ p b d, outside read opening closing l = p ++ o ++ b ++ c ++ d := by
  constructor
  · rintro ⟨⟨p, u, b, v, d, rfl, hu, hv⟩, hstart, hstart'⟩
    simp only [List.append_assoc] at hnodup hstart hstart' ⊢
    obtain ⟨p', hp'⟩ := h.exists_outside_spells hopen hu ho' hnodup hstart
    have hbehind : b ++ (v ++ d) <:+ p ++ (u ++ (b ++ (v ++ d))) := ⟨p ++ u, by simp⟩
    obtain ⟨b', hb'⟩ := h.exists_outside_spells hopen hv hc' (hnodup.sublist hbehind.sublist)
      fun x hx he => hstart' x hx (he.mono hbehind.isInfix)
    exact ⟨p', b', _, by rw [hp', hb']⟩
  · rintro ⟨p, b, d, hl⟩
    simp only [List.append_assoc] at hl
    have hstays : ∀ x, x ∈ o ∨ x ∈ c → ¬ Enclosed read opening closing l x := fun x hx =>
      (mem_outside.mp (hl ▸ by simp only [List.mem_append]; tauto)).2
    refine ⟨?_, fun x hx => hstays x (Or.inl (List.mem_of_mem_head? hx)),
      fun x hx => hstays x (Or.inr (List.mem_of_mem_head? hx))⟩
    obtain ⟨p', l₁, rfl, hl₁⟩ := h.exists_append_of_outside hnodup hl
    have hnodup₁ := (List.nodup_append.mp hnodup).2.1
    obtain ⟨ws, u, l₂, rfl, -, hu, hl₂⟩ := h.exists_spells hnodup₁ ho hl₁
    have hnodup₂ := (List.nodup_append.mp hnodup₁).2.1
    obtain ⟨b', l₃, rfl, hl₃⟩ := h.exists_append_of_outside hnodup₂ hl₂
    obtain ⟨ws', v, l₄, rfl, -, hv, -⟩ := h.exists_spells (List.nodup_append.mp hnodup₂).2.1 hc hl₃
    exact ⟨p' ++ ws.flatten, u, b' ++ ws'.flatten, v, l₄, by simp, hu, hv⟩

open Classical in
/-- What stands in no block is in one piece afterwards as it was before. -/
theorem exists_outside_of_not_enclosed {p b d : List α} (hl : l = p ++ o ++ b ++ c ++ d)
    (hstays : ∀ x ∈ o ++ c, ¬ Enclosed read opening closing l x) :
    ∃ p' b' d', outside read opening closing l = p' ++ o ++ b' ++ c ++ d' := by
  have hkeep : ∀ z, z ⊆ o ++ c → z.filter (¬ Enclosed read opening closing l ·) = z := fun z hz =>
    List.filter_eq_self.mpr fun x hx => by simpa using hstays x (hz hx)
  let keep := List.filter (¬ Enclosed read opening closing l ·)
  have hparts : l.filter (¬ Enclosed read opening closing l ·) = keep p ++ keep o ++ keep b ++
      keep c ++ keep d := by
    conv_lhs =>
      arg 2
      rw [hl]
    simp only [List.filter_append, keep]
  refine ⟨keep p, keep b, keep d, ?_⟩
  rw [outside, hparts, show keep o = o from hkeep o (List.subset_append_left o c),
    show keep c = c from hkeep c (List.subset_append_right o c)]

/-! ### What is left over -/

/-- Between an opening and a closing mark in one piece each, something is taken out. -/
theorem Marks.enclosed_of_between (h : Marks opening closing)
    (hb : Between read opening closing l o c) (hx : x ∈ o) :
    Enclosed read opening closing l x := by
  obtain ⟨ho, hc, a, b, d, rfl⟩ := hb
  have hinfix : closing <:+: (b ++ c ++ d).map read := ⟨b.map read, d.map read, by simp [hc]⟩
  obtain ⟨v, hv, hp⟩ := exists_closesFirst h.closing_ne_nil hinfix
  refine ⟨o ++ v, ⟨o, v, rfl, ho, hv⟩, ?_, List.mem_append_left v hx⟩
  obtain ⟨e, he⟩ := hp
  exact ⟨a, e, by simp [← he]⟩

/-- Where no opening mark has a closing mark behind it, everything stays. -/
theorem outside_eq_self (h : ∀ o c, ¬ Between read opening closing l o c) :
    outside read opening closing l = l := by
  have hno : ∀ x, ¬ Enclosed read opening closing l x := by
    rintro x ⟨w, ⟨o, v, rfl, ho, ⟨m, hm⟩, -⟩, ⟨a, d, rfl⟩, -⟩
    obtain ⟨b, c, rfl, -, hc⟩ := List.map_eq_append_iff.mp hm.symm
    exact h o c ⟨ho, hc, a, b, d, by simp⟩
  simp [outside, hno]

/-- Marks that are left over, one behind the other, stand so in the list if each is there in one
piece. -/
theorem between_of_sublist {r : α → α → Prop} [Std.Asymm r] {l' : List α} (hsub : l'.Sublist l)
    (hl : l.Pairwise r)
    (hb : Between read opening closing l' o c) (ho : o <:+: l) (hc : c <:+: l) (hne : o ≠ [])
    (hne' : c ≠ []) :
    Between read opening closing l o c := by
  obtain ⟨hor, hcr, a, b, d, rfl⟩ := hb
  refine ⟨hor, hcr, ?_⟩
  have hnodup : l.Nodup := hl.nodup
  obtain ⟨x, xs, rfl⟩ := List.exists_cons_of_ne_nil hne
  obtain ⟨y, ys, rfl⟩ := List.exists_cons_of_ne_nil hne'
  obtain ⟨p, q, rfl⟩ := ho
  obtain ⟨p', q', hc⟩ := hc
  have hbefore : ∀ z ∈ x :: xs, r z y := by
    intro z hz
    have hleft := hl.sublist hsub
    simp only [List.append_assoc, List.pairwise_append] at hleft
    exact hleft.2.1.2.2 z hz y (by simp)
  have hy : y ∈ q := by
    have hyl : y ∈ p ++ x :: xs ++ q := by
      rw [← hc]
      simp
    rcases List.mem_append.mp hyl with hpx | hq
    · exfalso
      rcases List.mem_append.mp hpx with hp | hx
      · rw [List.append_assoc, List.pairwise_append] at hl
        exact Std.Asymm.asymm x y (hbefore x List.mem_cons_self) (hl.2.2 y hp x (by simp))
      · exact Std.Asymm.asymm y y (hbefore y hx) (hbefore y hx)
    · exact hq
  obtain ⟨s, e, rfl⟩ := List.append_of_mem hy
  -- `y` is in one place only, so what follows it is what the closing mark goes on with
  have hsame : (p ++ x :: xs ++ s) ++ y :: e = p' ++ y :: (ys ++ q') := by
    rw [List.append_assoc _ s, ← hc, List.append_assoc, List.cons_append]
  rw [← List.append_assoc, List.nodup_middle, List.nodup_cons, List.mem_append, not_or] at hnodup
  obtain ⟨-, -, rfl⟩ := (List.append_cons_inj_of_notMem hnodup.1.1 hnodup.1.2).mp hsame
  exact ⟨p, s, q', by simp⟩

/-- **Only marks that have been put together** are left over, an opening one and a closing one
behind it. -/
theorem Marks.not_between_of_sublist (h : Marks opening closing) {r : α → α → Prop} [Std.Asymm r]
    {l' : List α} (hsub : l'.Sublist (outside read opening closing l)) (hl : l.Pairwise r)
    (hb : Between read opening closing l' o c) : ¬ (o <:+: l ∧ c <:+: l) := by
  rintro ⟨ho, hc⟩
  have hne : o ≠ [] := fun hn => h.opening_ne_nil (by rw [← hb.1, hn, List.map_nil])
  have hne' : c ≠ [] := fun hn => h.closing_ne_nil (by rw [← hb.2.1, hn, List.map_nil])
  have hall := between_of_sublist (hsub.trans outside_sublist) hl hb ho hc hne hne'
  obtain ⟨x, hx⟩ := List.exists_mem_of_ne_nil o hne
  obtain ⟨-, -, a, b, d, rfl⟩ := hb
  exact (mem_outside.mp (hsub.subset (by simp [hx]))).2 (h.enclosed_of_between hall hx)

end Coding
