import OracleSkills.Python.Dict
import Mathlib.Data.List.Induction
import Mathlib.Order.Lattice

/-!
# Best wins

A table that keeps one item of every key: an item takes the place of the one that is there if its
measure is less. What the table holds in the end is, of every key, the first item of the least
measure (`get?_kept`), and its keys are all different (`nodup_keys_kept`).
-/

namespace BestWins

open Python

universe u v w

variable {α : Type u} {κ : Type v} {ν : Type w} [DecidableEq κ] [LinearOrder ν] (key : α → κ)
  (measure : α → ν)

/-- One more item. -/
def keep (best : Dict κ α) (a : α) : Dict κ α :=
  match best.get? (key a) with
  | none => best.set (key a) a
  | some b => if measure a < measure b then best.set (key a) a else best

/-- The table of some items. -/
def kept (as : List α) : Dict κ α := as.foldl (keep key measure) []

/-- The first item of the least measure among those of its key. -/
def IsBest (as : List α) (a : α) : Prop :=
  ∃ pre post, as = pre ++ a :: post ∧ (∀ b ∈ pre, key b = key a → measure a < measure b) ∧
    ∀ b ∈ post, key b = key a → measure a ≤ measure b

variable {key measure} {as : List α} {a b : α} {k : κ}

omit [DecidableEq κ] in
theorem IsBest.mem (h : IsBest key measure as a) : a ∈ as := by
  obtain ⟨pre, post, rfl, -, -⟩ := h
  simp

omit [DecidableEq κ] in
theorem IsBest.le (h : IsBest key measure as a) (hb : b ∈ as) (hkey : key b = key a) :
    measure a ≤ measure b := by
  obtain ⟨pre, post, rfl, hpre, hpost⟩ := h
  rcases List.mem_append.mp hb with hb | hb
  · exact (hpre b hb hkey).le
  · rcases List.mem_cons.mp hb with rfl | hb
    · exact le_rfl
    · exact hpost b hb hkey

omit [DecidableEq κ] in
/-- **One more item at the end** is the best one if it is better than all, or else leaves the best
one as it is. -/
theorem isBest_concat : IsBest key measure (as ++ [b]) a ↔
    IsBest key measure as a ∧ (key b = key a → measure a ≤ measure b) ∨
      a = b ∧ ∀ c ∈ as, key c = key b → measure b < measure c := by
  constructor
  · rintro ⟨pre, post, heq, hpre, hpost⟩
    rcases List.eq_nil_or_concat post with rfl | ⟨post, x, rfl⟩
    · obtain ⟨rfl, hb⟩ := List.append_inj' heq rfl
      obtain rfl := (List.singleton_inj.mp hb).symm
      exact .inr ⟨rfl, hpre⟩
    · rw [List.concat_eq_append, ← List.cons_append, ← List.append_assoc] at heq
      obtain ⟨rfl, hb⟩ := List.append_inj' heq rfl
      obtain rfl := List.singleton_inj.mp hb
      exact .inl ⟨⟨pre, post, rfl, hpre, fun c hc => hpost c (by simp [hc])⟩, hpost b (by simp)⟩
  · rintro (⟨⟨pre, post, rfl, hpre, hpost⟩, hb⟩ | ⟨rfl, has⟩)
    · refine ⟨pre, post ++ [b], by simp, hpre, fun c hc => ?_⟩
      rcases List.mem_append.mp hc with hc | hc
      · exact hpost c hc
      · exact List.mem_singleton.mp hc ▸ hb
    · exact ⟨as, [], rfl, has, fun c hc => absurd hc List.not_mem_nil⟩

omit [DecidableEq κ] in
/-- Where a key and a measure are those of one item, the best item is one of the least measure. -/
theorem isBest_iff (hinj : ∀ a b, key a = key b → measure a = measure b → a = b) :
    IsBest key measure as a ↔ a ∈ as ∧ ∀ b ∈ as, key b = key a → measure a ≤ measure b := by
  refine ⟨fun h => ⟨h.mem, fun b hb => h.le hb⟩, fun ⟨hmem, hle⟩ => ?_⟩
  obtain ⟨pre, post, rfl, hfirst⟩ := List.eq_append_cons_of_mem hmem
  refine ⟨pre, post, rfl, fun b hb hkey => ?_, fun b hb => hle b (by simp [hb])⟩
  refine lt_of_le_of_ne (hle b (by simp [hb]) hkey) fun heq => hfirst ?_
  exact hinj a b hkey.symm heq ▸ hb

theorem kept_concat : kept key measure (as ++ [b]) = keep key measure (kept key measure as) b := by
  rw [kept, List.foldl_append]
  rfl

/-- There is an item of each key. -/
theorem mem_keys_kept (h : a ∈ as) : key a ∈ (kept key measure as).keys := by
  induction as using List.reverseRecOn with
  | nil => cases h
  | append_singleton as b ih =>
    rw [kept_concat, keep]
    rcases List.mem_append.mp h with h | h
    · split
      · exact Dict.mem_keys_set.mpr (.inr (ih h))
      · split_ifs
        · exact Dict.mem_keys_set.mpr (.inr (ih h))
        · exact ih h
    · obtain rfl := List.mem_singleton.mp h
      split
      · exact Dict.mem_keys_set.mpr (.inl rfl)
      · rename_i d hd
        split_ifs
        · exact Dict.mem_keys_set.mpr (.inl rfl)
        · exact List.mem_map_of_mem (Dict.mem_of_get? hd)

/-- **What is kept** of a key is its best item. -/
theorem get?_kept :
    (kept key measure as).get? k = some a ↔ key a = k ∧ IsBest key measure as a := by
  induction as using List.reverseRecOn generalizing k a with
  | nil => exact ⟨fun h => (by cases h), fun h => absurd h.2.mem List.not_mem_nil⟩
  | append_singleton as b ih =>
    rw [kept_concat, keep, isBest_concat]
    cases hget : (kept key measure as).get? (key b) with
    | none =>
      -- no item before it has its key
      have hnone : ∀ c ∈ as, key c ≠ key b := fun c hc heq => by
        have hmem : key c ∈ (kept key measure as).keys := mem_keys_kept hc
        exact Dict.get?_eq_none_iff.mp hget (heq ▸ hmem)
      simp only [Dict.get?_set]
      split_ifs with hk
      · subst hk
        constructor
        · rintro ⟨rfl⟩
          exact ⟨rfl, .inr ⟨rfl, fun c hc heq => absurd heq (hnone c hc)⟩⟩
        · rintro ⟨hkey, ⟨hbest, -⟩ | ⟨rfl, -⟩⟩
          · exact absurd hkey (hnone a hbest.mem)
          · rfl
      · rw [ih]
        constructor
        · rintro ⟨rfl, hbest⟩
          exact ⟨rfl, .inl ⟨hbest, fun heq => absurd heq.symm hk⟩⟩
        · rintro ⟨rfl, ⟨hbest, -⟩ | ⟨rfl, -⟩⟩
          · exact ⟨rfl, hbest⟩
          · exact absurd rfl hk
    | some d =>
      obtain ⟨hkey, hd⟩ := ih.mp hget
      by_cases hlt : measure b < measure d
      · have hall : ∀ c ∈ as, key c = key b → measure b < measure c := fun c hc heq =>
          hlt.trans_le (hd.le hc (heq.trans hkey.symm))
        simp only [if_pos hlt, Dict.get?_set]
        split_ifs with hk
        · subst hk
          constructor
          · rintro ⟨rfl⟩
            exact ⟨rfl, .inr ⟨rfl, hall⟩⟩
          · rintro ⟨hka, ⟨hbest, hle⟩ | ⟨rfl, -⟩⟩
            · exact absurd (hle hka.symm) (not_le.mpr (hall a hbest.mem hka))
            · rfl
        · rw [ih]
          constructor
          · rintro ⟨rfl, hbest⟩
            exact ⟨rfl, .inl ⟨hbest, fun heq => absurd heq.symm hk⟩⟩
          · rintro ⟨rfl, ⟨hbest, -⟩ | ⟨rfl, -⟩⟩
            · exact ⟨rfl, hbest⟩
            · exact absurd rfl hk
      · simp only [if_neg hlt]
        rw [ih]
        constructor
        · rintro ⟨rfl, hbest⟩
          refine ⟨rfl, .inl ⟨hbest, fun heq => ?_⟩⟩
          have hsame : d = a := Option.some.inj (hget.symm.trans (heq ▸ ih.mpr ⟨rfl, hbest⟩))
          exact hsame ▸ not_lt.mp hlt
        · rintro ⟨rfl, ⟨hbest, -⟩ | ⟨rfl, hall⟩⟩
          · exact ⟨rfl, hbest⟩
          · exact absurd (hall d hd.mem hkey) hlt

/-- There is one item of a key. -/
theorem nodup_keys_kept (as : List α) : (kept key measure as).keys.Nodup := by
  induction as using List.reverseRecOn with
  | nil => exact List.nodup_nil
  | append_singleton as b ih =>
    rw [kept_concat, keep]
    split
    · exact Dict.nodup_keys_set _ ih
    · split_ifs
      · exact Dict.nodup_keys_set _ ih
      · exact ih

/-- **What is kept** is the best items. -/
theorem mem_values_kept : a ∈ (kept key measure as).map Prod.snd ↔ IsBest key measure as a := by
  constructor
  · intro h
    obtain ⟨⟨k, b⟩, hmem, rfl⟩ := List.mem_map.mp h
    exact (get?_kept.mp ((Dict.get?_eq_some_iff (nodup_keys_kept as)).mpr hmem)).2
  · intro h
    exact List.mem_map.mpr ⟨(key a, a), Dict.mem_of_get? (get?_kept.mpr ⟨rfl, h⟩), rfl⟩

/-- Each item stands under its key. -/
theorem keys_kept (as : List α) :
    (kept key measure as).keys = ((kept key measure as).map Prod.snd).map key := by
  rw [Dict.keys, List.map_map]
  refine List.map_congr_left fun x hx => ?_
  exact (get?_kept.mp ((Dict.get?_eq_some_iff (nodup_keys_kept as)).mpr hx)).1.symm

end BestWins
