import Mathlib.Data.List.Basic

/-!
# Dictionaries

Python's `dict`, which keeps its keys in the order they were first set, as a list of
pairs: `d[k] = v` replaces the value of a key in its place or appends a new key, and
`d.get(k)` looks a key up.
-/

namespace Python

universe u v

variable {α : Type u} {β : Type v} [DecidableEq α]

/-- A `dict`: its items in order. -/
abbrev Dict (α : Type u) (β : Type v) := List (α × β)

namespace Dict

/-- `d[k] = v`. -/
def set (k : α) (v : β) : Dict α β → Dict α β
  | [] => [(k, v)]
  | (k', v') :: d => if k' = k then (k, v) :: d else (k', v') :: set k v d

/-- `d.get(k)`. -/
def get? (k : α) : Dict α β → Option β
  | [] => none
  | (k', v') :: d => if k' = k then some v' else get? k d

/-- `d.get(k, v)`. -/
def getD (k : α) (v : β) (d : Dict α β) : β := (d.get? k).getD v

/-- The keys in order. -/
def keys (d : Dict α β) : List α := d.map Prod.fst

@[simp] theorem get?_set_self (k : α) (v : β) : ∀ d : Dict α β, (d.set k v).get? k = some v
  | [] => by simp [set, get?]
  | (k', v') :: d => by
    by_cases h : k' = k
    · simp [set, get?, h]
    · simp [set, get?, h, get?_set_self k v d]

@[simp] theorem get?_set_of_ne {k k' : α} (v : β) (h : k' ≠ k) : ∀ d : Dict α β,
    (d.set k v).get? k' = d.get? k'
  | [] => by simp [set, get?, Ne.symm h]
  | (j, w) :: d => by
    by_cases hj : j = k
    · subst hj; simp [set, get?, Ne.symm h]
    · simp [set, get?, hj, get?_set_of_ne v h d]

theorem get?_set (k k' : α) (v : β) (d : Dict α β) :
    (d.set k v).get? k' = if k' = k then some v else d.get? k' := by
  by_cases h : k' = k
  · subst h; simp
  · simp [h]

/-- What is found after setting a key is the new value, or was there. -/
theorem get?_of_get?_set {k k' : α} {v w : β} {d : Dict α β} (h : (d.set k v).get? k' = some w) :
    (k' = k ∧ w = v) ∨ d.get? k' = some w := by
  rw [get?_set] at h
  split_ifs at h with hk
  · exact Or.inl ⟨hk, (Option.some.inj h).symm⟩
  · exact Or.inr h

theorem get?_eq_none_iff {k : α} : ∀ {d : Dict α β}, d.get? k = none ↔ k ∉ d.keys
  | [] => by simp [get?, keys]
  | (k', v') :: d => by
    rw [get?]
    split_ifs with h
    · simp [keys, h]
    · rw [get?_eq_none_iff]
      simp [keys, Ne.symm h]

theorem mem_keys_set {k k' : α} {v : β} {d : Dict α β} :
    k' ∈ (d.set k v).keys ↔ k' = k ∨ k' ∈ d.keys := by
  rw [← not_iff_not, not_or, ← get?_eq_none_iff, ← get?_eq_none_iff, get?_set]
  split_ifs with h <;> simp [h]

theorem mem_of_get? {k : α} {v : β} : ∀ {d : Dict α β}, d.get? k = some v → (k, v) ∈ d
  | [], h => by cases h
  | (k', v') :: d, h => by
    rw [get?] at h
    split_ifs at h with hk
    · cases h
      exact hk ▸ List.mem_cons_self ..
    · exact List.mem_cons_of_mem _ (mem_of_get? h)

/-- Where the keys are all different, what is found is what is there. -/
theorem get?_eq_some_iff {k : α} {v : β} :
    ∀ {d : Dict α β}, d.keys.Nodup → (d.get? k = some v ↔ (k, v) ∈ d)
  | [], _ => by simp [get?]
  | (k', v') :: d, hd => by
    obtain ⟨hnot, hd⟩ := List.nodup_cons.mp hd
    rw [get?, List.mem_cons]
    split_ifs with hk
    · subst hk
      have hmem : (k', v) ∉ d := fun h => hnot (List.mem_map.mpr ⟨(k', v), h, rfl⟩)
      simp [hmem, eq_comm]
    · rw [get?_eq_some_iff hd]
      simp [Ne.symm hk]

/-- The values seen through a function. -/
theorem get?_map {γ : Type*} (g : β → γ) (k : α) :
    ∀ d : Dict α β, get? k (d.map fun kv => (kv.1, g kv.2)) = (d.get? k).map g
  | [] => rfl
  | (k', v') :: d => by
    by_cases h : k' = k
    · simp [get?, h]
    · simp [get?, h, get?_map g k d]

theorem map_set {γ : Type*} (g : β → γ) (k : α) (v : β) : ∀ d : Dict α β,
    (d.set k v).map (fun kv => (kv.1, g kv.2)) = Dict.set k (g v) (d.map fun kv => (kv.1, g kv.2))
  | [] => rfl
  | (k', v') :: d => by
    by_cases h : k' = k
    · simp [set, h]
    · simp [set, h, map_set g k v d]

/-- Setting one key adds at most one item. -/
theorem length_set_le (k : α) (v : β) : ∀ d : Dict α β, (d.set k v).length ≤ d.length + 1
  | [] => by simp [set]
  | (k', v') :: d => by
    by_cases h : k' = k
    · simp [set, h]
    · simpa [set, h] using length_set_le k v d

/-- The items after setting a key are the new one and old ones. -/
theorem mem_of_mem_set {k : α} {v : β} {x : α × β} :
    ∀ {d : Dict α β}, x ∈ d.set k v → x = (k, v) ∨ x ∈ d
  | [], h => by simpa [set] using h
  | (k', v') :: d, h => by
    by_cases hk : k' = k
    · rw [set, if_pos hk, List.mem_cons] at h
      exact h.imp_right (List.mem_cons_of_mem _)
    · rw [set, if_neg hk, List.mem_cons] at h
      rcases h with rfl | h
      · exact Or.inr (List.mem_cons_self ..)
      · exact (mem_of_mem_set h).imp_right (List.mem_cons_of_mem _)

/-- A key that is not there yet goes to the end. -/
theorem set_of_not_mem {k : α} (v : β) : ∀ {d : Dict α β}, k ∉ d.keys → d.set k v = d ++ [(k, v)]
  | [], _ => rfl
  | (k', v') :: d, h => by
    simp only [keys, List.map_cons, List.mem_cons, not_or] at h
    rw [set, if_neg (Ne.symm h.1), set_of_not_mem v h.2]
    rfl

/-- Setting a key, seen through the keys that `p` accepts. -/
theorem filter_set (p : α → Bool) (k : α) (v : β) (d : Dict α β) :
    (d.set k v).filter (fun kv => p kv.1) =
      if p k then Dict.set k v (d.filter fun kv => p kv.1) else d.filter fun kv => p kv.1 := by
  induction d with
  | nil =>
    rw [set, List.filter_cons]
    rfl
  | cons kv d ih =>
    obtain ⟨k', v'⟩ := kv
    by_cases hk : k' = k
    · subst hk
      cases hp : p k' <;> simp [set, hp]
    · rw [set, if_neg hk, List.filter_cons, List.filter_cons, ih]
      cases hp : p k <;> cases hp' : p k' <;> simp [set, hk]

/-- Setting a key that is there keeps the keys. -/
theorem keys_set_of_mem {k : α} {d : Dict α β} (v : β) (h : k ∈ d.keys) :
    (d.set k v).keys = d.keys := by
  induction d with
  | nil => cases h
  | cons kv d ih =>
    obtain ⟨k', v'⟩ := kv
    rw [Dict.set]
    split_ifs with hk
    · simp [Dict.keys, hk]
    · have hmem : k ∈ Dict.keys d := (List.mem_cons.mp h).resolve_left (Ne.symm hk)
      have hrest := ih hmem
      simp only [Dict.keys, List.map_cons] at hrest ⊢
      rw [hrest]

theorem nodup_keys_set {k : α} {d : Dict α β} (v : β) (h : d.keys.Nodup) :
    (d.set k v).keys.Nodup := by
  by_cases hmem : k ∈ d.keys
  · rwa [keys_set_of_mem v hmem]
  · rw [set_of_not_mem v hmem, keys, List.map_append]
    refine List.nodup_append.mpr ⟨h, List.pairwise_singleton _ _, fun x hx y hy heq => hmem ?_⟩
    rw [List.map_singleton, List.mem_singleton] at hy
    have hxk : x = k := heq.trans hy
    exact hxk ▸ hx

/-- Two tables of the same keys have the same keys after a key is set in both. -/
theorem keys_set_congr {γ : Type v} {d : Dict α β} {e : Dict α γ} (h : d.keys = e.keys) (k : α)
    (v : β) (w : γ) :
    (d.set k v).keys = (e.set k w).keys := by
  induction d generalizing e with
  | nil =>
    cases e with
    | nil => rfl
    | cons kw e => cases h
  | cons kv d ih =>
    cases e with
    | nil => cases h
    | cons kw e =>
      obtain ⟨k', v'⟩ := kv
      obtain ⟨k'', w'⟩ := kw
      simp only [Dict.keys, List.map_cons, List.cons.injEq] at h
      obtain ⟨rfl, h⟩ := h
      rw [Dict.set, Dict.set]
      split_ifs with hk
      · simp [Dict.keys, h]
      · have hrest := ih (e := e) h
        simp only [Dict.keys, List.map_cons] at hrest ⊢
        rw [hrest]

/-- Writing what is there changes nothing. -/
theorem set_of_get? {k : α} {v : β} {d : Dict α β} (h : d.get? k = some v) : d.set k v = d := by
  induction d with
  | nil => cases h
  | cons kv d ih =>
    obtain ⟨k', v'⟩ := kv
    rw [Dict.get?] at h
    rw [Dict.set]
    split_ifs at h ⊢ with hk
    · rw [← hk, ← Option.some.inj h]
    · rw [ih h]

end Dict

end Python
