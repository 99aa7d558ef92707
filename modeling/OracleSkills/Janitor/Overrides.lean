import OracleSkills.Server.InventoryHook

/-!
# Writing the overrides

`_write_overrides` merges the cold names into `skillOverrides` of `settings.json`. It is "guarded,
because Claude Code silently discards the WHOLE file if any value is not in the enum": the state and
the merged values are checked, there is a backup, the new text is staged in another file and parsed
"before it becomes the real file", and where a key has changed nevertheless the backup is put back.

`dict(data.get("skillOverrides") or {})` takes a list of pairs too, and the keys of these need not
be strings. `json.dumps` writes them as strings, next to strings that are the same.
`settings_undamaged_iff` says that this is all that can go wrong.
-/

namespace OracleSkills.Janitor

open Python
open Server.Rpc (Json)
open Server.InventoryHook (orEmpty iterate)

universe u

/-! ### Mappings -/

/-- `d[k] = v`, where `same` is the equality of the keys. -/
def setKey (same : Json → Json → Bool) (k v : Json) : List (Json × Json) → List (Json × Json)
  | [] => [(k, v)]
  | (k', v') :: d => if same k' k then (k', v) :: d else (k', v') :: setKey same k v d

/-- `d.get(k)`. -/
def getKey (same : Json → Json → Bool) (k : Json) : List (Json × Json) → Option Json
  | [] => none
  | (k', v') :: d => if same k' k then some v' else getKey same k d

/-- A dictionary made of pairs, `none` where one is no pair, or its key cannot be hashed. -/
def dictOfPairs (same : Json → Json → Bool) (d : List (Json × Json)) : List Json →
    Option (List (Json × Json))
  | [] => some d
  | x :: xs =>
    match iterate x with
    | some [k, v] => if k.hashable then dictOfPairs same (setKey same k v d) xs else none
    | _ => none

/-- `dict(value)`, of a value that is truthy or an empty dictionary. -/
def dictOf (same : Json → Json → Bool) : Json → Option (List (Json × Json))
  | .obj members => some (members.foldl (fun d m => setKey same (.str m.1) m.2 d) [])
  | .arr xs => dictOfPairs same [] xs
  | _ => none

/-- The keys of a mapping as `json.dumps` writes them, of which `json.load` keeps the last value. -/
def writtenKeys (keyText : Json → Text) (d : List (Json × Json)) : Dict Text Json :=
  d.foldl (fun m kv => m.set (keyText kv.1) kv.2) []

/-- What the janitor uses of Python's `json`. -/
structure Codec (C : Type u) where
  /-- `json.load` of a file's content, `none` where it raises. -/
  parse : C → Option Json
  /-- `json.dumps` of the settings with their overrides, and its encoding, `none` where it
  raises. -/
  dumps : Dict Text Json → List (Json × Json) → Option C
  /-- `==`. -/
  same : Json → Json → Bool
  same_str : ∀ x t, same x (.str t) = true ↔ x = .str t
  /-- The text of a key. -/
  keyText : Json → Text
  keyText_str : ∀ t, keyText (.str t) = t
  /-- What is written is read back. -/
  parse_dumps : ∀ {data overrides c}, dumps data overrides = some c →
    parse c = some (.obj (data.set "skillOverrides".toList (.obj (writtenKeys keyText overrides))))
  /-- What a write leaves that is cut off. -/
  torn : C

variable {C : Type u}

/-! ### The janitor's write -/

/-- `STATES`: "the states Claude Code accepts". -/
def states : List Text :=
  ["on".toList, "name-only".toList, "user-invocable-only".toList, "off".toList]

/-- `v in STATES`. -/
def isState : Json → Bool
  | .str v => v ∈ states
  | _ => false

/-- `len(v) if isinstance(v, (list, dict)) else v`. -/
def sizeOf : Json → Json
  | .arr items => .int items.length
  | .obj members => .int members.length
  | v => v

/-- `data.get("skillOverrides") or {}`, as a mapping. -/
def overridesOf (J : Codec C) (data : Dict Text Json) : Option (List (Json × Json)) :=
  dictOf J.same (orEmpty (data.get? "skillOverrides".toList))

/-- `overrides.update({n: state for n in names})`. -/
def update (J : Codec C) (names : List Text) (state : Text) (overrides : List (Json × Json)) : List
    (Json × Json) :=
  names.foldl (fun d n => setKey J.same (.str n) (.str state) d) overrides

/-- `[n for n in names if overrides.get(n) != state]`. -/
def added (J : Codec C) (names : List Text) (state : Text) (overrides : List (Json × Json)) :
    List Text :=
  names.filter fun n => !((getKey J.same (.str n) overrides).any fun v => J.same v (.str state))

/-- A key but the overrides has another value, or another number of items. -/
def lost (J : Codec C) (data after : Dict Text Json) : Bool :=
  data.any fun kv => decide (kv.1 ≠ "skillOverrides".toList) &&
    !J.same (sizeOf ((after.get? kv.1).getD .null)) (sizeOf kv.2)

/-- The steps that may fail by themselves. -/
inductive Step where
  | read
  | backup
  | stage
  | replace
  | check
  | restore
  deriving DecidableEq

/-- How a call ends: `renamed` tells whether an exception came after the rename. -/
inductive Exit where
  | returned (added : List Text)
  | refused
  | raised (renamed : Bool)

/-- The files. -/
structure Disk (C : Type u) where
  settings : C
  backup : Option C
  staged : Option C

/-- The rename, and the check after it: "put it back rather than leave it damaged". -/
def replace (J : Codec C) (fault : Step → Bool) (disk : Disk C) (data : Dict Text Json) (text : C)
    (as : List Text) : Exit × Disk C :=
  if fault .replace then (.raised false, { disk with staged := some text })
  else if fault .check then (.raised true, { disk with settings := text, staged := none })
  else
    match J.parse text with
    | some (.obj after) =>
      if lost J data after then
        if fault .restore then (.raised true, { disk with settings := J.torn, staged := none })
        else (.refused, { disk with settings := disk.backup.getD J.torn, staged := none })
        else (.returned as, { disk with settings := text, staged := none })
    | _ => (.raised true, { disk with settings := text, staged := none })

/-- The merge of the overrides, and the staging: "parse before it becomes the real file". -/
def merge (J : Codec C) (fault : Step → Bool) (disk : Disk C) (data : Dict Text Json)
    (names : List Text) (state : Text) :
    Exit × Disk C :=
  match overridesOf J data with
  | none => (.raised false, disk)
  | some overrides =>
    if (update J names state overrides).any fun kv => !isState kv.2 then (.refused, disk)
    else
      match J.dumps data (update J names state overrides) with
      | none => (.raised false, { disk with staged := some J.torn })
      | some text =>
        if fault .stage then (.raised false, { disk with staged := some J.torn })
        else if (J.parse text).isNone then (.raised false, { disk with staged := some text })
        else replace J fault disk data text (added J names state overrides)

/-- `_write_overrides`. -/
def writeOverrides (J : Codec C) (fault : Step → Bool) (disk : Disk C) (names : List Text)
    (state : Text) : Exit × Disk C :=
  if state ∉ states then (.refused, disk)
  else if fault .read then (.raised false, disk)
  else
    match J.parse disk.settings with
    | some (.obj data) =>
      if fault .backup then (.raised false, { disk with backup := some J.torn })
      else merge J fault { disk with backup := some disk.settings } data names state
    | _ => (.raised false, disk)

/-! ### What is claimed -/

/-- The new settings are the old ones with the overrides updated, and these are all accepted. -/
structure Merged (J : Codec C) (names : List Text) (state : Text) (old new : C)
    (overrides : List (Json × Json)) : Prop where
  parses : ∃ data written : Dict Text Json, J.parse old = some (.obj data) ∧
    overridesOf J data = some overrides ∧
    J.parse new = some (.obj (data.set "skillOverrides".toList (.obj written))) ∧
    (∀ k v, (k, v) ∈ update J names state overrides ↔ ∃ t, k = .str t ∧ (t, v) ∈ written) ∧
      ∀ kv ∈ written, isState kv.2 = true

/-- What is claimed of a call that does not raise after the rename. -/
structure Undamaged (J : Codec C) (old : C) (names : List Text) (state : Text) : Prop where
  settings : ∀ fault disk, disk.settings = old →
    (writeOverrides J fault disk names state).1 ≠ .raised true →
    (writeOverrides J fault disk names state).2.settings = old ∨
      ∃ overrides, Merged J names state old
        (writeOverrides J fault disk names state).2.settings overrides
  returned : ∀ fault disk as, disk.settings = old →
    (writeOverrides J fault disk names state).1 = .returned as →
    ∃ overrides, Merged J names state old
      (writeOverrides J fault disk names state).2.settings overrides ∧
      ∀ n, n ∈ as ↔ n ∈ names ∧ (.str n, .str state) ∉ overrides

/-- If a call comes to write, and does not put the backup back, the keys of the overrides are
strings. -/
def StringKeys (J : Codec C) (old : C) (names : List Text) (state : Text) : Prop :=
  ∀ (data : Dict Text Json) overrides text, state ∈ states → J.parse old = some (.obj data) →
    overridesOf J data = some overrides →
    (∀ kv ∈ update J names state overrides, isState kv.2 = true) →
      J.dumps data (update J names state overrides) = some text →
    lost J data data = false → ∀ kv ∈ overrides, ∃ t, kv.1 = .str t

/-! ### Keys that are strings -/

section Keys

variable {J : Codec C} {d : List (Json × Json)} {s : Dict Text Json}

/-- A mapping with strings for keys. -/
def lift (s : Dict Text Json) : List (Json × Json) := s.map fun kv => (.str kv.1, kv.2)

theorem exists_lift : ∀ {d : List (Json × Json)}, (∀ kv ∈ d, ∃ t, kv.1 = .str t) → ∃ s, d = lift s
  | [], _ => ⟨[], rfl⟩
  | (k, v) :: d, h => by
    obtain ⟨s, rfl⟩ := exists_lift fun kv hkv => h kv (List.mem_cons_of_mem _ hkv)
    obtain ⟨t, rfl⟩ := h (k, v) (List.mem_cons_self ..)
    exact ⟨(t, v) :: s, rfl⟩

theorem mem_lift {k v : Json} : (k, v) ∈ lift s ↔ ∃ t, k = .str t ∧ (t, v) ∈ s := by
  rw [lift, List.mem_map]
  constructor
  · rintro ⟨⟨t, w⟩, hmem, heq⟩
    cases heq
    exact ⟨t, rfl, hmem⟩
  · rintro ⟨t, rfl, hmem⟩
    exact ⟨(t, v), hmem, rfl⟩

theorem same_str_str (J : Codec C) (a b : Text) : J.same (.str a) (.str b) = decide (a = b) := by
  rw [Bool.eq_iff_iff, J.same_str, Json.str.injEq, decide_eq_true_eq]

theorem setKey_lift (J : Codec C) (t : Text) (v : Json) :
    ∀ s : Dict Text Json, setKey J.same (.str t) v (lift s) = lift (s.set t v)
  | [] => rfl
  | (t', v') :: s => by
    rw [lift, List.map_cons, setKey, same_str_str, Dict.set]
    split_ifs with h h' h'
    · rw [of_decide_eq_true h]
      rfl
    · exact absurd (of_decide_eq_true h) h'
    · exact absurd (decide_eq_true h') h
    · rw [← lift, setKey_lift J t v s]
      rfl

theorem getKey_lift (J : Codec C) (t : Text) :
    ∀ s : Dict Text Json, getKey J.same (.str t) (lift s) = s.get? t
  | [] => rfl
  | (t', v') :: s => by
    rw [lift, List.map_cons, getKey, same_str_str, Dict.get?, ← lift, getKey_lift J t s]
    simp only [decide_eq_true_eq]

/-- No two keys are the same. -/
def Distinct (same : Json → Json → Bool) (d : List (Json × Json)) : Prop :=
  d.Pairwise fun a b => same a.1 b.1 = false

theorem key_of_mem_setKey {same : Json → Json → Bool} {k v : Json} {x : Json × Json} :
    ∀ {d : List (Json × Json)},
    x ∈ setKey same k v d → x.1 = k ∨ ∃ y ∈ d, x.1 = y.1
  | [], h => Or.inl (List.mem_singleton.mp h ▸ rfl)
  | (k', v') :: d, h => by
    rw [setKey] at h
    split_ifs at h with hk
    · rcases List.mem_cons.mp h with rfl | h
      · exact Or.inr ⟨_, List.mem_cons_self .., rfl⟩
      · exact Or.inr ⟨x, List.mem_cons_of_mem _ h, rfl⟩
    · rcases List.mem_cons.mp h with rfl | h
      · exact Or.inr ⟨_, List.mem_cons_self .., rfl⟩
      · obtain h | ⟨y, hy, hxy⟩ := key_of_mem_setKey h
        · exact Or.inl h
        · exact Or.inr ⟨y, List.mem_cons_of_mem _ hy, hxy⟩

/-- The keys of a mapping stay distinct. -/
theorem distinct_setKey {same : Json → Json → Bool} (k v : Json) :
    ∀ {d : List (Json × Json)}, Distinct same d →
    Distinct same (setKey same k v d)
  | [], _ => List.pairwise_singleton _ _
  | (k', v') :: d, h => by
    obtain ⟨hhead, htail⟩ := List.pairwise_cons.mp h
    rw [setKey]
    split_ifs with hk
    · exact List.pairwise_cons.mpr ⟨hhead, htail⟩
    · refine List.pairwise_cons.mpr ⟨fun x hx => ?_, distinct_setKey k v htail⟩
      obtain hx | ⟨y, hy, hxy⟩ := key_of_mem_setKey hx
      · rw [hx]
        exact Bool.not_eq_true _ ▸ hk
      · rw [hxy]
        exact hhead y hy

theorem distinct_foldl {β : Type*} {same : Json → Json → Bool} (f : β → Json × Json) (bs : List β)
    {d : List (Json × Json)} (h : Distinct same d) :
    Distinct same (bs.foldl (fun d b => setKey same (f b).1 (f b).2 d) d) := by
  induction bs generalizing d with
  | nil => exact h
  | cons b bs ih => exact ih (distinct_setKey _ _ h)

theorem distinct_dictOfPairs {same : Json → Json → Bool} {xs : List Json}
    {d d' : List (Json × Json)}
    (h : dictOfPairs same d xs = some d') (hd : Distinct same d) : Distinct same d' := by
  induction xs generalizing d with
  | nil => exact Option.some.inj h ▸ hd
  | cons x xs ih =>
    rw [dictOfPairs] at h
    split at h
    · split_ifs at h
      exact ih h (distinct_setKey _ _ hd)
    · cases h

/-- `dict(…)` gives a mapping. -/
theorem distinct_dictOf {same : Json → Json → Bool} {v : Json} (h : dictOf same v = some d) :
    Distinct same d := by
  cases v with
  | obj members => exact Option.some.inj h ▸ distinct_foldl (fun m : Text × Json => (.str m.1, m.2)) members List.Pairwise.nil
  | arr xs => exact distinct_dictOfPairs h List.Pairwise.nil
  | _ => cases h

theorem nodup_of_distinct (h : Distinct J.same (lift s)) : s.keys.Nodup := by
  rw [Distinct, lift, List.pairwise_map] at h
  refine List.pairwise_map.mpr (h.imp fun hab => ?_)
  rw [same_str_str] at hab
  exact of_decide_eq_false hab

/-- A mapping with strings for keys is written as it is. -/
theorem writtenKeys_lift (hs : s.keys.Nodup) : writtenKeys J.keyText (lift s) = s := by
  have hfold : ∀ (s m : Dict Text Json), (m.keys ++ s.keys).Nodup →
      (lift s).foldl (fun m kv => m.set (J.keyText kv.1) kv.2) m = m ++ s := by
    intro s
    induction s with
    | nil => exact fun m _ => (List.append_nil m).symm
    | cons kv s ih =>
      intro m hm
      have hnot : kv.1 ∉ m.keys := fun hmem =>
        (List.nodup_append.mp hm).2.2 kv.1 hmem kv.1 (List.mem_cons_self ..) rfl
      rw [lift, List.map_cons, List.foldl_cons, ← lift, J.keyText_str,
        Dict.set_of_not_mem _ hnot, ih]
      · rw [List.append_assoc]
        rfl
      · rw [Dict.keys, List.map_append, List.append_assoc]
        exact hm
  exact hfold s [] hs

theorem update_lift (J : Codec C) (names : List Text) (state : Text) (s : Dict Text Json) :
    update J names state (lift s) = lift (names.foldl (fun d n => d.set n (.str state)) s) := by
  induction names generalizing s with
  | nil => rfl
  | cons n names ih => exact (congrArg (List.foldl _ · names) (setKey_lift J n _ s)).trans (ih _)

theorem mem_keys_setKey {same : Json → Json → Bool} {k v x : Json} : ∀ {d : List (Json × Json)},
    x ∈ d.map Prod.fst → x ∈ (setKey same k v d).map Prod.fst
  | [], h => absurd h List.not_mem_nil
  | (k', v') :: d, h => by
    rw [setKey]
    split_ifs
    · exact h
    · exact (List.mem_cons.mp h).elim (fun h => h ▸ List.mem_cons_self ..) fun h =>
        List.mem_cons_of_mem _ (mem_keys_setKey h)

/-- An update takes no key away. -/
theorem exists_mem_update (J : Codec C) (names : List Text) (state : Text) {x : Json}
    (h : x ∈ d.map Prod.fst) :
    ∃ v, (x, v) ∈ update J names state d := by
  have hkeys : ∀ (names : List Text) (d : List (Json × Json)), x ∈ d.map Prod.fst →
      x ∈ (update J names state d).map Prod.fst := by
    intro names
    induction names with
    | nil => exact fun _ h => h
    | cons n names ih => exact fun d h => ih _ (mem_keys_setKey h)
  obtain ⟨⟨k, v⟩, hmem, rfl⟩ := List.mem_map.mp (hkeys names d h)
  exact ⟨v, hmem⟩

end Keys

/-! ### How a call ends -/

section Call

variable {J : Codec C} {fault : Step → Bool} {disk : Disk C} {names : List Text} {state : Text}

/-- The merged overrides are accepted and can be written, and nothing else has changed. -/
structure Writes (J : Codec C) (old : C) (names : List Text) (state : Text) (data : Dict Text Json)
    (overrides : List (Json × Json)) (text : C) : Prop where
  accepted : state ∈ states
  parses : J.parse old = some (.obj data)
  mapping : overridesOf J data = some overrides
  values : ∀ kv ∈ update J names state overrides, isState kv.2 = true
  dumps : J.dumps data (update J names state overrides) = some text
  kept : lost J data data = false

/-- The other keys are read back as they were. -/
theorem lost_set (J : Codec C) (data : Dict Text Json) (v : Json) :
    lost J data (data.set "skillOverrides".toList v) = lost J data data := by
  rw [lost, lost, Bool.eq_iff_iff, List.any_eq_true, List.any_eq_true]
  refine exists_congr fun kv => and_congr_right fun _ => ?_
  by_cases hk : kv.1 = "skillOverrides".toList
  · simp only [hk, ne_eq, not_true, decide_false, Bool.false_and]
  · rw [Dict.get?_set_of_ne v hk]

/-- How a call may end: the settings are the old ones, or an exception came after the rename, or
they are written. -/
def Ends (J : Codec C) (old : C) (names : List Text) (state : Text) (r : Exit × Disk C) : Prop :=
  (r.2.settings = old ∧ ∀ as, r.1 ≠ .returned as) ∨ r.1 = .raised true ∨
    ∃ data overrides text, Writes J old names state data overrides text ∧
      r.1 = .returned (added J names state overrides) ∧
      r.2.settings = text

theorem Ends.of_unwritten {old : C} {e : Exit} (hold : disk.settings = old)
    (he : ∀ as, e ≠ .returned as) :
    Ends J old names state (e, disk) := Or.inl ⟨hold, he⟩

/-- From the rename on. -/
theorem ends_replace (fault : Step → Bool) {data : Dict Text Json} {overrides : List (Json × Json)}
    {text old : C} (hsettings : disk.settings = old) (hbackup : disk.backup = some old)
    (hwrites : lost J data data = false → Writes J old names state data overrides text)
    (hdumps : J.dumps data (update J names state overrides) = some text) :
    Ends J old names state (replace J fault disk data text (added J names state overrides)) := by
  rw [replace, J.parse_dumps hdumps]
  by_cases hreplace : fault .replace = true
  · rw [if_pos hreplace]
    exact Ends.of_unwritten hsettings fun _ h => (by cases h)
  rw [if_neg hreplace]
  by_cases hcheck : fault .check = true
  · rw [if_pos hcheck]
    exact Or.inr (Or.inl rfl)
  rw [if_neg hcheck]
  simp only [lost_set]
  cases hlost : lost J data data with
  | true =>
    rw [if_pos rfl]
    split_ifs
    · exact Or.inr (Or.inl rfl)
    · exact Ends.of_unwritten (by rw [hbackup, Option.getD_some]) fun _ h => (by cases h)
  | false => exact Or.inr (Or.inr ⟨data, overrides, text, hwrites hlost, rfl, rfl⟩)

/-- From the merge on. -/
theorem ends_merge {data : Dict Text Json} {old : C} (hstate : state ∈ states)
    (hparse : J.parse old = some (.obj data))
    (hsettings : disk.settings = old) (hbackup : disk.backup = some old) :
    Ends J old names state (merge J fault disk data names state) := by
  rw [merge]
  cases hmapping : overridesOf J data with
  | none => exact Ends.of_unwritten hsettings fun _ h => (by cases h)
  | some overrides =>
    by_cases hvalues : ((update J names state overrides).any fun kv => !isState kv.2) = true
    · simp only [hvalues, if_true]
      exact Ends.of_unwritten hsettings fun _ h => (by cases h)
    · simp only [if_neg hvalues]
      have hvalues' : ∀ kv ∈ update J names state overrides, isState kv.2 = true := by
        simpa using hvalues
      cases hdumps : J.dumps data (update J names state overrides) with
      | none => exact Ends.of_unwritten hsettings fun _ h => (by cases h)
      | some text =>
        have hends := ends_replace fault hsettings hbackup
          (fun hlost => ⟨hstate, hparse, hmapping, hvalues', hdumps, hlost⟩) hdumps
        simp only [J.parse_dumps hdumps, Option.isNone_some, Bool.false_eq_true, if_false]
        split_ifs
        · exact Ends.of_unwritten hsettings fun _ h => (by cases h)
        · exact hends

/-- **Every way to end** a call. -/
theorem ends_writeOverrides (J : Codec C) (fault : Step → Bool) (disk : Disk C) (names : List Text)
    (state : Text) :
    Ends J disk.settings names state (writeOverrides J fault disk names state) := by
  rw [writeOverrides]
  by_cases hstate : state ∉ states
  · rw [if_pos hstate]
    exact Ends.of_unwritten rfl fun _ h => (by cases h)
  rw [if_neg hstate]
  by_cases hread : fault .read = true
  · rw [if_pos hread]
    exact Ends.of_unwritten rfl fun _ h => (by cases h)
  rw [if_neg hread]
  split
  · rename_i data hparse
    by_cases hbackup : fault .backup = true
    · rw [if_pos hbackup]
      exact Ends.of_unwritten rfl fun _ h => (by cases h)
    · rw [if_neg hbackup]
      exact ends_merge (not_not.mp hstate) hparse rfl rfl
  · exact Ends.of_unwritten rfl fun _ h => (by cases h)

/-- Where no step fails, what can be written is. -/
theorem writeOverrides_of_writes (disk : Disk C) {data : Dict Text Json}
    {overrides : List (Json × Json)} {text : C}
    (h : Writes J disk.settings names state data overrides text) : ∃ d, d.settings = text ∧
      writeOverrides J (fun _ => false) disk names state =
          (.returned (added J names state overrides), d) := by
  have hvalues : ((update J names state overrides).any fun kv => !isState kv.2) = false := by
    simpa using h.values
  refine ⟨⟨text, some disk.settings, none⟩, rfl, ?_⟩
  rw [writeOverrides, if_neg (not_not.mpr h.accepted), if_neg Bool.false_ne_true, h.parses]
  simp only [Bool.false_eq_true, if_false, merge, h.mapping, hvalues, h.dumps,
    J.parse_dumps h.dumps, Option.isNone_some, replace, lost_set, h.kept]

end Call

/-! ### The claim -/

section Claim

variable {J : Codec C} {old : C} {names : List Text} {state : Text}

/-- Written with strings for keys, the settings are as claimed. -/
theorem merged_of_writes {data : Dict Text Json} {overrides : List (Json × Json)} {text : C}
    (h : Writes J old names state data overrides text)
    (hkeys : ∀ kv ∈ overrides, ∃ t, kv.1 = .str t) :
    Merged J names state old text overrides ∧ ∀ n, n ∈ added J names state overrides ↔ n ∈ names ∧
        (.str n, .str state) ∉ overrides := by
  have hdistinct := distinct_dictOf h.mapping
  obtain ⟨s, rfl⟩ := exists_lift hkeys
  have hs := nodup_of_distinct hdistinct
  have hs' : (names.foldl (fun d n => Dict.set n (.str state) d) s).keys.Nodup := by
    have hfold : Distinct J.same (update J names state (lift s)) :=
      distinct_foldl (fun n : Text => (Json.str n, Json.str state)) names hdistinct
    rw [update_lift] at hfold
    exact nodup_of_distinct hfold
  refine ⟨⟨data, _, h.parses, h.mapping, J.parse_dumps h.dumps, ?_, ?_⟩, ?_⟩
  · intro k v
    rw [update_lift, writtenKeys_lift hs', mem_lift]
  · intro kv hkv
    rw [update_lift, writtenKeys_lift hs'] at hkv
    exact h.values (.str kv.1, kv.2) (update_lift J names state s ▸ mem_lift.mpr ⟨kv.1, rfl, hkv⟩)
  · intro n
    have hany : ((s.get? n).any fun v => J.same v (.str state)) = true ↔ (n, .str state) ∈ s := by
      rw [Option.any_eq_true, ← Dict.get?_eq_some_iff hs]
      simp only [J.same_str, exists_eq_right]
    rw [added, List.mem_filter, getKey_lift, Bool.not_eq_true', ← Bool.not_eq_true, hany, mem_lift]
    simp only [Json.str.injEq, exists_eq_left']

/-- **The settings are never damaged**, if and only if the keys that are written are strings. -/
theorem settings_undamaged_iff (J : Codec C) (old : C) (names : List Text) (state : Text) :
    Undamaged J old names state ↔ StringKeys J old names state := by
  constructor
  · intro h data overrides text hstate hparse hmapping hvalues hdumps hlost
    have hwrites : Writes J old names state data overrides text :=
      ⟨hstate, hparse, hmapping, hvalues, hdumps, hlost⟩
    obtain ⟨d, hd, hrun⟩ := writeOverrides_of_writes ⟨old, none, none⟩ hwrites
    obtain ⟨overrides', hmerged, -⟩ :=
      h.returned (fun _ => false) ⟨old, none, none⟩ _ rfl (by rw [hrun])
    obtain ⟨data', written, hparse', hmapping', -, hsame, -⟩ := hmerged.parses
    cases hparse.symm.trans hparse'
    cases hmapping.symm.trans hmapping'
    intro kv hkv
    obtain ⟨v, hv⟩ := exists_mem_update J names state (List.mem_map_of_mem hkv)
    obtain ⟨t, ht, -⟩ := (hsame kv.1 v).mp hv
    exact ⟨t, ht⟩
  · intro h
    refine ⟨fun fault disk hold hexit => ?_, fun fault disk as hold hexit => ?_⟩
    · subst hold
      obtain ⟨hsettings, -⟩ | hraised | ⟨data, overrides, text, hwrites, -, hsettings⟩ :=
        ends_writeOverrides J fault disk names state
      · exact Or.inl hsettings
      · exact absurd hraised hexit
      · refine Or.inr ⟨overrides, hsettings ▸ (merged_of_writes hwrites ?_).1⟩
        exact h data overrides text hwrites.accepted hwrites.parses hwrites.mapping hwrites.values
          hwrites.dumps hwrites.kept
    · subst hold
      obtain ⟨-, hnot⟩ | hraised | ⟨data, overrides, text, hwrites, hreturned, hsettings⟩ :=
        ends_writeOverrides J fault disk names state
      · exact absurd hexit (hnot as)
      · cases hexit.symm.trans hraised
      · cases hexit.symm.trans hreturned
        refine ⟨overrides, hsettings ▸ merged_of_writes hwrites ?_⟩
        exact h data overrides text hwrites.accepted hwrites.parses hwrites.mapping hwrites.values
          hwrites.dumps hwrites.kept

end Claim

/-! ### A list of pairs -/

/-- The text of a key that is a string or a natural number. -/
def keyOf : Json → Text
  | .str t => t
  | .int n => Nat.toDigits 10 n.toNat
  | _ => []

/-- A content is what it is parsed to. -/
def plainCodec : Codec Json where
  parse c := some c
  dumps data overrides :=
    some (.obj (data.set "skillOverrides".toList (.obj (writtenKeys keyOf overrides))))
  same := Server.InventoryHook.sameStr
  same_str := Server.InventoryHook.sameStr_str
  keyText := keyOf
  keyText_str _ := rfl
  parse_dumps h := h.symm
  torn := .null

/-- `{"skillOverrides": [["1", "on"], [1, "off"]]}`. -/
def pairs : Json :=
  .obj [("skillOverrides".toList,
    .arr [.arr [.str "1".toList, .str "on".toList], .arr [.int 1, .str "off".toList]])]

/-- The skill `1` is set to `name-only`, and is read as `off`. -/
theorem not_undamaged_pairs : ¬ Undamaged plainCodec pairs ["1".toList] "name-only".toList := by
  intro h
  have hrun : (writeOverrides plainCodec (fun _ => false)
      ⟨pairs, none, none⟩ ["1".toList] "name-only".toList).2.settings =
      .obj [("skillOverrides".toList, .obj [("1".toList, .str "off".toList)])] := rfl
  obtain ⟨overrides, hmerged, -⟩ :=
    h.returned (fun _ => false) ⟨pairs, none, none⟩ ["1".toList] rfl rfl
  rw [hrun] at hmerged
  obtain ⟨data, written, hdata, hoverrides, hwritten, hsame, -⟩ := hmerged.parses
  cases hdata
  cases hoverrides
  cases hwritten
  obtain ⟨t, ht, hmem⟩ :=
    (hsame (.str "1".toList) (.str "name-only".toList)).mp (List.mem_cons_self ..)
  rw [List.mem_singleton] at hmem
  cases hmem

end OracleSkills.Janitor
