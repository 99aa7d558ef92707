import OracleSkills.Frontmatter.Scalar

/-!
# The server's frontmatter

`server.py` reads a `SKILL.md` by lines: the fence is the first line after the first
that is `---` when stripped (`closeAt`), the block between goes to PyYAML, and where
PyYAML is absent, fails, or gives no mapping, to "a dependency-free flat fallback for
top-level keys" (`flatFallback`). `skill_patch` takes the raw lines instead
(`rawFrontmatter`) and replaces or appends top-level keys in them (`setFmKey`).

PyYAML is outside the repository. It is a parameter `Yaml`: an arbitrary function that
gives a value or raises. A value is known by what the server can see of it, its
truth value, what `str()` makes of it, and for lists and mappings their items; `str()`
may itself raise, as it does on an integer past the interpreter's digit limit.
-/

namespace OracleSkills.Server

open Python Frontmatter

/-- An exception, by what the server's handlers distinguish. -/
inductive Raised where
  /-- A `ValueError`, with its message. -/
  | valueError (message : Text)
  /-- Any other exception. -/
  | other (what : Text)

/-- A computation that gives a result has given one at each of its steps. -/
theorem bind_eq_ok.{u, v} {ε : Type u} {α β : Type v} {x : Except ε α}
    {f : α → Except ε β} {b : β} :
    (x >>= f) = .ok b ↔ ∃ a, x = .ok a ∧ f a = .ok b := by
  cases x with
  | error e =>
    constructor
    · intro h
      cases h
    · rintro ⟨_, h, -⟩
      cases h
  | ok a =>
    constructor
    · exact fun h => ⟨a, rfl, h⟩
    · rintro ⟨_, h, hf⟩
      cases h
      exact hf

/-- A Python value that comes out of YAML. -/
inductive Value where
  /-- `None`. -/
  | none
  /-- A `str`. -/
  | str (t : Text)
  /-- A `list`, and what `str()` gives of it. -/
  | list (xs : List Value) (shown : Except Raised Text)
  /-- A `dict`, and what `str()` gives of it. -/
  | dict (kvs : List (Value × Value)) (shown : Except Raised Text)
  /-- Any other object: its truth value, its type's name, and what `str()` gives of it. -/
  | obj (truth : Bool) (type : Text) (shown : Except Raised Text)

/-- `str(v)`. -/
def Value.toStr : Value → Except Raised Text
  | .none => .ok "None".toList
  | .str t => .ok t
  | .list _ s => s
  | .dict _ s => s
  | .obj _ _ s => s

/-- `bool(v)`. -/
def Value.truth : Value → Bool
  | .none => false
  | .str t => t ≠ []
  | .list xs _ => !xs.isEmpty
  | .dict kvs _ => !kvs.isEmpty
  | .obj b _ _ => b

/-- `type(v).__name__`. -/
def Value.typeName : Value → Text
  | .none => "NoneType".toList
  | .str _ => "str".toList
  | .list _ _ => "list".toList
  | .dict _ _ => "dict".toList
  | .obj _ n _ => n

/-- PyYAML: `none` when it cannot be imported, else `yaml.safe_load`, which gives a
value or raises an exception `e`, of which the server uses `str(e)`. -/
abbrev Yaml := Option (Text → Except Text Value)

/-! ### The block between the fences -/

/-- The lines before the first line that is a fence when stripped, and those after it. -/
def closeAt : List Text → Option (List Text × List Text)
  | [] => none
  | l :: ls => if strip l = fence then some ([],
    ls) else (closeAt ls).map fun ab => (l :: ab.1, ab.2)

/-- The loop that looks for the closing fence, from the second line on. -/
def blockLines (text : Text) : Option (List Text × List Text) := closeAt (splitlines text).tail

/-- `"\n".join(lines).lstrip("\n")`, the body as the server cuts it. -/
def bodyOf (lines : List Text) : Text := (join ['\n'] lines).dropWhile (· = '\n')

/-- One turn of the fallback's loop. -/
def fallbackLine (fm : Dict Text Text) (raw : Text) : Dict Text Text :=
  if strip raw = [] ∨ lstrip raw ≠ raw then fm
  else
    match cut [':'] raw with
    | none => fm
    | some (key, val) => fm.set (strip key) (unquote (strip val))

/-- The flat fallback on a block. -/
def flatFallback (block : Text) : Dict Text Text := (splitlines block).foldl fallbackLine []

/-- `{str(k): v for k, v in parsed.items()}`. -/
def strKeys : List (Value × Value) → Dict Text Value → Except Raised (Dict Text Value)
  | [], fm => .ok fm
  | (k, v) :: kvs, fm => do
    let k ← k.toStr
    strKeys kvs (fm.set k v)

/-- A flat dictionary as a dictionary of values. -/
def ofFlat (fm : Dict Text Text) : Dict Text Value := fm.map fun kv => (kv.1, .str kv.2)

/-- `_split_frontmatter_ex`: the dictionary, the body, and the status of the parse. The
status of a YAML error shows the first line of its message; a message without lines has
no first line, and the subscript raises. -/
def splitFrontmatterEx (yaml : Yaml) (text : Text) :
    Except Raised (Dict Text Value × Text × Option Text) :=
  if ¬ fence.isPrefixOf text then .ok ([], text, some "no frontmatter fence".toList)
  else
    match blockLines text with
    | none => .ok ([], text, some "frontmatter fence never closes".toList)
    | some (lines, rest) =>
      let block := join ['\n'] lines
      let body := bodyOf rest
      let fallback := ofFlat (flatFallback block)
      match yaml with
      | none => .ok (fallback, body,
        some "PyYAML unavailable; parsed with the flat fallback".toList)
      | some load =>
        match load block with
        | .error e =>
          match splitlines e with
          | [] => .error (.other "IndexError".toList)
          | l :: _ => .ok (fallback, body,
            some ("YAML parse error, used flat fallback: ".toList ++ l.take 120))
        | .ok (.dict kvs _) => do
          let fm ← strKeys kvs []
          .ok (fm, body, none)
        | .ok v =>
          .ok (fallback, body,
            some ("frontmatter is not a mapping (".toList ++ v.typeName ++
              "); used flat fallback".toList))

/-- `_raw_frontmatter`: the frontmatter lines and the body. -/
def rawFrontmatter (text : Text) : List Text × Text :=
  if ¬ fence.isPrefixOf text then ([], text)
  else
    match blockLines text with
    | none => ([], text)
    | some (lines, rest) => (lines, bodyOf rest)

/-- One turn of `_set_fm_key`'s loop: is `ln` a top-level line of `key`? -/
def isKeyLine (key ln : Text) : Bool := strip ln = ln && (key ++ [':']).isPrefixOf (strip ln)

/-- The value that `_set_fm_key` writes: "newlines/CRs in the value are flattened". -/
def fmValue (value : Text) (quote : Bool) : Text :=
  if quote then yamlScalar value else replaceChar '\r' ' ' (replaceChar '\n' ' ' value)

/-- `_set_fm_key`: "replace `key: ...` in place, else append it". -/
def setFmKey (lines : List Text) (key value : Text) (quote : Bool) : List Text :=
  let out := lines.map fun ln => if isKeyLine key ln then field key (fmValue value quote) else ln
  if lines.any (isKeyLine key) then out else out ++ [field key (fmValue value quote)]

/-! ### The fallback is the flat reader -/

theorem flatFallback_eq (block : Text) : flatFallback block = parseLines (splitlines block) := rfl

/-- Lines that are no fence are passed over. -/
theorem closeAt_append {ls : List Text} {close : Text} (h : ∀ l ∈ ls, strip l ≠ fence)
    (hclose : strip close = fence)
    (rest : List Text) : closeAt (ls ++ close :: rest) = some (ls, rest) := by
  induction ls with
  | nil => simp [closeAt, hclose]
  | cons l ls ih =>
    rw [List.cons_append, closeAt, if_neg (h l (List.mem_cons_self ..)),
      ih fun m hm => h m (List.mem_cons_of_mem _ hm)]
    rfl

/-- What the loop has found. -/
theorem closeAt_spec {ls a b : List Text} (h : closeAt ls = some (a, b)) :
    ∃ close, ls = a ++ close :: b ∧ strip close = fence ∧ ∀ l ∈ a, strip l ≠ fence := by
  induction ls generalizing a b with
  | nil => cases h
  | cons l ls ih =>
    rw [closeAt] at h
    split_ifs at h with hl
    · cases h
      exact ⟨l, rfl, hl, by simp⟩
    · rw [Option.map_eq_some_iff] at h
      obtain ⟨⟨a', b'⟩, hab, heq⟩ := h
      cases heq
      obtain ⟨close, rfl, hclose, ha⟩ := ih hab
      exact ⟨close, rfl, hclose, List.forall_mem_cons.mpr ⟨hl, ha⟩⟩

/-- The block ends at the first fence. -/
theorem closeAt_eq {ls : List Text} (h : ∃ l ∈ ls, strip l = fence) :
    ∃ rest, closeAt ls = some (ls.takeWhile (fun l => strip l ≠ fence), rest) := by
  induction ls with
  | nil => simp at h
  | cons l ls ih =>
    rw [closeAt]
    by_cases hl : strip l = fence
    · exact ⟨ls, by simp [hl]⟩
    · obtain ⟨m, hm, hfence⟩ := h
      rcases List.mem_cons.mp hm with rfl | hm
      · exact absurd hfence hl
      · obtain ⟨rest, hrest⟩ := ih ⟨m, hm, hfence⟩
        exact ⟨rest, by simp [hl, hrest]⟩

/-- The lines of one-line lines joined. -/
theorem splitlines_join {ls : List Text} (h : ∀ l ∈ ls, OneLine l ∧ l ≠ []) :
    splitlines (join ['\n'] ls) = ls := by
  induction ls with
  | nil => rfl
  | cons l ls ih =>
    obtain ⟨hl, hne⟩ := h l (List.mem_cons_self ..)
    cases ls with
    | nil => simpa [join, List.intercalate] using splitlines_oneLine hl hne
    | cons m ms =>
      rw [join_cons_cons, List.append_assoc, List.singleton_append, splitlines_append_newline hl,
        ih fun x hx => h x (List.mem_cons_of_mem _ hx)]

/-- The fallback reads the lines it is given; that a last, blank one is lost does not matter. -/
theorem flatFallback_join {ls : List Text} (h : ∀ l ∈ ls, OneLine l) :
    flatFallback (join ['\n'] ls) = ls.foldl fallbackLine [] := by
  have hblank : ∀ fm, fallbackLine fm [] = fm := fun fm => if_pos (Or.inl rfl)
  have hgo : ∀ (ls : List Text) (fm : Dict Text Text), (∀ l ∈ ls, OneLine l) →
      (splitlines (join ['\n'] ls)).foldl fallbackLine fm = ls.foldl fallbackLine fm := by
    intro ls
    induction ls with
    | nil => exact fun _ _ => rfl
    | cons l ls ih =>
      intro fm h
      have hl := h l (List.mem_cons_self ..)
      cases ls with
      | nil =>
        by_cases hnil : l = []
        · subst hnil
          exact (hblank fm).symm
        · simp [join, splitlines_oneLine hl hnil]
      | cons m ms =>
        rw [join_cons_cons, List.append_assoc, List.singleton_append, splitlines_append_newline hl,
          List.foldl_cons, List.foldl_cons, ih _ fun x hx => h x (List.mem_cons_of_mem _ hx)]
  exact hgo ls [] h

/-- What the reader finds in further lines goes before what it had found. -/
theorem get?_foldl_fallbackLine (key : Text) (ls : List Text) (fm : Dict Text Text) :
    (ls.foldl fallbackLine fm).get? key = ((ls.foldl fallbackLine []).get? key).or
        (fm.get? key) := by
  induction ls using List.reverseRecOn with
  | nil => rfl
  | append_singleton ls l ih =>
    rw [List.foldl_append, List.foldl_append, List.foldl_cons, List.foldl_nil, List.foldl_cons,
      List.foldl_nil]
    unfold fallbackLine
    split_ifs
    · exact ih
    · cases cut [':'] l with
      | none => exact ih
      | some kv =>
        obtain ⟨k, v⟩ := kv
        simp only [Dict.get?_set]
        split_ifs
        · rfl
        · exact ih

/-- Fields of other keys do not matter. -/
theorem get?_foldl_fields {kvs : List (Text × Text)} (hk : ∀ kv ∈ kvs, PlainKey kv.1) {key : Text}
    (hkey : key ∉ kvs.map Prod.fst)
    (fm : Dict Text Text) :
    ((kvs.map fun kv => field kv.1 kv.2).foldl fallbackLine fm).get? key = fm.get? key := by
  induction kvs generalizing fm with
  | nil => rfl
  | cons kv kvs ih =>
    rw [List.map_cons, List.mem_cons, not_or] at hkey
    have hline : fallbackLine fm (field kv.1 kv.2) = fm.set kv.1 (unquote (strip kv.2)) :=
      readLine_field (hk kv (List.mem_cons_self ..)) fm kv.2
    rw [List.map_cons, List.foldl_cons, ih (fun x hx => hk x (List.mem_cons_of_mem _ hx)) hkey.2,
      hline, Dict.get?_set_of_ne _ hkey.1]

/-- A text built from lines: the server finds the block between the fences. -/
theorem blockLines_unlines {ls : List Text} (h : ∀ l ∈ ls, OneLine l ∧ strip l ≠ fence) (t : Text) :
    blockLines (fence ++ '\n' :: (unlines ls ++ (fence ++ '\n' :: t))) =
        some (ls, splitlines t) := by
  have hf : OneLine fence := by decide
  rw [blockLines, splitlines_append_newline hf, splitlines_unlines_append fun l hl => (h l hl).1,
    splitlines_append_newline hf, List.tail_cons,
      closeAt_append (fun l hl => (h l hl).2) (by decide)]

/-! ### Quoted scalars -/

/-- `collect_commit.py::_unquote`, a copy of the writer's. -/
def collectUnquote : Text → Text := unquote

/-- `sync_skills.py::_unquote`, another one. -/
def syncUnquote : Text → Text := unquote

/-- The step of the fallback that takes a value out of its quotes. -/
def fallbackUnquote (val : Text) : Text :=
  if 2 ≤ val.length ∧ val.head? = val.getLast? ∧ (val.head? = some '"' ∨ val.head? = some '\'') then
    let inner := val.tail.dropLast
    if val.head? = some '\'' then replaceAll ['\'', '\''] ['\''] inner else inner
  else val

theorem fallbackLine_eq (fm : Dict Text Text) (raw : Text) : fallbackLine fm raw =
    if strip raw = [] ∨ lstrip raw ≠ raw then fm
    else
      match cut [':'] raw with
      | none => fm
      | some (key, val) => fm.set (strip key) (fallbackUnquote (strip val)) := rfl

/-- **Scalar quoting inverts**: each of the readers takes what `_yaml_scalar` writes back to the
flattened value. The scalar is blank at neither end, and behind a key and a colon it comes out of
the line as it is, whatever colons it has. -/
theorem scalar_quoting_inverts (v : Text) :
    (∀ u ∈ [unquote, collectUnquote, syncUnquote, fallbackUnquote], u (yamlScalar v) = flatten v) ∧
      strip (yamlScalar v) = yamlScalar v ∧
      ∀ key : Text, ':' ∉ key → ∃ val, cut [':'] (field key (yamlScalar v)) = some (key, val) ∧
          strip val = yamlScalar v := by
  refine ⟨fun u hu => ?_, yamlScalar_stripped v,
    fun key hkey => ⟨' ' :: yamlScalar v, cut_singleton hkey, ?_⟩⟩
  · simp only [List.mem_cons, List.not_mem_nil, or_false] at hu
    rcases hu with rfl | rfl | rfl | rfl <;> exact unquote_yamlScalar v
  · rw [strip_blank_cons]
    exact yamlScalar_stripped v

/-- A value of quotes and a colon. -/
theorem scalar_quoting_sample :
    ∃ val, cut [':'] "trigger: ''''''':'".toList = some ("trigger".toList, val) ∧
    strip val = yamlScalar "''': ".toList :=
  (scalar_quoting_inverts "''': ".toList).2.2 "trigger".toList (by decide)

end OracleSkills.Server
