import OracleSkills.Python.Words
import OracleSkills.Server.Shown

/-!
# The inventory hook

`inventory-hook.py` is run before a call of `skills_list`, and "injects the agent's tool inventory",
so that what is listed does not depend "on the model remembering to pass agent_tools". The inventory
is the built-in tools, the names of the registered MCP servers and the deferred tools that the
transcript mentions, each once. "If anything is uncertain it passes the call through unchanged", and
so it does where it raises.

It should "not clobber an inventory the model already supplied", but an empty list is not taken for
one. `inventory_transparent_iff` says for which calls the listing is nevertheless what it should be.
-/

namespace OracleSkills.Server.InventoryHook

open Python Frontmatter Rpc

/-! ### The hook -/

/-- What the hook finds. -/
structure Session where
  /-- `json.load` of `~/.claude.json`, `none` where it raises. -/
  config : Option Json
  /-- The lines of a transcript, `none` where there is no such file, or it cannot be read. -/
  transcript : Text → Option (List Text)
  /-- `==` of two values. -/
  same : Json → Json → Bool
  same_comm : ∀ x y, same x y = same y x
  /-- Nothing but a string is equal to it. -/
  same_str : ∀ x t, same x (.str t) = true ↔ x = .str t

/-- `value or {}`. -/
def orEmpty : Option Json → Json
  | none => .obj []
  | some v => if v.truthy then v else .obj []

/-- What a `for` loop over a value goes through, `none` where it raises. -/
def iterate : Json → Option (List Json)
  | .obj members => some (members.map fun m => .str m.1)
  | .arr xs => some xs
  | .str t => some (t.map fun c => .str [c])
  | _ => none

/-- The servers of the projects, up to the first one that cannot be read. -/
def projectNames : List (Text × Json) → List Json
  | [] => []
  | (_, .obj cfg) :: projects =>
    match iterate (orEmpty (Dict.get? "mcpServers".toList cfg)) with
    | none => []
    | some names => names ++ projectNames projects
  | _ :: projects => projectNames projects

/-- `registered_mcp_tools`. -/
def registeredMcpTools (S : Session) : List Json :=
  match S.config with
  | some (.obj top) =>
    match iterate (orEmpty (Dict.get? "mcpServers".toList top)) with
    | none => []
    | some names =>
      match orEmpty (Dict.get? "projects".toList top) with
      | .obj projects => names ++ projectNames projects
      | _ => names
  | _ => []

/-- `a in b`, of texts. -/
def isIn (a b : Text) : Bool := (cut a b).isSome

/-- The tokens of a line. -/
def tokens (line : Text) : List Text :=
  runs (fun c => !isSpace c) (line.map fun c => if c = '"' ∨ c = ',' then ' ' else c)

/-- `tok.startswith("mcp__")`. -/
def isMcp (tok : Text) : Bool := "mcp__".toList.isPrefixOf tok

/-- `deferred_tools_from_transcript`. -/
def deferredTools (S : Session) (path : Option Text) : List Text :=
  match path with
  | none => []
  | some path =>
    if path = [] then []
    else
      match S.transcript path with
      | none => []
      | some lines =>
        let found := lines.flatMap fun line =>
          if isIn "deferred tools".toList line || isIn "mcp__".toList line then
            (tokens line).filter isMcp else []
        found.dedup.mergeSort leText

/-- "de-dup, stable": `none` for what cannot be hashed. -/
def dedup (same : Json → Json → Bool) : List Json → List Json → Option (List Json)
  | uniq, [] => some uniq
  | uniq, t :: ts =>
    if t.hashable then
      dedup same (if uniq.any fun u => same u t then uniq else uniq ++ [t]) ts else none

/-- A payload of the harness, of which an absent `tool_input` has no arguments. -/
structure Payload where
  toolName : Text
  toolInput : Dict Text Json
  transcriptPath : Option Text

/-- The inventory, before it is made unique. -/
def inventory (S : Session) (P : Payload) : List Json :=
  builtinTools.map .str ++ registeredMcpTools S ++ (deferredTools S P.transcriptPath).map .str

/-- `tool_input.get("agent_tools")` is falsy. -/
def lacksTools (input : Dict Text Json) : Bool :=
  match input.get? "agent_tools".toList with
  | none => true
  | some v => !v.truthy

/-- What the hook does. -/
inductive Outcome where
  /-- No output: the call proceeds unchanged. -/
  | silent
  /-- An exception: the call proceeds unchanged as well. -/
  | raised
  | updated (input : Dict Text Json)

/-- `main`. -/
def main (S : Session) (P : Payload) : Outcome :=
  if !("skills_list".toList.isSuffixOf P.toolName) then .silent
  -- "Do not clobber an inventory the model already supplied."
  else if !lacksTools P.toolInput then .silent
  else
    match dedup S.same [] (inventory S P) with
    | none => .raised
    | some uniq => .updated (P.toolInput.set "agent_tools".toList (.arr uniq))

/-- The arguments with which the server is called. -/
def hooked (S : Session) (P : Payload) : Dict Text Json :=
  match main S P with
  | .updated input => input
  | _ => P.toolInput

/-! ### What is claimed -/

/-- The payload of a call of `skills_list`. -/
structure Call extends Payload where
  named : "skills_list".toList.isSuffixOf toolName = true

/-- The skills that the server shows. -/
def shown (H : Host) (servers : List Text) (catalog : List Entry) (args : Dict Text Json) :
    Set PublicEntry :=
  {s | ∃ l, skillsList H servers catalog args = .ok l ∧ s ∈ l.skills}

/-- What is claimed of the hook. -/
structure Transparent (S : Session) (P : Payload) : Prop where
  supplied : ∀ xs, P.toolInput.get? "agent_tools".toList = some (.arr xs) →
    ∀ (H : Host) (servers : List Text) (catalog : Catalog),
    shown H servers catalog.entries (hooked S P) = shown H servers catalog.entries P.toolInput
  injected : (∀ xs, P.toolInput.get? "agent_tools".toList ≠ some (.arr xs)) →
    ∃ tools, hooked S P = P.toolInput.set "agent_tools".toList (.arr tools) ∧
      tools.Pairwise (fun t u => S.same t u = false) ∧
      (∀ t ∈ builtinTools, .str t ∈ tools) ∧
      ∀ (H : Host) (servers : List Text) (c : Entry) (reason : Text),
        hideIn H servers (hooked S P) c = .ok (some reason) →
          hideIn H servers P.toolInput c = .ok none →
        ∃ v ∈ required c.requires "tools", ∃ t, v.toStr = .ok t ∧ t ∉ tools.map H.str

/-- An empty inventory makes no difference: the server does not come to it, nothing is injected, or
nothing but built-in tools. -/
def EmptyHarmless (S : Session) (P : Payload) : Prop :=
  showAll P.toolInput = true ∨ (∃ e, categoryOf P.toolInput = .error e) ∨
    (∃ t ∈ inventory S P, t.hashable = false) ∨
    ∀ t ∈ inventory S P, ∃ b ∈ builtinTools, t = .str b

/-- The calls for which the hook does what is claimed. -/
def Regular (S : Session) (P : Payload) : Prop :=
  match P.toolInput.get? "agent_tools".toList with
  | some (.arr []) => EmptyHarmless S P
  | some (.arr (_ :: _)) => True
  | _ => lacksTools P.toolInput = true ∧ ∀ t ∈ inventory S P, t.hashable = true

/-! ### The inventory -/

section Dedup

variable {same : Json → Json → Bool} {uniq ts r : List Json}

/-- There is no inventory exactly if something in it cannot be hashed. -/
theorem dedup_eq_none_iff : dedup same uniq ts = none ↔ ∃ t ∈ ts, t.hashable = false := by
  induction ts generalizing uniq with
  | nil => simp [dedup]
  | cons t ts ih =>
    rw [dedup, List.exists_mem_cons_iff]
    cases ht : t.hashable with
    | false => simp
    | true => simp [ih]

/-- What is kept is not repeated. -/
theorem pairwise_dedup (h : dedup same uniq ts = some r)
    (hu : uniq.Pairwise fun t u => same t u = false) :
    r.Pairwise fun t u => same t u = false := by
  induction ts generalizing uniq with
  | nil => exact Option.some.inj h ▸ hu
  | cons t ts ih =>
    rw [dedup] at h
    split_ifs at h with ht hany
    · exact ih h hu
    · refine ih h (List.pairwise_append.mpr
        ⟨hu, List.pairwise_singleton _ _, fun u hmem v hv => ?_⟩)
      rw [List.mem_singleton.mp hv]
      rw [List.any_eq_true, not_exists] at hany
      simpa [hmem] using hany u

/-- Each item is kept, or one that is equal to it. -/
theorem mem_dedup (h : dedup same uniq ts = some r) :
    (∀ u ∈ uniq, u ∈ r) ∧ ∀ t ∈ ts, t ∈ r ∨ ∃ u ∈ r, same u t = true := by
  induction ts generalizing uniq with
  | nil => exact ⟨fun u hu => Option.some.inj h ▸ hu, fun t ht => absurd ht List.not_mem_nil⟩
  | cons t ts ih =>
    rw [dedup] at h
    split_ifs at h with ht hany
    · obtain ⟨hold, hnew⟩ := ih h
      obtain ⟨u, hu, hsame⟩ := List.any_eq_true.mp hany
      exact ⟨hold, List.forall_mem_cons.mpr ⟨Or.inr ⟨u, hold u hu, hsame⟩, hnew⟩⟩
    · obtain ⟨hold, hnew⟩ := ih h
      exact ⟨fun u hu => hold u (List.mem_append_left _ hu),
        List.forall_mem_cons.mpr
          ⟨Or.inl (hold t (List.mem_append_right _ (List.mem_singleton.mpr rfl))), hnew⟩⟩

end Dedup

variable {S : Session} {H : Host} {servers : List Text} {c : Entry}

/-- The inventory has every string that is to be in it. -/
theorem str_mem_dedup {ts r : List Json} (h : dedup S.same [] ts = some r) {t : Text}
    (ht : .str t ∈ ts) : .str t ∈ r := by
  obtain hmem | ⟨u, hu, hsame⟩ := (mem_dedup h).2 _ ht
  · exact hmem
  · exact (S.same_str u t).mp hsame ▸ hu

/-! ### The arguments -/

section Args

variable {args : Dict Text Json} {xs : List Json}

theorem given_tools (h : args.get? "agent_tools".toList = some (.arr xs)) :
    given args "agent_tools" = some (.arr xs) := by
  rw [given, h]

/-- Setting the inventory leaves the other arguments as they are. -/
theorem categoryOf_set (args : Dict Text Json) (v : Json) :
    categoryOf (args.set "agent_tools".toList v) = categoryOf args := by
  rw [categoryOf, categoryOf, Dict.get?_set_of_ne v (by decide)]

theorem showAll_set (args : Dict Text Json) (v : Json) :
    showAll (args.set "agent_tools".toList v) = showAll args := by
  rw [showAll, showAll, Dict.get?_set_of_ne v (by decide)]

theorem given_toolsets_set (args : Dict Text Json) (v : Json) :
    given (args.set "agent_tools".toList v) "agent_toolsets" = given args "agent_toolsets" := by
  rw [given, given, Dict.get?_set_of_ne v (by decide)]

/-- A reason that an inventory gives is a tool that is not in it. -/
theorem exists_of_unavailable {label : String} {always : List Text} {vs : List Value}
    {reason : Text} (h : unavailable H label always vs (some (.arr xs)) = .ok (some reason)) :
    ∃ v ∈ vs, ∃ t, v.toStr = .ok t ∧ t ∉ xs.map H.str ∧ t ∉ always := by
  rw [unavailable, bind_eq_ok] at h
  obtain ⟨req, hreq, h⟩ := h
  have hreason : reasonFor label (xs.map H.str ++ always) req ≠ none := by
    by_cases hnil : req = []
    · simp [hnil] at h
    · simp only [hnil, if_false, Host.strings, Functor.map, Except.map, Except.ok.injEq] at h
      rw [h]
      exact Option.some_ne_none _
  rw [Ne, reasonFor_eq_none_iff, List.subset_def] at hreason
  simp only [not_forall, exists_prop] at hreason
  obtain ⟨t, ht, hnot⟩ := hreason
  have hmem : t ∈ texts vs := texts_of_strs hreq ▸ ht
  obtain ⟨v, hv, hvt⟩ := hmem
  rw [List.mem_append, not_or] at hnot
  exact ⟨v, hv, t, hvt, hnot⟩

/-- A skill is hidden for a tool, if it is hidden with the inventory only. -/
theorem requires_of_hidden {reason : Text}
    (h : hideIn H servers (args.set "agent_tools".toList (.arr xs)) c = .ok (some reason))
    (hshown : hideIn H servers args c = .ok none) :
    ∃ v ∈ required c.requires "tools", ∃ t, v.toStr = .ok t ∧ t ∉ xs.map H.str := by
  rw [hideIn, showAll_set] at h
  rw [hideIn] at hshown
  split_ifs at h hshown with hall
  · cases h
  rw [given_toolsets_set, given_tools (Dict.get?_set_self ..)] at h
  have hmiss := hshown
  rw [hideReason, bind_eq_ok] at hmiss
  obtain ⟨miss, hmiss, -⟩ := hmiss
  obtain rfl : miss = [] := by
    by_contra hne
    obtain ⟨names, hnames⟩ := hideReason_of_miss _ _ _ hmiss hne
    rw [hnames] at hshown
    cases hshown
  rw [hideReason_of_registered _ _ hmiss, bind_eq_ok] at h hshown
  obtain ⟨r, hr, h⟩ := h
  obtain ⟨r', hr', hshown⟩ := hshown
  cases r with
  | some r =>
    obtain ⟨v, hv, t, hvt, hnot, -⟩ := exists_of_unavailable hr
    exact ⟨v, hv, t, hvt, hnot⟩
  | none =>
    cases r' with
    | some r' => cases hshown
    | none => cases h.symm.trans hshown

end Args

/-! ### What is shown -/

theorem mem_shown_iff {catalog : List Entry} {args : Dict Text Json} {s : PublicEntry} :
    s ∈ shown H servers catalog args ↔
    ∃ category, categoryOf args = .ok category ∧
      (∀ c ∈ inCategory category catalog, ∃ reason, hideIn H servers args c = .ok reason) ∧
      ∃ c ∈ inCategory category catalog, hideIn H servers args c = .ok none ∧
          publicEntry c = s := by
  constructor
  · rintro ⟨l, hl, hs⟩
    obtain ⟨category, hcategory, hall, rfl⟩ := skillsList_eq_ok_iff.mp hl
    obtain ⟨c, hc, rfl⟩ := mem_listingOf.mp hs
    obtain ⟨hc, hshows⟩ := List.mem_filter.mp hc
    exact ⟨category, hcategory, hall, c, hc, shows_iff.mp hshows, rfl⟩
  · rintro ⟨category, hcategory, hall, c, hc, hshown, rfl⟩
    exact ⟨_, skillsList_eq_ok_iff.mpr ⟨category, hcategory, hall, rfl⟩,
      mem_listingOf.mpr ⟨c, List.mem_filter.mpr ⟨hc, shows_iff.mpr hshown⟩, rfl⟩⟩

/-- The same checks show the same skills. -/
theorem shown_congr {args args' : Dict Text Json} (hcategory : categoryOf args = categoryOf args')
    (hhide : ∀ c, hideIn H servers args c = hideIn H servers args' c) (catalog : List Entry) :
    shown H servers catalog args = shown H servers catalog args' := by
  ext s
  rw [mem_shown_iff, mem_shown_iff, hcategory]
  simp only [hhide]

/-- Built-in tools add nothing to an empty inventory. -/
theorem hideIn_set_builtin {args : Dict Text Json} {uniq : List Json}
    (hempty : args.get? "agent_tools".toList = some (.arr []))
    (hbuiltin : ∀ t ∈ uniq, ∃ b ∈ builtinTools, t = .str b) (c : Entry) :
    hideIn H servers (args.set "agent_tools".toList (.arr uniq)) c = hideIn H servers args c := by
  have hreason (label : String) (req : List Text) :
      reasonFor label (uniq.map H.str ++ builtinTools) req =
          reasonFor label ([] ++ builtinTools) req := by
    have hmiss : (req.filter fun t => t ∉ uniq.map H.str ++ builtinTools) = req.filter fun t =>
        t ∉ [] ++ builtinTools := by
      refine List.filter_congr fun t _ => decide_eq_decide.mpr (not_congr ?_)
      rw [List.nil_append, List.mem_append, or_iff_right_iff_imp]
      intro hmem
      obtain ⟨u, hu, rfl⟩ := List.mem_map.mp hmem
      obtain ⟨b, hb, rfl⟩ := hbuiltin u hu
      rwa [H.str_str]
    rw [reasonFor, reasonFor, hmiss]
  have hunavailable : unavailable H "requires tool(s) unavailable: " builtinTools
      (required c.requires "tools") (some (.arr uniq)) =
      unavailable H "requires tool(s) unavailable: " builtinTools (required c.requires "tools")
          (some (.arr [])) := by
    rw [unavailable, unavailable]
    simp only [Host.strings, hreason, List.map_nil, Functor.map, Except.map]
  rw [hideIn, hideIn, showAll_set, given_toolsets_set, given_tools (Dict.get?_set_self ..),
    given_tools hempty, hideReason, hideReason, hunavailable]

/-- A call goes to the server as it is, or with the inventory. -/
theorem hooked_eq (P : Call) : hooked S P.toPayload =
    if lacksTools P.toolInput = true then
      match dedup S.same [] (inventory S P.toPayload) with
      | none => P.toolInput
      | some uniq => P.toolInput.set "agent_tools".toList (.arr uniq)
    else P.toolInput := by
  rw [hooked, main, P.named]
  cases lacksTools P.toolInput with
  | false => rfl
  | true =>
    simp only [Bool.not_true, Bool.false_eq_true, if_false, if_true]
    cases dedup S.same [] (inventory S P.toPayload) <;> rfl

/-- What is kept of an inventory is in it. -/
theorem of_mem_dedup {same : Json → Json → Bool} {uniq ts r : List Json}
    (h : dedup same uniq ts = some r) {t : Json} (ht : t ∈ r) :
    t ∈ uniq ∨ t ∈ ts := by
  induction ts generalizing uniq with
  | nil => exact Or.inl (Option.some.inj h ▸ ht)
  | cons u ts ih =>
    rw [dedup] at h
    split_ifs at h with _ hany
    · exact (ih h).imp_right (List.mem_cons_of_mem _)
    · rcases ih h with hmem | hmem
      · rcases List.mem_append.mp hmem with hmem | hmem
        · exact Or.inl hmem
        · exact Or.inr (List.mem_singleton.mp hmem ▸ List.mem_cons_self ..)
      · exact Or.inr (List.mem_cons_of_mem _ hmem)

/-- An item that is no built-in tool leaves one in the inventory whose text is none. -/
theorem exists_not_builtin {P : Call} {uniq : List Json}
    (h : dedup S.same [] (inventory S P.toPayload) = some uniq) {t : Json}
    (ht : t ∈ inventory S P.toPayload) (hnot : ∀ b ∈ builtinTools, t ≠ .str b) :
    ∃ u ∈ uniq, textOf u ∉ builtinTools := by
  have hnil : ([] : Text) ∉ builtinTools := by decide
  obtain ⟨u, hu, hsame⟩ : ∃ u ∈ uniq, ∀ s, u = .str s → t = .str s := by
    obtain hmem | ⟨u, hu, hsame⟩ := (mem_dedup h).2 t ht
    · exact ⟨t, hmem, fun _ h => h⟩
    · exact ⟨u, hu, fun s hs => (S.same_str t s).mp (S.same_comm t _ ▸ hs ▸ hsame)⟩
  refine ⟨u, hu, ?_⟩
  by_cases hstr : ∃ s, u = .str s
  · obtain ⟨s, rfl⟩ := hstr
    exact fun hmem => hnot s hmem (hsame s rfl)
  · have htext : textOf u = [] := by
      cases u with
      | str s => exact absurd ⟨s, rfl⟩ hstr
      | _ => rfl
    rwa [htext]

/-- A skill of a category that requires a tool. -/
def needsTool (category tool : Text) : Entry :=
  ⟨"a".toList, none, some category, none, [(.str "tools".toList, .str tool)], hexSkill⟩

/-- It is hidden where the tool is not among those of the call. -/
theorem hideIn_needsTool {args : Dict Text Json} {xs : List Json} (hall : showAll args = false)
    (htools : args.get? "agent_tools".toList = some (.arr xs)) (category tool : Text) :
    hideIn bareHost [] args (needsTool category tool) =
      .ok (reasonFor "requires tool(s) unavailable: " (xs.map textOf ++ builtinTools) [tool]) := by
  have hmiss : missMcp [] (needsTool category tool).requires = .ok [] := rfl
  have hrequired : required (needsTool category tool).requires "tools" = [.str tool] := rfl
  have hfound : unavailable bareHost "requires tool(s) unavailable: " builtinTools [.str tool]
      (some (.arr xs)) =
      .ok (reasonFor "requires tool(s) unavailable: " (xs.map textOf ++ builtinTools) [tool]) := rfl
  have hnone : unavailable bareHost "requires toolset(s) unavailable: " []
      (required (needsTool category tool).requires "toolsets")
      (given args "agent_toolsets") = .ok none := by
    cases given args "agent_toolsets" <;> rfl
  rw [hideIn, hall, if_neg Bool.false_ne_true, given_tools htools,
    hideReason_of_registered _ _ hmiss, hrequired, hfound, hnone]
  cases reasonFor "requires tool(s) unavailable: " (xs.map textOf ++ builtinTools) [tool] <;> rfl

/-- A skill that is in the category that a call asks for. -/
def oneSkill (category tool : Text) : Catalog :=
  ⟨[needsTool category tool], List.pairwise_singleton _ _⟩

/-- It is listed where it is not hidden. -/
theorem mem_shown_oneSkill {args : Dict Text Json} {category tool : Text}
    (hcategory : categoryOf args = .ok category) :
    publicEntry (needsTool category tool) ∈ shown bareHost []
      (oneSkill category tool).entries args ↔
      hideIn bareHost [] args (needsTool category tool) = .ok none := by
  have hin : inCategory category (oneSkill category tool).entries = [needsTool category tool] := by
    rw [inCategory]
    split_ifs
    · simp [oneSkill, needsTool]
    · rfl
  rw [mem_shown_iff]
  constructor
  · rintro ⟨category', hc, -, c, hmem, hshown, -⟩
    cases hcategory.symm.trans hc
    rw [hin, List.mem_singleton] at hmem
    exact hmem ▸ hshown
  · intro hshown
    refine ⟨category, hcategory, ?_, needsTool category tool, ?_, hshown, rfl⟩
    · rw [hin]
      exact fun c hc => ⟨none, List.mem_singleton.mp hc ▸ hshown⟩
    · rw [hin]
      exact List.mem_singleton.mpr rfl

/-! ### The claim -/

/-- A tool that is put into an empty inventory and is not built in, is told apart by a catalog of
one skill that needs it. -/
theorem shown_ne_of_tool {args : Dict Text Json} {uniq : List Json} {category : Text} {u : Json}
    (hempty : args.get? "agent_tools".toList = some (.arr [])) (hall : showAll args = false)
    (hcategory : categoryOf args = .ok category)
    (hu : u ∈ uniq) (htext : textOf u ∉ builtinTools) :
    shown bareHost [] (oneSkill category (textOf u)).entries
      (args.set "agent_tools".toList (.arr uniq)) ≠
      shown bareHost [] (oneSkill category (textOf u)).entries args := by
  intro hsame
  have hboth := Set.ext_iff.mp hsame (publicEntry (needsTool category (textOf u)))
  rw [mem_shown_oneSkill hcategory, mem_shown_oneSkill ((categoryOf_set _ _).trans hcategory),
    hideIn_needsTool hall hempty,
    hideIn_needsTool ((showAll_set _ _).trans hall) (Dict.get?_set_self ..), Except.ok.injEq,
      Except.ok.injEq,
    reasonFor_eq_none_iff, reasonFor_eq_none_iff, List.cons_subset, List.cons_subset] at hboth
  have hshown := hboth.mp ⟨List.mem_append_left _ (List.mem_map_of_mem hu), List.nil_subset _⟩
  exact htext hshown.1

/-- A category that cannot be read is an error of the call, and nothing is shown. -/
theorem shown_of_category_error {H : Host} {servers : List Text} {entries : List Entry}
    {args : Dict Text Json} {e : Raised}
    (h : categoryOf args = .error e) : shown H servers entries args = ∅ := by
  ext s
  rw [mem_shown_iff, h]
  constructor
  · rintro ⟨category, hc, -⟩
    cases hc
  · exact fun hs => absurd hs (Set.notMem_empty s)

/-- An empty inventory that is passed is replaced, which is harmless for every catalog only if it is
so for one skill. -/
theorem emptyHarmless_iff {P : Call}
    (hempty : P.toolInput.get? "agent_tools".toList = some (.arr [])) :
    (∀ (H : Host) (servers : List Text) (catalog : Catalog),
      shown H servers catalog.entries (hooked S P.toPayload) =
        shown H servers catalog.entries P.toolInput) ↔
    EmptyHarmless S P.toPayload := by
  have hlacks : lacksTools P.toolInput = true := by
    rw [lacksTools, hempty]
    rfl
  rw [hooked_eq, if_pos hlacks]
  cases hdedup : dedup S.same [] (inventory S P.toPayload) with
  | none => exact ⟨fun _ => Or.inr (Or.inr (Or.inl (dedup_eq_none_iff.mp hdedup))),
    fun _ _ _ _ => rfl⟩
  | some uniq =>
    constructor
    · intro hsame
      by_contra hharm
      rw [EmptyHarmless, not_or, not_or, not_or] at hharm
      obtain ⟨hall, hcategory, -, hbuiltin⟩ := hharm
      rw [Bool.not_eq_true] at hall
      cases hc : categoryOf P.toolInput with
      | error e => exact hcategory ⟨e, hc⟩
      | ok category =>
        obtain ⟨t, ht, hnot⟩ : ∃ t ∈ inventory S P.toPayload, ∀ b ∈ builtinTools, t ≠ .str b := by
          simpa only [not_forall, not_exists, not_and, exists_prop] using hbuiltin
        obtain ⟨u, hu, htext⟩ := exists_not_builtin hdedup ht hnot
        exact shown_ne_of_tool hempty hall hc hu htext (hsame _ _ _)
    · intro hharmless H servers catalog
      rcases hharmless with hall | ⟨e, he⟩ | hraise | hbuiltin
      · refine shown_congr (categoryOf_set _ _) (fun c => ?_) _
        rw [hideIn, hideIn, showAll_set, hall, if_pos rfl, if_pos rfl]
      · rw [shown_of_category_error he, shown_of_category_error ((categoryOf_set _ _).trans he)]
      · rw [dedup_eq_none_iff.mpr hraise] at hdedup
        cases hdedup
      · refine shown_congr (categoryOf_set _ _) (hideIn_set_builtin hempty fun t ht => ?_) _
        exact hbuiltin t ((of_mem_dedup hdedup ht).resolve_left List.not_mem_nil)

/-- Without an inventory that is a list, one is injected exactly if there is none, and all that is
to be in it can be hashed. -/
theorem injected_iff {P : Call}
    (hlist : ∀ xs, P.toolInput.get? "agent_tools".toList ≠ some (.arr xs)) :
    (∃ tools, hooked S P.toPayload = P.toolInput.set "agent_tools".toList (.arr tools) ∧
      tools.Pairwise (fun t u => S.same t u = false) ∧
      (∀ t ∈ builtinTools, .str t ∈ tools) ∧
      ∀ (H : Host) (servers : List Text) (c : Entry) (reason : Text),
        hideIn H servers (hooked S P.toPayload) c = .ok (some reason) →
          hideIn H servers P.toolInput c = .ok none →
        ∃ v ∈ required c.requires "tools", ∃ t, v.toStr = .ok t ∧ t ∉ tools.map H.str) ↔
    lacksTools P.toolInput = true ∧ ∀ t ∈ inventory S P.toPayload, t.hashable = true := by
  have hunchanged :
      ∀ tools, P.toolInput ≠ P.toolInput.set "agent_tools".toList (.arr tools) := fun tools h =>
    hlist tools (h ▸ Dict.get?_set_self ..)
  rw [hooked_eq]
  constructor
  · rintro ⟨tools, htools, -⟩
    split_ifs at htools with hlacks
    · cases hdedup : dedup S.same [] (inventory S P.toPayload) with
      | none =>
        rw [hdedup] at htools
        exact absurd htools (hunchanged tools)
      | some uniq =>
        refine ⟨hlacks, fun t ht => ?_⟩
        by_contra hraise
        rw [dedup_eq_none_iff.mpr ⟨t, ht, by simpa using hraise⟩] at hdedup
        cases hdedup
    · exact absurd htools (hunchanged tools)
  · rintro ⟨hlacks, hhash⟩
    rw [if_pos hlacks]
    cases hdedup : dedup S.same [] (inventory S P.toPayload) with
    | none =>
      obtain ⟨t, ht, hraise⟩ := dedup_eq_none_iff.mp hdedup
      exact absurd (hhash t ht) (by simp [hraise])
    | some uniq =>
      refine ⟨uniq, rfl, pairwise_dedup hdedup List.Pairwise.nil,
        fun b hb => str_mem_dedup hdedup ?_, ?_⟩
      · exact List.mem_append_left _ (List.mem_append_left _ (List.mem_map_of_mem hb))
      · exact fun H servers c reason => requires_of_hidden

/-- **The hook is transparent** for a call, if and only if the call is regular. -/
theorem inventory_transparent_iff (S : Session) (P : Call) :
    Transparent S P.toPayload ↔ Regular S P.toPayload := by
  by_cases hlist : ∃ xs, P.toolInput.get? "agent_tools".toList = some (.arr xs)
  · obtain ⟨xs, hxs⟩ := hlist
    have hsupplied : Transparent S P.toPayload ↔
        ∀ (H : Host) (servers : List Text) (catalog : Catalog),
        shown H servers catalog.entries (hooked S P.toPayload) =
            shown H servers catalog.entries P.toolInput :=
      ⟨fun h => h.supplied xs hxs, fun h => ⟨fun _ _ => h, fun hnot => absurd hxs (hnot xs)⟩⟩
    rw [hsupplied, Regular, hxs]
    cases xs with
    | nil => exact emptyHarmless_iff hxs
    | cons x xs =>
      have hlacks : lacksTools P.toolInput = false := by
        rw [lacksTools, hxs]
        rfl
      refine iff_of_true (fun _ _ _ => ?_) trivial
      rw [hooked_eq, hlacks, if_neg Bool.false_ne_true]
  · rw [not_exists] at hlist
    have hinjected : Transparent S P.toPayload ↔ _ :=
      ⟨fun h => h.injected hlist, fun h => ⟨fun xs hxs => absurd hxs (hlist xs), fun _ => h⟩⟩
    rw [hinjected, injected_iff hlist, Regular]
    split
    · rename_i h
      exact absurd h (hlist [])
    · rename_i h
      exact absurd h (hlist _)
    · rfl

/-! ### An empty inventory -/

/-- `==` of strings. -/
def sameStr : Json → Json → Bool
  | .str s, .str t => decide (s = t)
  | _, _ => false

theorem sameStr_comm (x y : Json) : sameStr x y = sameStr y x := by
  cases x <;> cases y <;> first | rfl | exact decide_eq_decide.mpr eq_comm

theorem sameStr_str (x : Json) (t : Text) : sameStr x (.str t) = true ↔ x = .str t := by
  cases x <;> simp [sameStr]

/-- One server is registered, `x`. -/
def oneServer : Session where
  config := some (.obj [("mcpServers".toList, .obj [("x".toList, .obj [])])])
  transcript _ := none
  same := sameStr
  same_comm := sameStr_comm
  same_str := sameStr_str

/-- A call with an empty list of tools. -/
def emptyCall : Call where
  toolName := "mcp__skills__skills_list".toList
  toolInput := [("agent_tools".toList, .arr [])]
  transcriptPath := none
  named := rfl

/-- A skill that requires the tool `x` is hidden by the call that is made, and shown by the hooked
one. -/
theorem not_transparent_empty : ¬ Transparent oneServer emptyCall.toPayload := by
  intro h
  have hhooked : hooked oneServer emptyCall.toPayload =
      [("agent_tools".toList, .arr (builtinTools.map .str ++ [.str "x".toList]))] := rfl
  have hsame := h.supplied [] rfl bareHost [] (oneSkill [] "x".toList)
  rw [hhooked] at hsame
  have hboth := Set.ext_iff.mp hsame (publicEntry (needsTool [] "x".toList))
  rw [mem_shown_oneSkill rfl, mem_shown_oneSkill rfl, hideIn_needsTool rfl rfl,
    hideIn_needsTool rfl rfl, Except.ok.injEq,
    Except.ok.injEq, reasonFor_eq_none_iff, reasonFor_eq_none_iff] at hboth
  exact absurd (hboth.mp (by decide)) (by decide)

end OracleSkills.Server.InventoryHook
