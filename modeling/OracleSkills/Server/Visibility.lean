import OracleSkills.Server.IndexSound
import OracleSkills.Server.Rpc

/-!
# Which skills are listed

`skills_list` hides a skill that "requires" what the agent does not have: an MCP server that is not
registered, a tool or a toolset that is not in the inventory the agent passes. "mcp: server-side
certain (config). tools/toolsets: only decidable when the agent's inventory is known", so that an
inventory that is not passed hides nothing. `skill_view` reports on its side what a skill still
misses (`readiness`).
-/

namespace OracleSkills.Server

open Python Frontmatter Rpc

/-! ### Requirements -/

/-- `BUILTIN_TOOLS`: "always present, so requires.tools on these is satisfiable without the agent
reporting them". -/
def builtinTools : List Text :=
  ["Bash".toList, "Read".toList, "Edit".toList, "Write".toList, "Glob".toList, "Grep".toList,
    "LS".toList, "List".toList, "WebFetch".toList, "WebSearch".toList, "Task".toList,
    "Agent".toList, "TodoWrite".toList, "NotebookEdit".toList, "Skill".toList, "MultiEdit".toList,
    "ExitPlanMode".toList]

/-- What the listing and the readiness report use of Python and of the machine. -/
structure Host where
  skillsDir : Text
  /-- `str` of a JSON value. -/
  str : Json → Text
  str_str : ∀ t, str (.str t) = t
  /-- `os.environ.get`. -/
  environ : Text → Except Raised (Option Text)
  /-- `shutil.which`. -/
  which : Text → Except Raised (Option Text)
  /-- `os.path.exists(os.path.expanduser(f))`. -/
  fileExists : Text → Except Raised Bool

/-- `os.environ.get(e)` is not falsy. -/
def Host.hasEnv (H : Host) (e : Text) : Except Raised Bool :=
  (fun v => decide (v.getD [] ≠ [])) <$> H.environ e

/-- `shutil.which(c) is not None`. -/
def Host.hasCommand (H : Host) (c : Text) : Except Raised Bool := (fun v => v.isSome) <$> H.which c

/-- `requires.get(key)`. -/
def lookup (key : Text) : List (Value × Value) → Option Value
  | [] => none
  | (.str k, v) :: requires => if k = key then some v else lookup key requires
  | _ :: requires => lookup key requires

/-- `_as_list(requires.get(key))`. -/
def required (requires : List (Value × Value)) (key : String) : List Value :=
  asList (lookup key.toList requires)

/-- `[str(x) for x in xs]`. -/
def strs : List Value → Except Raised (List Text)
  | [] => .ok []
  | v :: vs => do
    let t ← v.toStr
    let ts ← strs vs
    .ok (t :: ts)

/-- `[x for x in xs if not has(str(x))]`. -/
def lacking (has : Text → Except Raised Bool) : List Value → Except Raised (List Value)
  | [] => .ok []
  | v :: vs => do
    let t ← v.toStr
    let found ← has t
    let rest ← lacking has vs
    .ok (if found then rest else v :: rest)

/-- The servers that are required and not registered. -/
def missMcp (servers : List Text) (requires : List (Value × Value)) : Except Raised (List Value) :=
  lacking (fun m => .ok (decide (m ∈ servers))) (required requires "mcp")

/-- What `_readiness` returns: what is `missing`, by kind, and the `required_tools`. -/
structure Readiness where
  missing : Dict Text (List Value)
  requiredTools : List Text

/-- `status`. -/
def Readiness.status (r : Readiness) : Text :=
  if r.missing ≠ [] then "setup_needed".toList else "available".toList

/-- `if miss: missing[key] = miss`. -/
def note (key : String) (miss : List Value) (missing : Dict Text (List Value)) : Dict Text
    (List Value) :=
  if miss ≠ [] then missing.set key.toList miss else missing

/-- `_readiness`. -/
def readiness (H : Host) (servers : List Text) (requires : List (Value × Value)) :
    Except Raised Readiness := do
  let missEnv ← lacking H.hasEnv (required requires "env")
  let missCmd ← lacking H.hasCommand (required requires "commands")
  let missFile ← lacking H.fileExists (required requires "files")
  let missMcp ← missMcp servers requires
  let requiredTools ← strs (required requires "tools")
  .ok ⟨note "mcp" missMcp (note "files" missFile (note "commands" missCmd (note "env" missEnv []))),
    requiredTools⟩

/-! ### The visibility rule -/

/-- `map(str, xs)`, of whatever JSON value is passed. -/
def Host.strings (H : Host) : Json → Except Raised (List Text)
  | .arr xs => .ok (xs.map H.str)
  | .str t => .ok (t.map fun c => [c])
  | .obj members => .ok (members.map Prod.fst)
  | _ => .error (.other "TypeError".toList)

/-- The reason to hide a skill that requires `req`, where there is only `avail`. -/
def reasonFor (label : String) (avail req : List Text) : Option Text :=
  let miss := req.filter fun t => t ∉ avail
  if miss ≠ [] then some (label.toList ++ join ", ".toList miss) else none

/-- The check of what is required of one kind, against an inventory and what is always there: a
reason to hide the skill. -/
def unavailable (H : Host) (label : String) (always : List Text) (required : List Value)
    (inventory : Option Json) :
    Except Raised (Option Text) := do
  let req ← strs required
  match inventory with
  | none => .ok none
  | some v => if req = [] then .ok none else (fun avail =>
    reasonFor label (avail ++ always) req) <$> H.strings v

/-- The label of a missing server. -/
def mcpLabel : Text := "requires MCP server(s) not registered: ".toList

/-- `_visibility_hide_reason`: "reason to HIDE a skill, or None to show it". -/
def hideReason (H : Host) (servers : List Text) (requires : List (Value × Value))
    (agentTools agentToolsets : Option Json) :
    Except Raised (Option Text) := do
  let miss ← missMcp servers requires
  if miss ≠ [] then do
    let names ← strs miss
    .ok (some (mcpLabel ++ join ", ".toList names))
  else do
    let reason ← unavailable H "requires tool(s) unavailable: " builtinTools
      (required requires "tools") agentTools
    match reason with
    | some reason => .ok (some reason)
    | none => unavailable H "requires toolset(s) unavailable: " [] (required requires
      "toolsets") agentToolsets

/-! ### The listing -/

/-- `args.get(key)`, where JSON's null is `None`. -/
def given (args : Dict Text Json) (key : String) : Option Json :=
  match args.get? key.toList with
  | some .null => none
  | v => v

/-- `(args.get("category") or "").strip() or None`, with the empty text for `None`. -/
def categoryOf (args : Dict Text Json) : Except Raised Text :=
  match args.get? "category".toList with
  | none => .ok []
  | some v =>
    if v.truthy then
      match v with
      | .str t => .ok (strip t)
      | _ => .error (.other "AttributeError".toList)
    else .ok []

/-- `bool(args.get("all"))`. -/
def showAll (args : Dict Text Json) : Bool :=
  match args.get? "all".toList with
  | none => false
  | some v => v.truthy

/-- The public keys of an entry: "no leading-underscore fields", and none that is `None`. -/
structure PublicEntry where
  name : Text
  description : Option Text
  category : Option Text
  trigger : Option Text

/-- `_public_entry`. -/
def publicEntry (c : Entry) : PublicEntry := ⟨c.name, c.description, c.category, c.trigger⟩

/-- What `skills_list` returns. -/
structure Listing where
  skillsDir : Text
  count : ℕ
  skills : List PublicEntry
  /-- `hidden_count`, which is not there if it is 0. -/
  hiddenCount : Option ℕ
  hiddenNote : Option Text
  /-- `_hint`. -/
  hint : Option Text

/-- The loop over the catalog: what is visible, and how much is hidden. A reason to hide is never
the empty text. -/
def sift (hide : Entry → Except Raised (Option Text)) : List Entry → Except Raised (List Entry × ℕ)
  | [] => .ok ([], 0)
  | c :: cs => do
    let reason ← hide c
    let rest ← sift hide cs
    .ok (if reason.isSome then (rest.1, rest.2 + 1) else (c :: rest.1, rest.2))

/-- The entries of a category. -/
def inCategory (category : Text) (catalog : List Entry) : List Entry :=
  if category ≠ [] then catalog.filter fun c => c.category.getD [] = category else catalog

/-- The reason to hide an entry, in a call. -/
def hideIn (H : Host) (servers : List Text) (args : Dict Text Json) (c : Entry) : Except Raised
    (Option Text) :=
  if showAll args then .ok none
  else hideReason H servers c.requires (given args "agent_tools") (given args "agent_toolsets")

/-- The end of `tool_skills_list`, from the sort on. -/
def listingOf (H : Host) (args : Dict Text Json) (visible : List Entry) (hidden : ℕ) : Listing where
  skillsDir := H.skillsDir
  count := visible.length
  skills := (visible.mergeSort fun c d => leText c.name d.name).map publicEntry
  hiddenCount := if hidden = 0 then none else some hidden
  hiddenNote :=
    if hidden = 0 then none
    else some (Nat.toDigits 10 hidden ++
      (" skill(s) hidden — required tools/servers unavailable. " ++
      "Call skills_list with all=true to see them.").toList)
  hint :=
    if (given args "agent_tools").isSome then none
    else some ("Tip: pass agent_tools=[...] (your available tool names) so skills " ++
      "needing tools you lack are hidden. Without it, tool-gated skills are shown.").toList

/-- `tool_skills_list`, on the catalog that it loads. -/
def skillsList (H : Host) (servers : List Text) (catalog : List Entry) (args : Dict Text Json) :
    Except Raised Listing := do
  let category ← categoryOf args
  let sifted ← sift (hideIn H servers args) (inCategory category catalog)
  .ok (listingOf H args sifted.1 sifted.2)

/-- `tool_skills_list`. -/
def toolSkillsList (W : World) (cache : Cache) (H : Host) (servers : List Text)
    (args : Dict Text Json) :
    Except Raised Listing × Cache :=
  match categoryOf args with
  | .error e => (.error e, cache)
  | .ok _ =>
    match buildIndex W cache with
    | (.error e, cache') => (.error e, cache')
    | (.ok idx, cache') => (skillsList H servers idx.entries args, cache')

end OracleSkills.Server
