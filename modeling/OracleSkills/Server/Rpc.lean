import OracleSkills.Python.Text
import OracleSkills.Python.Dict

/-!
# The server's JSON-RPC loop

`server.py::main` reads a line at a time, has `json.loads` parse it, hands an object to
`handle` and writes the reply that comes back, if one does. `handle` decides by the
method; of its returns only the last looks at whether the message has an `id`.

`json.loads`, `str` of a parsed value and the three tools are the parameters of a
`Runtime`: a tool may read and change the state `ω` of the world. Python bounds the
nesting that `json.dumps` can write, as it bounds the nesting that `json.loads` can
read, so the runtime has that bound too.

`serve_answers_iff` compares the loop with the correspondence of JSON-RPC, line by line:
`Answers` is what a line should get, and `Regular` says which lines get it.

What is *not* formalized: the decoding of the input. The lines are those that the loop is given.
-/

namespace OracleSkills.Server.Rpc

open Python

/-! ### JSON values -/

/-- A parsed JSON value. A float is kept as its text, and whether it is zero. -/
inductive Json where
  | null
  | bool (b : Bool)
  | int (n : ℤ)
  | float (repr : Text) (isZero : Bool)
  | str (t : Text)
  | arr (items : List Json)
  | obj (members : List (Text × Json))

namespace Json

/-- A constant string. -/
def lit (s : String) : Json := .str s.toList

/-- Python's truth value. -/
def truthy : Json → Bool
  | .null => false
  | .bool b => b
  | .int n => n ≠ 0
  | .float _ isZero => !isZero
  | .str t => t ≠ []
  | .arr items => !items.isEmpty
  | .obj members => !members.isEmpty

/-- Python can hash the value: it is neither a list nor a dictionary. -/
def hashable : Json → Bool
  | .arr _ => false
  | .obj _ => false
  | _ => true

/-- The value is the string `t`. -/
def isText (t : String) : Json → Bool
  | .str s => s = t.toList
  | _ => false

mutual

/-- How deeply lists and dictionaries are nested in the value. -/
def depth : Json → ℕ
  | .arr items => depthItems items + 1
  | .obj members => depthMembers members + 1
  | _ => 0

def depthItems : List Json → ℕ
  | [] => 0
  | x :: xs => max (depth x) (depthItems xs)

def depthMembers : List (Text × Json) → ℕ
  | [] => 0
  | (_, x) :: xs => max (depth x) (depthMembers xs)

end

end Json

/-! ### The tools' schemas -/

/-- `{"type": type, "description": description}`. -/
def property (type description : String) : Json :=
  .obj [("type".toList, .lit type), ("description".toList, .lit description)]

/-- `{"type": "array", "items": {"type": "string"}, "description": description}`. -/
def arrayProperty (description : String) : Json :=
  .obj [("type".toList, .lit "array"), ("items".toList, .obj [("type".toList, .lit "string")]),
    ("description".toList, .lit description)]

/-- A tool with its schema. -/
def tool (name description : String) (properties : List (Text × Json))
    (required : List (Text × Json)) : Json :=
  .obj [("name".toList, .lit name), ("description".toList, .lit description),
    ("inputSchema".toList,
      .obj ([("type".toList, .lit "object"), ("properties".toList, .obj properties)] ++ required))]

/-- `TOOLS`. -/
def tools : Json :=
  .arr [
    tool "skills_list"
      ("List the skill catalog: name + description, alphabetical. Your system " ++
        "prompt already carries this for every skill, so you rarely need it — " ++
        "the one case that matters is a skill shown to you as a bare NAME with " ++
        "no description (suppressed by skillOverrides): call this to read the " ++
        "description back, then skill_view for the full text. " ++
        "category filters; all=true shows skills hidden for missing tools.")
      [("category".toList, property "string" "Optional exact-match category filter."),
        ("agent_tools".toList,
          arrayProperty "Tool names you currently have available (for visibility filtering)."),
        ("agent_toolsets".toList, arrayProperty "Toolset names you currently have available."),
        ("all".toList, property "boolean" "Show skills that would otherwise be hidden.")]
      [],
    tool "skill_view"
      ("Load a skill's full instructions by name, plus a readiness report " ++
        "(missing env vars / commands / files / MCP servers). Pass file_path " ++
        "to read one of the skill's linked reference files instead of the body.")
      [("name".toList, property "string" "Skill name to load."),
        ("file_path".toList,
          property "string" "Optional reference file, e.g. 'references/api.md'.")]
      [("required".toList, .arr [.lit "name"])],
    tool "skill_patch"
      ("Repair a skill you loaded that had a wrong command, missing step, or " ++
        "a pitfall you discovered. Replaces old_string with new_string in the " ++
        "skill BODY (must match exactly once), then re-stamps content_hash and " ++
        "edited_by/edited_at provenance. Use after a task when a skill was wrong.")
      [("name".toList, property "string" "Skill to patch."),
        ("old_string".toList,
          property "string" "Exact text in the body to replace (must be unique)."),
        ("new_string".toList, property "string" "Replacement text."),
        ("edited_by".toList,
          property "string"
            "Who is patching (provenance); defaults to $AUTO_SKILL_SOURCE or 'skills-mcp'.")]
      [("required".toList, .arr [.lit "name", .lit "old_string", .lit "new_string"])]]

/-- `DEFAULT_PROTOCOL_VERSION`. -/
def defaultProtocolVersion : Text := "2025-06-18".toList

/-- `SUPPORTED_PROTOCOL_VERSIONS`. -/
def supportedProtocolVersions : List Text :=
  ["2025-06-18".toList, "2025-03-26".toList, "2024-11-05".toList]

/-! ### The runtime -/

/-- What `json.loads` does with a line. -/
inductive Loaded where
  | value (v : Json)
  /-- A `JSONDecodeError`, as `str(e)`. -/
  | decodeError (message : Text)
  /-- Any other exception. -/
  | raised

/-- The tools of `TOOL_IMPL`. -/
inductive Tool where
  | skillsList
  | skillView
  | skillPatch

/-- What a tool call does, with its `json.dumps` of the payload. -/
inductive ToolOutcome where
  | text (t : Text)
  /-- A `ValueError`, as `str(e)`. -/
  | valueError (message : Text)
  /-- Any other exception. -/
  | raised

/-- What the loop is run with. -/
structure Runtime (ω : Type*) where
  /-- `json.loads`. -/
  loads : Text → Loaded
  /-- `str` of a parsed value, `none` where it raises. -/
  str : Json → Option Text
  /-- The tools: they see the arguments and the world. -/
  call : Tool → Json → ω → ToolOutcome × ω
  /-- `json.dumps` raises `RecursionError` on what is nested deeper. -/
  dumpsDepth : ℕ
  /-- The interpreter's recursion limit leaves room for the server's own replies. -/
  room : 8 ≤ dumpsDepth

/-- `TOOL_IMPL.get(name)`. -/
def toolImpl (name : Json) : Option Tool :=
  if name.isText "skills_list" then some .skillsList
  else if name.isText "skill_view" then some .skillView
  else if name.isText "skill_patch" then some .skillPatch
  else none

/-- `_result`. -/
def result (msgId value : Json) : Json :=
  .obj [("jsonrpc".toList, .lit "2.0"), ("id".toList, msgId), ("result".toList, value)]

/-- `_error`. -/
def error (msgId : Json) (code : ℤ) (message : Text) : Json :=
  .obj [("jsonrpc".toList, .lit "2.0"), ("id".toList, msgId),
    ("error".toList, .obj [("code".toList, .int code), ("message".toList, .str message)])]

/-- `{"content": [{"type": "text", "text": text}]}`, and what else the result has. -/
def content (text : Text) (more : List (Text × Json)) : Json :=
  .obj ([("content".toList,
    .arr [.obj [("type".toList, .lit "text"), ("text".toList, .str text)]])] ++ more)

/-! ### The loop -/

section

variable {ω : Type*} (R : Runtime ω)

/-- What `handle` does: it returns a reply or `None`, or it raises. -/
inductive Handled where
  | reply (r : Json)
  | nothing
  | raised

/-- `msg.get("params") or {}`. -/
def paramsOf (msg : Dict Text Json) : Json :=
  let params := msg.getD "params".toList .null
  if params.truthy then params else .obj []

/-- The protocol version `handle` answers with: "only echo a version we actually implement,
else our default". -/
def negotiate : Json → Text
  | .str v => if v ∈ supportedProtocolVersions then v else defaultProtocolVersion
  | _ => defaultProtocolVersion

/-- The branch of `handle` for `initialize`. -/
def initializeReply (msgId : Json) : Json → Handled
  | .obj params =>
    let clientProto := Dict.getD "protocolVersion".toList .null params
    if clientProto.hashable then
      .reply (result msgId (.obj [("protocolVersion".toList, .str (negotiate clientProto)),
        ("capabilities".toList, .obj [("tools".toList, .obj [])]), ("serverInfo".toList,
          .obj [("name".toList, .lit "skills"), ("version".toList, .lit "0.4.0")])]))
    -- an unhashable value `in` a set
    else .raised
  -- only a dictionary has `get`
  | _ => .raised

/-- A call of a tool that is there. -/
def callTool (w : ω) (msgId : Json) (impl : Tool) (arguments : Json) : Handled × ω :=
  match R.call impl (if arguments.truthy then arguments else .obj []) w with
  | (.text t, w') => (.reply (result msgId (content t [])), w')
  | (.valueError m, w') =>
    (.reply (result msgId (content ("error: ".toList ++ m) [("isError".toList, .bool true)])), w')
  | (.raised, w') =>
    (.reply (result msgId
      (content "error: internal tool error".toList [("isError".toList, .bool true)])), w')

/-- The branch of `handle` for `tools/call`. -/
def toolsCall (w : ω) (msgId : Json) : Json → Handled × ω
  | .obj params =>
    let toolName := Dict.getD "name".toList .null params
    if toolName.hashable then
      match toolImpl toolName with
      | none =>
        match R.str toolName with
        | some t => (.reply (error msgId (-32602) ("unknown tool: ".toList ++ t)), w)
        | none => (.raised, w)
      | some impl => callTool R w msgId impl (Dict.getD "arguments".toList .null params)
    else (.raised, w)
  | _ => (.raised, w)

/-- `handle`. -/
def handle (w : ω) (msg : Dict Text Json) : Handled × ω :=
  let method := msg.getD "method".toList .null
  let msgId := msg.getD "id".toList .null
  if method.isText "initialize" then (initializeReply msgId (paramsOf msg), w)
  else if method.isText "notifications/initialized" ∨ method.isText "initialized" then (.nothing, w)
  else if method.isText "ping" then (.reply (result msgId (.obj [])), w)
  else if method.isText "tools/list" then
    (.reply (result msgId (.obj [("tools".toList, tools)])), w)
  else if method.isText "tools/call" then toolsCall R w msgId (paramsOf msg)
  else if msg.get? "id".toList = none then (.nothing, w)
  else
    match R.str method with
    | some t => (.reply (error msgId (-32601) ("method not found: ".toList ++ t)), w)
    | none => (.raised, w)

/-- `emit`: the reply is written, unless it is nested too deeply. -/
def emit (w : ω) (reply : Json) : Option (List Json × ω) :=
  if reply.depth ≤ R.dumpsDepth then some ([reply], w) else none

/-- What is written for an object, from what `handle` did with it: "resp is not None" is
written, and for an exception an internal error. -/
def answer (msgId : Json) : Handled × ω → Option (List Json × ω)
  | (.reply r, w) => emit R w r
  | (.nothing, w) => some ([], w)
  | (.raised, w) => emit R w (error msgId (-32603) "internal error".toList)

/-- One turn of the loop: what is written, or `none` where an exception ends the loop. -/
def turn (w : ω) (line : Text) : Option (List Json × ω) :=
  let line := strip line
  if line = [] then some ([], w)
  else
    match R.loads line with
    | .decodeError m => emit R w (error .null (-32700) ("parse error: ".toList ++ m))
    | .raised => none
    | .value (.obj msg) => answer R (Dict.getD "id".toList .null msg) (handle R w msg)
    | .value _ =>
      emit R w (error .null (-32600) "invalid request: expected a JSON-RPC object".toList)

/-- What is written for each line that the loop serves; it serves no line after one that
ends it. -/
def serve : ω → List Text → List (List Json)
  | _, [] => []
  | w, line :: lines =>
    match turn R w line with
    | none => []
    | some (out, w') => out :: serve w' lines

/-- The output of `main`. -/
def main (w : ω) (lines : List Text) : List Json := (serve R w lines).flatten

end

/-! ### Replies -/

/-- The `id` of a reply. -/
def replyId : Json → Option Json
  | .obj members => Dict.get? "id".toList members
  | _ => none

/-- A reply to `msgId`: it carries that id, and apart from the id nothing in it is nested
deeper than the tools' schemas. -/
structure RepliesTo (msgId r : Json) : Prop where
  id_eq : replyId r = some msgId
  lt_depth : msgId.depth < r.depth
  depth_le : r.depth ≤ max msgId.depth 7 + 1

theorem repliesTo_result (msgId : Json) {v : Json} (hv : v.depth ≤ 7) :
    RepliesTo msgId (result msgId v) := by
  have hd : (result msgId v).depth = max msgId.depth v.depth + 1 := by
    simp [result, Json.depth, Json.depthMembers, Json.lit]
  exact ⟨rfl, by omega, by omega⟩

theorem repliesTo_error (msgId : Json) (code : ℤ) (m : Text) :
    RepliesTo msgId (error msgId code m) := by
  have hd : (error msgId code m).depth = max msgId.depth 1 + 1 := by
    simp [error, Json.depth, Json.depthMembers, Json.lit]
  exact ⟨rfl, by omega, by omega⟩

theorem depth_tools : (Json.obj [("tools".toList, tools)]).depth ≤ 7 := by
  have h : tools.depth = 6 := by decide
  simp [Json.depth, Json.depthMembers, h]

theorem depth_content (t : Text) (b : Bool) :
    (content t []).depth ≤ 7 ∧ (content t [("isError".toList, .bool b)]).depth ≤ 7 := by
  simp [content, Json.depth, Json.depthMembers, Json.depthItems, Json.lit]

section

variable {ω : Type*} (R : Runtime ω)

/-- A reply is written if and only if the id is not nested too deeply. -/
theorem RepliesTo.emit_eq {R : Runtime ω} {msgId r : Json} (h : RepliesTo msgId r) (w : ω) :
    emit R w r = if msgId.depth < R.dumpsDepth then some ([r], w) else none := by
  have hroom := R.room
  have hlt := h.lt_depth
  have hle := h.depth_le
  rw [emit]
  exact if_congr (by omega) rfl rfl

/-! ### What `handle` does with a message -/

/-- The methods that `handle` never answers. -/
def Silent (msg : Dict Text Json) : Prop :=
  let method := msg.getD "method".toList .null
  method.isText "notifications/initialized" = true ∨ method.isText "initialized" = true

/-- The methods that `handle` always answers. -/
def Answered (msg : Dict Text Json) : Prop :=
  let method := msg.getD "method".toList .null
  method.isText "initialize" = true ∨ method.isText "ping" = true ∨
    method.isText "tools/list" = true ∨
    method.isText "tools/call" = true

/-- What may come of `msg` where it is answered: a reply with its id, or an exception, for
which the loop writes a reply with its id. -/
def Replies (msgId : Json) : Handled → Prop
  | .nothing => False
  | .reply r => RepliesTo msgId r
  | .raised => True

theorem isText_unique {j : Json} {s t : String} (hs : j.isText s = true) (ht : j.isText t = true) :
    s.toList = t.toList := by
  cases j with
  | str x =>
    simp only [Json.isText, decide_eq_true_eq] at hs ht
    rw [← hs, ← ht]
  | _ => cases hs

/-- An answered method is not a silent one. -/
theorem Answered.not_silent {msg : Dict Text Json} (h : Answered msg) : ¬ Silent msg := by
  rintro (hs | hs) <;> rcases h with h | h | h | h <;> exact absurd (isText_unique hs h) (by decide)

theorem initializeReply_replies (msgId params : Json) :
    Replies msgId (initializeReply msgId params) := by
  cases params with
  | obj params =>
    rw [initializeReply]
    split_ifs
    · exact repliesTo_result _ (by simp [Json.depth, Json.depthMembers, Json.lit])
    · trivial
  | _ => trivial

theorem callTool_replies (w : ω) (msgId : Json) (impl : Tool) (arguments : Json) :
    Replies msgId (callTool R w msgId impl arguments).1 := by
  have hd := depth_content
  rw [callTool]
  split
  · exact repliesTo_result _ (hd _ true).1
  · exact repliesTo_result _ (hd _ true).2
  · exact repliesTo_result _ (hd _ true).2

theorem toolsCall_replies (w : ω) (msgId params : Json) :
    Replies msgId (toolsCall R w msgId params).1 := by
  cases params with
  | obj params =>
    rw [toolsCall]
    split_ifs
    · split
      · split
        · exact repliesTo_error _ _ _
        · trivial
      · exact callTool_replies R w msgId _ _
    · trivial
  | _ => trivial

/-- A silent message gets nothing. -/
theorem handle_of_silent (w : ω) {msg : Dict Text Json} (h : Silent msg) :
    (handle R w msg).1 = .nothing := by
  have hinit : ¬ Json.isText "initialize" (msg.getD "method".toList .null) = true := fun hi =>
    Answered.not_silent (Or.inl hi) h
  have hs : Json.isText "notifications/initialized" (msg.getD "method".toList .null) = true ∨
      Json.isText "initialized" (msg.getD "method".toList .null) = true := h
  rw [handle, if_neg hinit, if_pos hs]

/-- A message whose method is always answered gets a reply. -/
theorem handle_of_answered (w : ω) {msg : Dict Text Json} (h : Answered msg) :
    Replies (msg.getD "id".toList .null) (handle R w msg).1 := by
  have hs : ¬ (Json.isText "notifications/initialized" (msg.getD "method".toList .null) = true ∨
      Json.isText "initialized" (msg.getD "method".toList .null) = true) := h.not_silent
  rw [handle]
  by_cases hinit : Json.isText "initialize" (msg.getD "method".toList .null) = true
  · rw [if_pos hinit]
    exact initializeReply_replies _ _
  rw [if_neg hinit, if_neg hs]
  by_cases hping : Json.isText "ping" (msg.getD "method".toList .null) = true
  · rw [if_pos hping]
    exact repliesTo_result _ (by decide)
  rw [if_neg hping]
  by_cases hlist : Json.isText "tools/list" (msg.getD "method".toList .null) = true
  · rw [if_pos hlist]
    exact repliesTo_result _ depth_tools
  rw [if_neg hlist, if_pos (((h.resolve_left hinit).resolve_left hping).resolve_left hlist)]
  exact toolsCall_replies R w _ _

/-- Any other message gets a reply if it has an id, and nothing if it has none. -/
theorem handle_of_other (w : ω) {msg : Dict Text Json} (hs : ¬ Silent msg) (ha : ¬ Answered msg) :
    (msg.get? "id".toList = none ∧ (handle R w msg).1 = .nothing) ∨
      msg.get? "id".toList ≠ none ∧ Replies (msg.getD "id".toList .null) (handle R w msg).1 := by
  simp only [Answered, not_or] at ha
  obtain ⟨hinit, hping, hlist, hcall⟩ := ha
  have hs' : ¬ (Json.isText "notifications/initialized" (msg.getD "method".toList .null) = true ∨
      Json.isText "initialized" (msg.getD "method".toList .null) = true) := hs
  rw [handle, if_neg hinit, if_neg hs', if_neg hping, if_neg hlist, if_neg hcall]
  split_ifs with hid
  · exact Or.inl ⟨hid, rfl⟩
  · refine Or.inr ⟨hid, ?_⟩
    split
    · exact repliesTo_error _ _ _
    · trivial

/-! ### The correspondence -/

/-- What a line should get: one `-32700` reply if `json.loads` rejects it, one `-32600` reply
for a value that is no object, one reply with its id for an object that has one, and
nothing for an object without. -/
def Answers (line : Text) (out : List Json) : Prop :=
  if strip line = [] then out = []
  else
    match R.loads (strip line) with
    | .decodeError _ => ∃ m, out = [error .null (-32700) m]
    | .raised => ∃ m, out = [error .null (-32700) m]
    | .value (.obj msg) =>
      match Dict.get? "id".toList msg with
      | some msgId => ∃ r, out = [r] ∧ replyId r = some msgId
      | none => out = []
    | .value _ => ∃ m, out = [error .null (-32600) m]

/-- The lines that get it: `json.loads` raises nothing but a `JSONDecodeError`; an object with
an id asks for no silent method and its id can be written; an object without an id asks
for none that is always answered. -/
def Regular (line : Text) : Prop :=
  strip line = [] ∨
    match R.loads (strip line) with
    | .decodeError _ => True
    | .raised => False
    | .value (.obj msg) =>
      match Dict.get? "id".toList msg with
      | some msgId => msgId.depth < R.dumpsDepth ∧ ¬ Silent msg
      | none => ¬ Answered msg
    | .value _ => True

/-- What is written for a message that is answered: one reply, with its id, if the id is
not nested too deeply. -/
theorem Replies.answer_eq {R : Runtime ω} {msgId : Json} {x : Handled × ω} (h : Replies msgId x.1) :
    ∃ r, replyId r = some msgId ∧
      answer R msgId x = if msgId.depth < R.dumpsDepth then some ([r], x.2) else none := by
  obtain ⟨y, w⟩ := x
  cases y with
  | reply r => exact ⟨r, h.id_eq, h.emit_eq w⟩
  | nothing => exact absurd h id
  | raised =>
    have hr := repliesTo_error msgId (-32603) "internal error".toList
    exact ⟨_, hr.id_eq, hr.emit_eq w⟩

theorem answer_of_nothing (msgId : Json) {x : Handled × ω} (h : x.1 = .nothing) :
    answer R msgId x = some ([], x.2) := by
  obtain ⟨y, w⟩ := x
  obtain rfl : y = .nothing := h
  rfl

/-- The server's own replies to no id are always written. -/
theorem emit_error_null (w : ω) (code : ℤ) (m : Text) :
    emit R w (error .null code m) = some ([error .null code m], w) := by
  have hpos : Json.null.depth < R.dumpsDepth := Nat.lt_of_lt_of_le (by decide) R.room
  rw [(repliesTo_error .null code m).emit_eq, if_pos hpos]

/-- With an id, a message that is no notification gets a reply, -/
theorem replies_of_id (w : ω) {msg : Dict Text Json} {msgId : Json}
    (hid : msg.get? "id".toList = some msgId) (hs : ¬ Silent msg) :
    Replies msgId (handle R w msg).1 := by
  have hgetD : msg.getD "id".toList .null = msgId := by rw [Dict.getD, hid]; rfl
  by_cases ha : Answered msg
  · exact hgetD ▸ handle_of_answered R w ha
  · rcases handle_of_other R w hs ha with ⟨hn, -⟩ | ⟨-, hr⟩
    · rw [hid] at hn
      cases hn
    · exact hgetD ▸ hr

/-- and with none there is no reply, if its method is not one that is always answered. -/
theorem nothing_of_no_id (w : ω) {msg : Dict Text Json} (hid : msg.get? "id".toList = none)
    (ha : ¬ Answered msg) :
    (handle R w msg).1 = .nothing := by
  by_cases hs : Silent msg
  · exact handle_of_silent R w hs
  · rcases handle_of_other R w hs ha with ⟨-, hn⟩ | ⟨hn, -⟩
    · exact hn
    · exact absurd hid hn

/-- **One turn of the loop**: a line gets what it should, and the loop goes on, if and
only if the line is regular. -/
theorem turn_answers_iff (w : ω) (line : Text) :
    (∃ out w', turn R w line = some (out, w') ∧ Answers R line out) ↔ Regular R line := by
  simp only [turn, Answers, Regular]
  by_cases hblank : strip line = []
  · simp [hblank]
  · simp only [hblank, if_false, false_or]
    cases R.loads (strip line) with
    | decodeError m => simp [emit_error_null]
    | raised => simp
    | value v =>
      cases v with
      | obj msg =>
        simp only
        cases hid : Dict.get? "id".toList msg with
        | some msgId =>
          have hgetD : Dict.getD "id".toList .null msg = msgId := by rw [Dict.getD, hid]; rfl
          simp only [hgetD]
          by_cases hs : Silent msg
          · -- nothing is written
            rw [answer_of_nothing R _ (handle_of_silent R w hs)]
            simp [hs]
          · obtain ⟨r, hrid, heq⟩ := (replies_of_id R w hid hs).answer_eq (R := R)
            rw [heq]
            by_cases hd : msgId.depth < R.dumpsDepth
            · simp [hd, hs, hrid]
            · simp [hd]
        | none =>
          simp only
          by_cases ha : Answered msg
          · -- a reply is written where there should be none
            obtain ⟨r, -, heq⟩ := (handle_of_answered R w ha).answer_eq (R := R)
            rw [heq]
            simp only [ha, not_true_eq_false, iff_false]
            rintro ⟨out, w', hout, rfl⟩
            split_ifs at hout
            rw [Option.some.injEq, Prod.mk.injEq] at hout
            cases hout.1
          · rw [answer_of_nothing R _ (nothing_of_no_id R w hid ha)]
            simp [ha]
      | _ => simp [emit_error_null]

/-- The server serves every line and gives each what it should get if and only if every line
is regular. -/
theorem serve_answers_iff (w : ω) (lines : List Text) :
    List.Forall₂ (Answers R) lines (serve R w lines) ↔ ∀ line ∈ lines, Regular R line := by
  induction lines generalizing w with
  | nil => simp [serve]
  | cons line lines ih =>
    rw [List.forall_mem_cons, ← turn_answers_iff R w line, serve]
    cases hturn : turn R w line with
    | none =>
      constructor
      · intro h
        cases h
      · rintro ⟨⟨out, w', hout, -⟩, -⟩
        cases hout
    | some x =>
      obtain ⟨out, w'⟩ := x
      simp only [List.forall₂_cons, ih w', Option.some.injEq, Prod.mk.injEq]
      constructor
      · rintro ⟨hout, hrest⟩
        exact ⟨⟨out, w', ⟨rfl, rfl⟩, hout⟩, hrest⟩
      · rintro ⟨⟨out', w'', ⟨rfl, rfl⟩, hout⟩, hrest⟩
        exact ⟨hout, hrest⟩

/-- The output of `main` is, line by line, what each line should get. -/
def Corresponds (w : ω) (lines : List Text) : Prop :=
  ∃ outs, main R w lines = outs.flatten ∧ outs = serve R w lines ∧
    List.Forall₂ (Answers R) lines outs

/-- **The loop corresponds to its input** if and only if every line is regular. -/
theorem main_corresponds_iff (w : ω) (lines : List Text) :
    Corresponds R w lines ↔ ∀ line ∈ lines, Regular R line := by
  rw [← serve_answers_iff R w lines]
  constructor
  · rintro ⟨outs, -, rfl, h⟩
    exact h
  · exact fun h => ⟨_, rfl, rfl, h⟩

end

/-- A `ping` without an id. -/
def pingLine : Text := "\x7b\"jsonrpc\": \"2.0\", \"method\": \"ping\"\x7d".toList

/-- The message it parses to. -/
def pingMessage : Dict Text Json := [("jsonrpc".toList, .lit "2.0"), ("method".toList, .lit "ping")]

/-- A runtime that knows this line. -/
def pingRuntime : Runtime Unit where
  loads t :=
    if t = pingLine then .value (.obj pingMessage) else
      .decodeError "Expecting value: line 1 column 1 (char 0)".toList
  str _ := none
  call _ _ w := (.raised, w)
  dumpsDepth := 993
  room := by decide

theorem pingRuntime_loads : pingRuntime.loads pingLine = .value (.obj pingMessage) := rfl

/-- A `ping` without an id is answered. -/
theorem not_corresponds_ping :
    ¬ ∀ (R : Runtime Unit) (w : Unit) (lines : List Text), (∀ line ∈ lines, strip line ≠ []) →
        Corresponds R w lines := by
  intro hall
  have hstrip : strip pingLine = pingLine := by decide
  have hne : strip pingLine ≠ [] := by decide
  obtain ⟨outs, -, rfl, h⟩ := hall pingRuntime () [pingLine] fun line hl => by
    rw [List.mem_singleton] at hl
    exact hl ▸ hne
  have hreg := (serve_answers_iff pingRuntime () [pingLine]).mp h pingLine
    (List.mem_singleton_self _)
  rcases hreg with hreg | hreg
  · exact hne hreg
  · rw [hstrip, pingRuntime_loads] at hreg
    exact hreg (Or.inr (Or.inl (by decide)))

end OracleSkills.Server.Rpc
