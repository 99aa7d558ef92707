import Mathlib.Data.List.Basic
import OracleSkills.Python.Dict
import OracleSkills.Capture.Turns

/-!
# From the records of a transcript to the turns

The extractor of `session_capture.ts`: "what the human asked, what they decided, what was concluded
— and nothing else". A `TurnCollector` takes the records one by one (`add`); what it has learned on
the way, the ids of the questions that were asked with `AskUserQuestion`, decides which tool results
are the human's choice.

The last section says what a record adds, text by text, without the collector (`speech`, `decided`,
`concluded`, `asked`), and `add_eq` is the step in these terms.

What is *not* formalized: how a transcript is read. The records are what `JSON.parse` has made of
its lines.
-/

namespace OracleSkills.Capture

open Python Js

/-! ### Values -/

/-- A value as `JSON.parse` gives it, or `undefined`. -/
inductive Value where
  | undefined
  | null
  | bool (b : Bool)
  | number (n : Number)
  | string (t : JsText)
  | array (items : List Value)
  | object (members : List (JsText × Value))

namespace Value

/-- `v?.[key]`: of the names that are read here, only an object has properties. -/
def prop (v : Value) (key : JsText) : Value :=
  match v with
  | object members => (Dict.get? key members).getD undefined
  | _ => undefined

/-- `v?.key`. -/
def get (v : Value) (key : String) : Value := v.prop (utf16 key.toList)

/-- `Boolean(v)`. -/
def truthy : Value → Bool
  | undefined | null => false
  | bool b => b
  | number n => n ≠ 0 && n ≠ .nan
  | string t => t ≠ []
  | array _ | object _ => true

/-- `Boolean(v) && typeof v === 'object'`. -/
def isObject : Value → Bool
  | array _ | object _ => true
  | _ => false

/-- `v === 'text'`. -/
def is (v : Value) (text : String) : Bool :=
  match v with
  | string t => t = utf16 text.toList
  | _ => false

/-- The equality of a `Set`. An object is the same as itself alone, and no two places of what
`JSON.parse` gives hold the same object. -/
def same : Value → Value → Bool
  | undefined, undefined | null, null => true
  | bool a, bool b => a = b
  | number a, number b => a = b
  | string s, string t => s = t
  | _, _ => false

end Value

/-! ### Texts -/

/-- What stands before the first occurrence of a mark, and behind it. -/
def cutAt (mark : JsText) : JsText → Option (JsText × JsText)
  | [] => none
  | u :: t =>
    match (u :: t).dropPrefix? mark with
    | some rest => some ([], rest)
    | none => (cutAt mark t).map fun parts => (u :: parts.1, parts.2)

theorem dropPrefix?_eq_some {mark t rest : JsText} :
    t.dropPrefix? mark = some rest ↔ t = mark ++ rest := by
  simp only [List.dropPrefix?_eq_some_iff, beq_iff_eq]
  exact ⟨fun ⟨_, h, hm⟩ => hm ▸ h, fun h => ⟨_, h, rfl⟩⟩

theorem cutAt_eq_none {mark t : JsText} (hne : mark ≠ []) (h : cutAt mark t = none) :
    ¬ mark <:+: t := by
  induction t with
  | nil => exact fun hi => hne (List.infix_nil.mp hi)
  | cons u t ih =>
    rw [cutAt] at h
    split at h
    · cases h
    · next hdrop =>
      rw [List.infix_cons_iff, not_or]
      refine ⟨?_, ih (Option.map_eq_none_iff.mp h)⟩
      rintro ⟨r, hr⟩
      rw [dropPrefix?_eq_some.mpr hr.symm] at hdrop
      cases hdrop

/-- The mark that is found is the first one. -/
theorem cutAt_eq_some {mark t pre rest : JsText} (hne : mark ≠ [])
    (h : cutAt mark t = some (pre, rest)) :
    t = pre ++ mark ++ rest ∧ ¬ mark <:+: (pre ++ mark).dropLast := by
  induction t generalizing pre with
  | nil => cases h
  | cons u t ih =>
    rw [cutAt] at h
    split at h
    · next r hdrop =>
      cases h
      refine ⟨dropPrefix?_eq_some.mp hdrop, fun hi => ?_⟩
      have hlt := List.length_pos_iff.mpr hne
      have hle := hi.length_le
      rw [List.nil_append, List.length_dropLast] at hle
      omega
    · next hdrop =>
      obtain ⟨⟨pre', rest'⟩, hcut, he⟩ := Option.map_eq_some_iff.mp h
      cases he
      obtain ⟨rfl, hfirst⟩ := ih hcut
      refine ⟨rfl, fun hi => ?_⟩
      rw [List.cons_append, List.dropLast_cons_of_ne_nil (by simp [hne]), List.infix_cons_iff] at hi
      rcases hi with hp | hi
      · obtain ⟨r, hr⟩ : mark <+: u :: (pre' ++ mark ++ rest') :=
          hp.trans (List.cons_prefix_cons.mpr
            ⟨rfl, (List.dropLast_prefix _).trans (List.prefix_append _ _)⟩)
        rw [dropPrefix?_eq_some.mpr hr.symm] at hdrop
        cases hdrop
      · exact hfirst hi

/-- `HARNESS_TAGS`. -/
def harnessTags : List String :=
  ["system-reminder", "command-name", "command-message", "command-args", "local-command-stdout",
    "local-command-stderr",
    "task-notification", "ide_selection", "ide_opened_file", "ide_diagnostics"]

/-- The replacement by nothing of what stands from `opening` to the next `closing`, in at most
`fuel` steps. -/
def removeFrom (opening closing : JsText) : ℕ → JsText → JsText
  | 0, t => t
  | _, [] => []
  | fuel + 1, u :: t =>
    match ((u :: t).dropPrefix? opening).bind (cutAt closing) with
    | some (_, rest) => removeFrom opening closing fuel rest
    | none => u :: removeFrom opening closing fuel t

/-- `out.replace(pattern, '')` for the pattern of a tag; every step takes a code unit at least. -/
def removeTag (out : JsText) (tag : String) : JsText :=
  removeFrom (utf16 ('<' :: tag.toList ++ ['>'])) (utf16 ('<' :: '/' :: tag.toList ++ ['>']))
    out.length out

/-- `stripHarnessTags`. -/
def stripHarnessTags (text : JsText) : JsText := trim (harnessTags.foldl removeTag text)

/-- The first pattern of `ASK_BOILERPLATE`: from the blanks before the words to the end. -/
def dropReadCarefully (out : JsText) : JsText :=
  match cutAt (utf16 "Read the answers carefully".toList) out with
  | some (pre, _) => pre.rdropWhile isJsSpace
  | none => out

/-- The second pattern of `ASK_BOILERPLATE`: the words at the end, with the blanks around them and a
full stop or none. -/
def dropContinue (out : JsText) : JsText :=
  let flat := out.rdropWhile isJsSpace
  let words := utf16 "You can now continue with these answers in mind".toList
  match flat.dropSuffix? (words ++ utf16 ['.']) with
  | some pre => pre.rdropWhile isJsSpace
  | none =>
    match flat.dropSuffix? words with
    | some pre => pre.rdropWhile isJsSpace
    | none => out

/-- `stripAskBoilerplate`. -/
def stripAskBoilerplate (text : JsText) : JsText := trim (dropContinue (dropReadCarefully text))

/-- `AUTOMATION_PREFIXES`. -/
def automationPrefixes : List String := ["[งานจาก orchestrator", "เตือน:", "คุณคือ orchestrator"]

/-- `\w`. -/
def isWord (u : UInt16) : Bool :=
  (48 ≤ u && u ≤ 57) || (65 ≤ u && u ≤ 90) || u = 95 || (97 ≤ u && u ≤ 122)

/-- `\b` behind a letter, before the rest. -/
def atBoundary (rest : JsText) : Bool := !rest.head?.any isWord

/-- The text is of `\s*\S*\s*`. -/
def blankWordBlank (t : JsText) : Bool :=
  ((t.dropWhile isJsSpace).dropWhile fun u => !isJsSpace u).all isJsSpace

/-- `/^\[[^\]\n]{1,60}\]\s*\S*\s*Team handoff\b/`. -/
def isHandoff (t : JsText) : Bool :=
  match t.dropPrefix? (utf16 ['[']) with
  | none => false
  | some rest =>
    match cutAt (utf16 [']']) rest with
    | none => false
    | some (name, rest) =>
      1 ≤ name.length && name.length ≤ 60 && !name.contains 10 &&
        (List.range (rest.length + 1)).any fun i =>
          blankWordBlank (rest.take i) &&
            ((rest.drop i).dropPrefix? (utf16 "Team handoff".toList)).any atBoundary

/-- `/^You have \d+ unread messages? in inbox\b/`. -/
def isInboxNotice (t : JsText) : Bool :=
  match t.dropPrefix? (utf16 "You have ".toList) with
  | none => false
  | some rest =>
    let isDigit : UInt16 → Bool := fun u => 48 ≤ u && u ≤ 57
    rest.head?.any isDigit &&
      ["s in inbox", " in inbox"].any fun ending =>
        ((rest.dropWhile isDigit).dropPrefix? (utf16 (" unread message" ++ ending).toList)).any
          atBoundary

/-- `CONTROL_WORDS`. -/
def controlWords : List String := ["continue", "yes", "no", "ok", "okay", "go", "y", "n"]

/-- `toLowerCase` of the code units that become a letter of English: the capitals, and the sign for
Kelvin. No text with another code unit outside of ASCII becomes a control word. -/
def lowerUnit (u : UInt16) : UInt16 :=
  if 65 ≤ u && u ≤ 90 then u + 32 else if u = 0x212A then 107 else u

/-- `isAutomationText`. -/
def isAutomationText (text : JsText) : Bool :=
  let t := trim text
  t = [] || controlWords.any (fun word => t.map lowerUnit = utf16 word.toList) ||
    automationPrefixes.any (fun start => (utf16 start.toList).isPrefixOf t) || isHandoff t ||
      isInboxNotice t

/-- The text of a block, if it has one. -/
def textOf (block : Value) : Option JsText :=
  match block.get "text" with
  | .string text => some text
  | _ => none

/-- `humanText`. -/
def humanText (blocks : List Value) : JsText :=
  stripHarnessTags (joinWith (utf16 ['\n'])
    ((blocks.filter fun b => b.isObject && (b.get "type").is "text").filterMap textOf))

/-- `resultText`. -/
def resultText : Value → JsText
  | .string content => trim content
  | .array content =>
    let texts := content.map fun p =>
      match p with
      | .string text => text
      | p => (textOf p).getD []
    trim (joinWith (utf16 ['\n']) (texts.filter (· ≠ [])))
  | _ => []

/-! ### The budget -/

/-- The turns from the front that are together within the half, of which `chars` are taken. -/
def takeWithin (half : Number) : ℕ → List Turn → List Turn
  | _, [] => []
  | chars, turn :: turns =>
    if Number.lt half (chars + turn.text.length : ℕ) then [] else
      turn :: takeWithin half (chars + turn.text.length) turns

/-- The characters of all turns. -/
def totalChars (turns : List Turn) : ℕ := (turns.map (·.text.length)).sum

/-- The turn that stands for those that are dropped. -/
def marker (kind : TurnKind) (dropped : ℕ) : Turn where
  kind := kind
  text := utf16
    ("… ".toList ++ (Nat.repr dropped).toList ++ " turns omitted (session over budget) …".toList)

/-- `budget`: "by dropping the MIDDLE". -/
def budget (turns : List Turn) (maxChars : Number) (kind : TurnKind) : List Turn :=
  if Number.le (totalChars turns) maxChars then turns
  else
    let half := maxChars.floorHalf
    let head := takeWithin half 0 turns
    let tail := (takeWithin half 0 (turns.drop head.length).reverse).reverse
    let dropped := turns.length - head.length - tail.length
    if dropped = 0 then turns else head ++ marker kind dropped :: tail

/-! ### The collector -/

/-- `ExtractOptions`; `none` where an option is not given. -/
structure ExtractOptions where
  assistantTail : Option Number := none
  maxTurnChars : Option Number := none
  maxHumanChars : Option Number := none
  maxDecisionChars : Option Number := none

/-- `TurnCollector`. -/
structure TurnCollector where
  assistantTail : Number
  maxTurnChars : Number
  maxHumanChars : Number
  maxDecisionChars : Number
  humans : List Turn
  decisions : List Turn
  assistants : List Turn
  /-- "tool_use ids belonging to AskUserQuestion — their results are the human's choice". -/
  askIds : List Value

/-- `askIds.has`. -/
def hasId (ids : List Value) (v : Value) : Bool := ids.any (Value.same · v)

/-- `askIds.add`. -/
def addId (ids : List Value) (v : Value) : List Value := if hasId ids v then ids else ids ++ [v]

/-- `assistants.push`, and `assistants.shift` where the window is too long. -/
def slide (assistantTail : Number) (assistants : List Turn) (turn : Turn) : List Turn :=
  if Number.lt assistantTail (assistants.length + 1 : ℕ) then (assistants ++ [turn]).tail else
    assistants ++ [turn]

namespace TurnCollector

/-- The constructor, with the defaults. -/
def new (options : ExtractOptions) : TurnCollector where
  assistantTail := options.assistantTail.getD 6
  maxTurnChars := options.maxTurnChars.getD 1200
  maxHumanChars := options.maxHumanChars.getD 12000
  maxDecisionChars := options.maxDecisionChars.getD 8000
  humans := []
  decisions := []
  assistants := []
  askIds := []

/-- `typedByHuman`. -/
def typedByHuman (record : Value) : Bool := ((record.get "origin").get "kind").is "human"

variable (c : TurnCollector)

/-- A turn with its text clipped. -/
def turn (kind : TurnKind) (text : JsText) : Turn := ⟨kind, clip text c.maxTurnChars⟩

/-- What the human said, where it is neither blank nor typed by the tooling. -/
def addHuman (text : JsText) : TurnCollector :=
  if text ≠ [] ∧ ¬ isAutomationText text then
    { c with humans := c.humans ++ [c.turn .human text] } else c

/-- A block of an assistant's record. -/
def addAssistantBlock (block : Value) : TurnCollector :=
  if !block.isObject then c
  else
    let c :=
      if (block.get "type").is "tool_use" && (block.get "name").is "AskUserQuestion" &&
          (block.get "id").truthy then
        { c with askIds := addId c.askIds (block.get "id") }
      else c
    if (block.get "type").is "text" then
      match textOf block with
      | some text =>
        if trim text ≠ [] then
          { c with assistants := slide c.assistantTail c.assistants (c.turn .assistant text) } else
          c
      | none => c
    else c

/-- A block of a user's record: the result of a question is a decision. -/
def addResultBlock (block : Value) : TurnCollector :=
  if block.isObject && (block.get "type").is "tool_result" &&
      hasId c.askIds (block.get "tool_use_id") then
    let text := stripAskBoilerplate (resultText (block.get "content"))
    if text ≠ [] then { c with decisions := c.decisions ++ [c.turn .decision text] } else c
  else c

/-- `add`. -/
def add (record : Value) : TurnCollector :=
  if !record.isObject then c
  else if (record.get "isMeta").truthy || (record.get "isSidechain").truthy then c
  else
    match (record.get "message").get "content" with
    | .string blocks =>
      if !(record.get "type").is "user" then c
      else if !typedByHuman record then c
      else c.addHuman (stripHarnessTags blocks)
    | .array blocks =>
      if (record.get "type").is "assistant" then blocks.foldl addAssistantBlock c
      else if !(record.get "type").is "user" then c
      else
        let c := blocks.foldl addResultBlock c
        if !typedByHuman record then c else c.addHuman (humanText blocks)
    | _ => c

/-- `turns`. -/
def turns : List Turn :=
  budget c.humans c.maxHumanChars .human ++ budget c.decisions c.maxDecisionChars .decision ++
    c.assistants

end TurnCollector

/-- `extractTurnsFromRecords`. -/
def extractTurnsFromRecords (records : List Value) (options : ExtractOptions) : List Turn :=
  (records.foldl TurnCollector.add (TurnCollector.new options)).turns

/-! ### What a record adds -/

/-- The record is looked at: an object that is neither meta nor of a side chain. -/
def isRead (record : Value) : Bool :=
  record.isObject && !((record.get "isMeta").truthy || (record.get "isSidechain").truthy)

/-- The blocks of a record of a type. -/
def blocksOf (type : String) (record : Value) : List Value :=
  match (record.get "message").get "content" with
  | .array blocks => if isRead record && (record.get "type").is type then blocks else []
  | _ => []

/-- The call of `AskUserQuestion`, with an id. -/
def isQuestion (block : Value) : Bool :=
  block.isObject && (block.get "type").is "tool_use" && (block.get "name").is "AskUserQuestion" &&
    (block.get "id").truthy

/-- The ids of the questions that a record asks. -/
def asked (record : Value) : List Value :=
  ((blocksOf "assistant" record).filter isQuestion).map (·.get "id")

/-- The text that a block of the assistant's says. -/
def assistantText (block : Value) : Option JsText :=
  if block.isObject && (block.get "type").is "text" then
    match textOf block with
    | some text => if trim text ≠ [] then some text else none
    | none => none
  else none

/-- What the assistant says in a record. -/
def concluded (record : Value) : List JsText :=
  (blocksOf "assistant" record).filterMap assistantText

/-- The decision that a block holds, where the ids are those of the questions asked. -/
def decisionText (ids : List Value) (block : Value) : Option JsText :=
  if block.isObject && (block.get "type").is "tool_result" &&
      hasId ids (block.get "tool_use_id") then
    let text := stripAskBoilerplate (resultText (block.get "content"))
    if text ≠ [] then some text else none
  else none

/-- What is decided in a record. -/
def decided (ids : List Value) (record : Value) : List JsText :=
  (blocksOf "user" record).filterMap (decisionText ids)

/-- The words of a human, unless they are blank or typed by the tooling. -/
def spoken (text : JsText) : List JsText :=
  if text ≠ [] ∧ ¬ isAutomationText text then [text] else []

/-- What the human says in a record. -/
def speech (record : Value) : List JsText :=
  if isRead record && (record.get "type").is "user" && TurnCollector.typedByHuman record then
    match (record.get "message").get "content" with
    | .string blocks => spoken (stripHarnessTags blocks)
    | .array blocks => spoken (humanText blocks)
    | _ => []
  else []

/-- No value is two texts. -/
theorem Value.is_of_is {v : Value} {s t : String} (hs : v.is s = true)
    (hne : utf16 s.toList ≠ utf16 t.toList) :
    v.is t = false := by
  cases v with
  | string u =>
    simp only [Value.is, decide_eq_true_eq] at hs
    simp [Value.is, hs, hne]
  | _ => rfl

namespace TurnCollector

variable (c : TurnCollector)

/-- The collector with more in its lists. -/
def collect (humans decisions assistants : List JsText) (ids : List Value) : TurnCollector :=
  { c with
    humans := c.humans ++ humans.map (c.turn .human)
    decisions := c.decisions ++ decisions.map (c.turn .decision)
    assistants := (assistants.map (c.turn .assistant)).foldl (slide c.assistantTail) c.assistants
    askIds := ids.foldl addId c.askIds }

@[simp] theorem collect_nil : c.collect [] [] [] [] = c := by simp [collect]

theorem collect_collect (hs ds as hs' ds' as' : List JsText) (ids ids' : List Value) :
    (c.collect hs ds as ids).collect hs' ds' as' ids' =
      c.collect (hs ++ hs') (ds ++ ds') (as ++ as') (ids ++ ids') := by
  have hturn : ∀ kind, (c.collect hs ds as ids).turn kind = c.turn kind := fun _ => rfl
  simp only [collect, List.map_append, List.foldl_append, List.append_assoc]
  rfl

theorem addHuman_eq (text : JsText) : c.addHuman text = c.collect (spoken text) [] [] [] := by
  by_cases htext : text ≠ [] ∧ ¬ isAutomationText text
  · rw [addHuman, spoken, if_pos htext, if_pos htext]
    simp [collect]
  · rw [addHuman, spoken, if_neg htext, if_neg htext, collect_nil]

theorem addResultBlock_eq (block : Value) :
    c.addResultBlock block = c.collect [] (decisionText c.askIds block).toList [] [] := by
  by_cases hblock : (block.isObject && (block.get "type").is "tool_result" &&
    hasId c.askIds (block.get "tool_use_id")) = true
  · by_cases htext : stripAskBoilerplate (resultText (block.get "content")) = []
    · simp [addResultBlock, decisionText, hblock, htext]
    · simp [addResultBlock, decisionText, hblock, htext, collect]
  · simp [addResultBlock, decisionText, hblock]

theorem foldl_addResultBlock : ∀ (blocks : List Value) (c : TurnCollector),
    blocks.foldl addResultBlock c = c.collect [] (blocks.filterMap (decisionText c.askIds)) [] []
  | [], c => by simp
  | block :: blocks, c => by
    rw [List.foldl_cons, foldl_addResultBlock blocks, addResultBlock_eq, collect_collect]
    have hids : (c.collect [] (decisionText c.askIds block).toList [] []).askIds = c.askIds := rfl
    rw [hids]
    cases htext : decisionText c.askIds block <;> simp [htext]

/-- A text of the assistant's slides into the window. -/
theorem collect_assistantText (block : Value) : c.collect [] [] (assistantText block).toList [] =
    if block.isObject && (block.get "type").is "text" then
      match textOf block with
      | some text =>
        if trim text ≠ [] then
          { c with assistants := slide c.assistantTail c.assistants (c.turn .assistant text) } else
          c
      | none => c
    else c := by
  by_cases hblock : (block.isObject && (block.get "type").is "text") = true
  · rw [assistantText, if_pos hblock, if_pos hblock]
    cases textOf block with
    | none => simp
    | some text =>
      by_cases hblank : trim text = []
      · simp [hblank]
      · simp [hblank, collect]
  · rw [assistantText, if_neg hblock, if_neg hblock]
    simp

theorem addAssistantBlock_eq (block : Value) : c.addAssistantBlock block =
    c.collect [] [] (assistantText block).toList
        (if isQuestion block then [block.get "id"] else []) := by
  have hsplit : c.collect [] [] (assistantText block).toList
      (if isQuestion block then [block.get "id"] else []) =
      (c.collect [] [] [] (if isQuestion block then [block.get "id"] else [])).collect [] []
        (assistantText block).toList [] := by
    simp [collect_collect]
  rw [hsplit, collect_assistantText]
  by_cases hobject : block.isObject = true
  · have hasks : c.collect [] [] [] (if isQuestion block then [block.get "id"] else []) =
        if (block.get "type").is "tool_use" && (block.get "name").is "AskUserQuestion" &&
            (block.get "id").truthy then
          { c with askIds := addId c.askIds (block.get "id") }
        else c := by
      rw [isQuestion, hobject, Bool.true_and]
      split
      · simp [collect]
      · simp
    rw [addAssistantBlock, hasks, hobject]
    simp
  · simp [addAssistantBlock, isQuestion, hobject]

theorem foldl_addAssistantBlock : ∀ (blocks : List Value) (c : TurnCollector),
    blocks.foldl addAssistantBlock c =
      c.collect [] [] (blocks.filterMap assistantText) ((blocks.filter isQuestion).map (·.get "id"))
  | [], c => by simp
  | block :: blocks, c => by
    rw [List.foldl_cons, foldl_addAssistantBlock blocks, addAssistantBlock_eq, collect_collect]
    by_cases hquestion : isQuestion block =
      true <;> cases htext : assistantText block <;> simp [htext, hquestion]

/-- A record that is not looked at adds nothing. -/
theorem add_of_not_isRead {record : Value} (h : isRead record = false) : c.add record = c := by
  by_cases hobject : record.isObject = true
  · have hskip : ((record.get "isMeta").truthy || (record.get "isSidechain").truthy) = true := by
      rw [isRead, hobject, Bool.true_and, Bool.not_eq_false'] at h
      exact h
    simp only [add, hobject, Bool.not_true, Bool.false_eq_true, if_false]
    rw [if_pos hskip]
  · simp [add, hobject]

theorem add_of_isRead {record : Value} (h : isRead record = true) : c.add record =
    match (record.get "message").get "content" with
    | .string blocks =>
      if !(record.get "type").is "user" then c
      else if !typedByHuman record then c
      else c.addHuman (stripHarnessTags blocks)
    | .array blocks =>
      if (record.get "type").is "assistant" then blocks.foldl addAssistantBlock c
      else if !(record.get "type").is "user" then c
      else
        if !typedByHuman record then blocks.foldl addResultBlock c
        else (blocks.foldl addResultBlock c).addHuman (humanText blocks)
    | _ => c := by
  simp only [isRead, Bool.and_eq_true, Bool.not_eq_true'] at h
  simp only [add, h.1, h.2, Bool.not_true, Bool.false_eq_true, if_false]

/-- **What a record adds.** -/
theorem add_eq (record : Value) :
    c.add record = c.collect (speech record) (decided c.askIds record) (concluded record)
        (asked record) := by
  by_cases hread : isRead record = true
  · rw [add_of_isRead c hread]
    cases hcontent : (record.get "message").get "content" with
    | string blocks =>
      by_cases huser : (record.get "type").is "user" =
        true <;> by_cases hhuman : typedByHuman record = true <;>
        simp [speech, decided, concluded, asked, blocksOf, hread, hcontent, huser, hhuman,
          addHuman_eq]
    | array blocks =>
      by_cases hassistant : (record.get "type").is "assistant" = true
      · have huser : (record.get "type").is "user" = false := Value.is_of_is hassistant (by decide)
        simp [speech, decided, concluded, asked, blocksOf, hread, hcontent, hassistant, huser,
          foldl_addAssistantBlock]
      · by_cases huser : (record.get "type").is "user" =
          true <;> by_cases hhuman : typedByHuman record = true <;>
          simp [speech, decided, concluded, asked, blocksOf, hread, hcontent, hassistant, huser,
            hhuman, addHuman_eq, foldl_addResultBlock, collect_collect]
    | _ => simp [speech, decided, concluded, asked, blocksOf, hcontent]
  · rw [Bool.not_eq_true] at hread
    rw [add_of_not_isRead c hread]
    have hblocks : ∀ type, blocksOf type record = [] := by
      intro type
      unfold blocksOf
      split <;> simp [hread]
    simp [speech, decided, concluded, asked, hblocks, hread]

end TurnCollector

/-! ### Records from their parts -/

/-- An object, from its properties in order. -/
def members (ms : List (String × Value)) : List (JsText × Value) :=
  ms.map fun m => (utf16 m.1.toList, m.2)

/-- A text. -/
def str (t : String) : Value := .string (utf16 t.toList)

/-- A record of a type, with the content of its message. -/
def record (type : String) (more : List (String × Value)) (content : Value) : Value :=
  .object (members (("type", str type) :: more) ++
    [(utf16 "message".toList, .object [(utf16 "content".toList, content)])])

end OracleSkills.Capture
