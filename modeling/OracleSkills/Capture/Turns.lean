import OracleSkills.Python.Text
import OracleSkills.Js.Number

/-!
# The turns of a session

What `session_capture.ts` makes of a conversation once its turns have been extracted: whether it is
worth a memory (`captureDecision`), its identity (`contentHash`), and the document that is filed
(`formatCapture`). A JavaScript string is a list of UTF-16 code units, which `length` counts and
`slice` cuts between.
-/

namespace OracleSkills.Capture

open Python

/-! ### JavaScript strings -/

/-- A JavaScript string: its code units. -/
abbrev JsText := List UInt16

/-- The code units of a character. -/
def units (c : Char) : List UInt16 :=
  if c.toNat < 0x10000 then [c.toNat.toUInt16]
  else [(0xD800 + (c.toNat - 0x10000) / 0x400).toUInt16,
    (0xDC00 + (c.toNat - 0x10000) % 0x400).toUInt16]

/-- The code units of a text. -/
def utf16 (t : Text) : JsText := t.flatMap units

/-- White space and line ends, as `trim` takes them off. -/
def isJsSpace (u : UInt16) : Bool :=
  [0x09, 0x0A, 0x0B, 0x0C, 0x0D, 0x20, 0xA0, 0x1680, 0x2000, 0x2001, 0x2002, 0x2003, 0x2004, 0x2005,
    0x2006, 0x2007,
    0x2008, 0x2009, 0x200A, 0x2028, 0x2029, 0x202F, 0x205F, 0x3000, 0xFEFF].contains u

/-- `text.trim()`. -/
def trim (t : JsText) : JsText := (t.dropWhile isJsSpace).rdropWhile isJsSpace

/-- `clip`: at most `max` code units, the last one an ellipsis if the text is longer. -/
def clip (text : JsText) (max : Js.Number) : JsText :=
  let flat := trim text
  if Js.Number.lt max flat.length then Js.slice flat max.pred ++ utf16 "…".toList else flat

/-- `xs.join(sep)`. -/
def joinWith (sep : JsText) (xs : List JsText) : JsText := List.intercalate sep xs

/-! ### Turns -/

/-- `TurnKind`. -/
inductive TurnKind where
  | human
  | decision
  | assistant
deriving DecidableEq

/-- The text of a kind. -/
def TurnKind.text : TurnKind → Text
  | .human => "human".toList
  | .decision => "decision".toList
  | .assistant => "assistant".toList

/-- `Turn`. -/
structure Turn where
  kind : TurnKind
  text : JsText
deriving DecidableEq

/-- `turns.filter((t) => t.kind === kind)`. -/
def ofKind (kind : TurnKind) (turns : List Turn) : List Turn := turns.filter (·.kind = kind)

/-- `MIN_HUMAN_CHARS`: "minimum human text before a session is worth a memory entry". -/
def minHumanChars : ℕ := 8

/-- `captureDecision`: the reason for which the turns are not captured, if there is one. -/
def captureDecision (turns : List Turn) : Option Text :=
  let humans := ofKind .human turns
  if humans.length = 0 then some "no-human-turn".toList
  else if humans.foldl (fun n t => n + t.text.length) 0 < minHumanChars then some "too-short".toList
  else none

/-- What `contentHash` hashes: "the TURNS only". -/
def canonical (turns : List Turn) : JsText :=
  joinWith (utf16 ['\n']) (turns.map fun t => utf16 t.kind.text ++ utf16 [':'] ++ t.text)

/-- `contentHash`, where `sha256` gives the hexadecimal digest of a text's UTF-8 encoding. -/
def contentHash (sha256 : JsText → Text) (turns : List Turn) : Text :=
  (sha256 (canonical turns)).take 32

/-! ### The document -/

/-- `FormatOptions`; the date as `toISOString` gives it. -/
structure FormatOptions where
  sessionId : Text
  cwd : Text
  transcriptPath : Text
  capturedAt : Text
  turns : List Turn
deriving DecidableEq

/-- `cwd.split('/').filter(Boolean).pop() ?? 'session'`. -/
def lastSegment (cwd : Text) : Text :=
  ((cwd.splitOn '/').filter (· ≠ [])).getLast?.getD "session".toList

/-- A section of the document, if it has any turns. -/
def sectionLines (title : Text) (turns : List Turn) : List JsText :=
  if turns.length = 0 then [] else
    utf16 title :: turns.map (fun t => utf16 "- ".toList ++ t.text) ++ [[]]

/-- `formatCapture`. -/
def formatCapture (o : FormatOptions) : JsText :=
  let humans := ofKind .human o.turns
  let headline := (humans.head?.map (·.text)).getD (utf16 "(no human turn)".toList)
  joinWith (utf16 ['\n'])
    ([utf16 "Session ".toList ++ utf16 (o.capturedAt.take 10) ++ utf16 " · ".toList ++
        utf16 (lastSegment o.cwd) ++
        utf16 " · ".toList ++ clip headline 90, []] ++
      sectionLines "## Asked".toList humans ++
      sectionLines "## Decisions".toList (ofKind .decision o.turns) ++
      sectionLines "## Concluded".toList (ofKind .assistant o.turns) ++
      [utf16 "---".toList, utf16 ("Session: ".toList ++ o.sessionId),
        utf16 ("Transcript: ".toList ++ o.transcriptPath),
        utf16 ("Captured: ".toList ++ o.capturedAt ++ " by the SessionEnd capture hook.".toList)])

end OracleSkills.Capture
