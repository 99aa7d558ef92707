import OracleSkills.Capture.Records

/-!
# The extractor does not see the tools

Two transcripts are `Alike` if they differ only in what the extractor is to be blind to: the
contents of tool results that answer no question of the assistant's, thinking, the inputs of tool
calls, records that are meta or of a side chain or no objects, and what is typed into a pane by
anyone but a human. **`extract_alike`** says that alike transcripts have the same turns, whatever
the options.

The collector learns ids on the way, so that what a tool result is depends on the records before it:
`Alike` carries them along, and the collectors of both runs stay equal, with no id that the records
have not introduced (`AskedBefore`).
-/

namespace OracleSkills.Capture

open Js

/-! ### What may differ -/

/-- An earlier record that is looked at has a call of `AskUserQuestion` with this id. -/
def Introduced (earlier : List Value) (v : Value) : Prop :=
  ∃ record ∈ earlier, ∃ id ∈ asked record, Value.same id v = true

/-- Two objects with the same properties but for one. -/
structure SameBut (key : String) (a b : Value) : Prop where
  left : a.isObject = true
  right : b.isObject = true
  prop : ∀ other, other ≠ utf16 key.toList → a.prop other = b.prop other

/-- Two blocks that differ in the input of a tool call, or in the content of a result that answers
no question. -/
inductive BlockAlike (earlier : List Value) : Value → Value → Prop where
  | same (a : Value) : BlockAlike earlier a a
  | input {a b : Value} : (a.get "type").is "tool_use" = true → SameBut "input" a b →
    BlockAlike earlier a b
  | result {a b : Value} : (a.get "type").is "tool_result" = true →
    ¬ Introduced earlier (a.get "tool_use_id") →
    SameBut "content" a b → BlockAlike earlier a b

/-- A user record that no human typed. -/
def Untyped (record : Value) : Prop :=
  (record.get "type").is "user" = true ∧ TurnCollector.typedByHuman record = false

/-- A block that may change, come or go: thinking, and the text of a record that no human typed. -/
def Unseen (record block : Value) : Prop :=
  (block.get "type").is "thinking" = true ∨ Untyped record ∧ (block.get "type").is "text" = true

/-- The blocks of two records. -/
inductive BlocksAlike (earlier : List Value) (record : Value) : List Value → List Value → Prop where
  | nil : BlocksAlike earlier record [] []
  | cons {a b : Value} {as bs : List Value} : BlockAlike earlier a b →
    BlocksAlike earlier record as bs →
    BlocksAlike earlier record (a :: as) (b :: bs)
  | left {a : Value} {as bs : List Value} : Unseen record a → BlocksAlike earlier record as bs →
    BlocksAlike earlier record (a :: as) bs
  | right {b : Value} {as bs : List Value} : Unseen record b → BlocksAlike earlier record as bs →
    BlocksAlike earlier record as (b :: bs)

/-- The contents of two records, of either shape. -/
inductive ContentAlike (earlier : List Value) (record : Value) : Value → Value → Prop where
  | same (a : Value) : ContentAlike earlier record a a
  | text (s t : JsText) : Untyped record → ContentAlike earlier record (.string s) (.string t)
  | blocks {as bs : List Value} : BlocksAlike earlier record as bs →
    ContentAlike earlier record (.array as) (.array bs)

/-- Two records that differ in the content of their message alone, and there as far as they may. -/
structure RecordAlike (earlier : List Value) (r s : Value) : Prop where
  record : SameBut "message" r s
  content : ContentAlike earlier r ((r.get "message").get "content")
    ((s.get "message").get "content")

/-- A record that is no object, or meta, or of a side chain. -/
def Ignored (record : Value) : Prop := isRead record = false ∨ ∃ items, record = .array items

/-- Two transcripts that differ in what the extractor is blind to, behind the records before
them. -/
inductive Alike : List Value → List Value → List Value → Prop where
  | nil (earlier : List Value) : Alike earlier [] []
  | cons {earlier rs ss : List Value} {r s : Value} : RecordAlike earlier r s →
    Alike (earlier ++ [r]) rs ss →
    Alike earlier (r :: rs) (s :: ss)
  | left {earlier rs ss : List Value} {r : Value} : Ignored r → Alike earlier rs ss →
    Alike earlier (r :: rs) ss
  | right {earlier rs ss : List Value} {s : Value} : Ignored s → Alike earlier rs ss →
    Alike earlier rs (s :: ss)

/-! ### What stays the same -/

variable {earlier : List Value} {r s a b : Value} {as bs ids : List Value}

/-- The ids that a collector has learned have been introduced. -/
def AskedBefore (earlier ids : List Value) : Prop := ∀ v, hasId ids v = true → Introduced earlier v

theorem hasId_foldl {v : Value} :
    ∀ (new : List Value) {ids : List Value}, hasId (new.foldl addId ids) v = true →
    hasId ids v = true ∨ ∃ id ∈ new, Value.same id v = true
  | [], _, h => .inl h
  | id :: new, ids, h => by
    rcases hasId_foldl new h with hadd | ⟨other, hother, hsame⟩
    · unfold addId at hadd
      split at hadd
      · exact .inl hadd
      · simp only [hasId, List.any_append, List.any_cons, List.any_nil, Bool.or_false,
          Bool.or_eq_true] at hadd ⊢
        exact hadd.imp_right fun hsame => ⟨id, List.mem_cons_self .., hsame⟩
    · exact .inr ⟨other, List.mem_cons_of_mem _ hother, hsame⟩

theorem AskedBefore.add (h : AskedBefore earlier ids) :
    AskedBefore (earlier ++ [r]) ((asked r).foldl addId ids) := by
  intro v hv
  rcases hasId_foldl _ hv with hold | ⟨id, hid, hsame⟩
  · obtain ⟨record, hrecord, hasked⟩ := h v hold
    exact ⟨record, List.mem_append_left _ hrecord, hasked⟩
  · exact ⟨r, by simp, id, hid, hsame⟩

/-- What is read off the blocks one by one. -/
theorem BlocksAlike.filterMap_eq {β : Type} {f : Value → Option β} (h : BlocksAlike earlier r as bs)
    (halike : ∀ a b, BlockAlike earlier a b → f a = f b) (hunseen : ∀ a, Unseen r a → f a = none) :
    as.filterMap f = bs.filterMap f := by
  induction h with
  | nil => rfl
  | cons hblock _ ih => simp only [List.filterMap_cons, halike _ _ hblock, ih]
  | left hskip _ ih => simp only [List.filterMap_cons, hunseen _ hskip, ih]
  | right hskip _ ih => simp only [List.filterMap_cons, hunseen _ hskip, ih]

theorem SameBut.get {key : String} (h : SameBut key a b) (other : String)
    (hne : utf16 other.toList ≠ utf16 key.toList) : a.get other = b.get other := h.prop _ hne

/-! ### Blocks -/

section Blocks

variable {β : Type} {f : Value → Option β} {type : String}

/-- The function gives something for blocks of one type alone. -/
def Reads (type : String) (f : Value → Option β) : Prop :=
  ∀ a, (a.get "type").is type = false → f a = none

/-- The id that a block introduces. -/
def questionId (block : Value) : Option Value :=
  if isQuestion block then some (block.get "id") else none

/-- The text of a block of a human's. -/
def spokenText (block : Value) : Option JsText :=
  if block.isObject && (block.get "type").is "text" then textOf block else none

theorem reads_assistantText : Reads "text" assistantText := fun a h => by simp [assistantText, h]

theorem reads_questionId :
    Reads "tool_use" questionId := fun a h => by simp [questionId, isQuestion, h]

theorem reads_decisionText (ids : List Value) :
    Reads "tool_result" (decisionText ids) := fun a h => by simp [decisionText, h]

theorem reads_spokenText : Reads "text" spokenText := fun a h => by simp [spokenText, h]

theorem Reads.of_is (hf : Reads type f) {t : String} (ht : (a.get "type").is t = true)
    (hne : utf16 t.toList ≠ utf16 type.toList) : f a = none := hf a (Value.is_of_is ht hne)

/-- Nothing is read of two blocks of another type. -/
theorem SameBut.unread {key t : String} (h : SameBut key a b) (hf : Reads type f)
    (ht : (a.get "type").is t = true)
    (hkey : utf16 "type".toList ≠ utf16 key.toList) (hne : utf16 t.toList ≠ utf16 type.toList) :
    f a = f b := by
  have hb : (b.get "type").is t = true := by rw [← h.get "type" hkey]; exact ht
  rw [hf.of_is ht hne, hf.of_is hb hne]

/-- What is read of texts alone is the same in alike blocks. -/
theorem BlockAlike.text_eq (h : BlockAlike earlier a b) (hf : Reads "text" f) : f a = f b := by
  cases h with
  | same => rfl
  | input htype hsame => exact hsame.unread hf htype (by decide) (by decide)
  | result htype _ hsame => exact hsame.unread hf htype (by decide) (by decide)

theorem questionId_alike (h : BlockAlike earlier a b) : questionId a = questionId b := by
  cases h with
  | same => rfl
  | input _ hsame =>
    have hid := hsame.get "id" (by decide)
    have hquestion : isQuestion a = isQuestion b := by
      simp only [isQuestion, hsame.left, hsame.right, hsame.get "type" (by decide),
        hsame.get "name" (by decide), hid]
    rw [questionId, questionId, hquestion, hid]
  | result htype _ hsame => exact hsame.unread reads_questionId htype (by decide) (by decide)

/-- A result whose content differs is of no question that has been asked. -/
theorem decisionText_alike (hids : AskedBefore earlier ids) (h : BlockAlike earlier a b) :
    decisionText ids a = decisionText ids b := by
  cases h with
  | same => rfl
  | input htype hsame => exact hsame.unread (reads_decisionText ids) htype (by decide) (by decide)
  | result _ hunasked hsame =>
    have hid : hasId ids (a.get "tool_use_id") = false := by
      rw [← Bool.not_eq_true]
      exact fun hhas => hunasked (hids _ hhas)
    simp [decisionText, hid, ← hsame.get "tool_use_id" (by decide)]

end Blocks

/-! ### Records -/

namespace RecordAlike

variable (h : RecordAlike earlier r s)
include h

theorem isRead_eq : isRead r = isRead s := by
  simp only [isRead, h.record.left, h.record.right, h.record.get "isMeta" (by decide),
    h.record.get "isSidechain" (by decide)]

theorem type_eq : r.get "type" = s.get "type" := h.record.get "type" (by decide)

theorem typedByHuman_eq : TurnCollector.typedByHuman r = TurnCollector.typedByHuman s := by
  simp only [TurnCollector.typedByHuman, h.record.get "origin" (by decide)]

/-- What is read off the blocks of a record of a type. -/
theorem filterMap_blocksOf {β : Type} {type : String} {f : Value → Option β}
    (halike : ∀ a b, BlockAlike earlier a b → f a = f b)
    (hunseen : (r.get "type").is type = true → ∀ a, Unseen r a → f a = none) :
    (blocksOf type r).filterMap f = (blocksOf type s).filterMap f := by
  have hcontent := h.content
  unfold blocksOf
  rw [← h.isRead_eq, ← h.type_eq]
  generalize (r.get "message").get "content" = x at hcontent ⊢
  generalize (s.get "message").get "content" = y at hcontent ⊢
  cases hcontent with
  | same => rfl
  | text => rfl
  | blocks hblocks =>
    by_cases htype : (isRead r && (r.get "type").is type) = true
    · simp only [htype, if_true]
      exact hblocks.filterMap_eq halike (hunseen (Bool.and_eq_true _ _ ▸ htype).2)
    · simp [htype]

theorem asked_eq : asked r = asked s := by
  have hasked : ∀ record, asked record = (blocksOf "assistant" record).filterMap questionId := by
    intro record
    rw [asked, ← List.filterMap_eq_map, List.filterMap_filter]
    rfl
  rw [hasked, hasked]
  refine h.filterMap_blocksOf (fun a b => questionId_alike) fun _ a hunseen => ?_
  rcases hunseen with htype | ⟨-, htype⟩
  · exact reads_questionId.of_is htype (by decide)
  · exact reads_questionId.of_is htype (by decide)

theorem concluded_eq : concluded r = concluded s := by
  refine h.filterMap_blocksOf (fun a b hblock => hblock.text_eq reads_assistantText)
    fun hassistant a hunseen => ?_
  rcases hunseen with htype | ⟨huntyped, -⟩
  · exact reads_assistantText.of_is htype (by decide)
  · have huser : (r.get "type").is "user" = false := Value.is_of_is hassistant (by decide)
    exact absurd huntyped.1 (by simp [huser])

theorem decided_eq (hids : AskedBefore earlier ids) : decided ids r = decided ids s := by
  refine h.filterMap_blocksOf (fun a b => decisionText_alike hids) fun _ a hunseen => ?_
  rcases hunseen with htype | ⟨-, htype⟩
  · exact (reads_decisionText ids).of_is htype (by decide)
  · exact (reads_decisionText ids).of_is htype (by decide)

/-- Of a record that a human typed nothing that is read may differ. -/
theorem speech_eq : speech r = speech s := by
  unfold speech
  rw [← h.isRead_eq, ← h.type_eq, ← h.typedByHuman_eq]
  by_cases htyped : (isRead r && (r.get "type").is "user" && TurnCollector.typedByHuman r) = true
  · have hhuman : TurnCollector.typedByHuman r = true := (Bool.and_eq_true _ _ ▸ htyped).2
    have hnot : ¬ Untyped r := fun huntyped => by simp [huntyped.2] at hhuman
    have hcontent := h.content
    simp only [htyped, if_true]
    generalize (r.get "message").get "content" = x at hcontent ⊢
    generalize (s.get "message").get "content" = y at hcontent ⊢
    cases hcontent with
    | same => rfl
    | text _ _ huntyped => exact absurd huntyped hnot
    | @blocks as bs hblocks =>
      have hwords : ∀ blocks : List Value, humanText blocks =
          stripHarnessTags (joinWith (utf16 ['\n']) (blocks.filterMap spokenText)) := by
        intro blocks
        rw [humanText, List.filterMap_filter]
        rfl
      have hsame : as.filterMap spokenText = bs.filterMap spokenText := by
        refine hblocks.filterMap_eq (fun a b hblock => hblock.text_eq reads_spokenText)
          fun a hunseen => ?_
        rcases hunseen with htype | ⟨huntyped, -⟩
        · exact reads_spokenText.of_is htype (by decide)
        · exact absurd huntyped hnot
      simp only [hwords, hsame]
  · simp [htyped]

end RecordAlike

/-! ### Transcripts -/

theorem add_of_ignored (h : Ignored r) (c : TurnCollector) : c.add r = c := by
  rcases h with hread | ⟨items, rfl⟩
  · exact TurnCollector.add_of_not_isRead c hread
  · simp [TurnCollector.add, Value.get, Value.prop]

/-- Alike records leave a collector in the same state. -/
theorem RecordAlike.add_eq (h : RecordAlike earlier r s) {c : TurnCollector}
    (hc : AskedBefore earlier c.askIds) :
    c.add r = c.add s := by
  rw [TurnCollector.add_eq, TurnCollector.add_eq, h.speech_eq, h.decided_eq hc,
    h.concluded_eq, h.asked_eq]

theorem foldl_add_alike {rs ss : List Value} (h : Alike earlier rs ss) :
    ∀ {c : TurnCollector}, AskedBefore earlier c.askIds →
    rs.foldl TurnCollector.add c = ss.foldl TurnCollector.add c := by
  induction h with
  | nil => exact fun _ => rfl
  | cons hrecord _ ih =>
    intro c hc
    rw [List.foldl_cons, List.foldl_cons, ← hrecord.add_eq hc]
    refine ih ?_
    rw [TurnCollector.add_eq]
    exact hc.add
  | left hskip _ ih =>
    intro c hc
    rw [List.foldl_cons, add_of_ignored hskip]
    exact ih hc
  | right hskip _ ih =>
    intro c hc
    rw [List.foldl_cons, add_of_ignored hskip]
    exact ih hc

/-- **The extractor is blind to tool traffic.** -/
theorem extract_alike {rs ss : List Value} (h : Alike [] rs ss) (options : ExtractOptions) :
    extractTurnsFromRecords rs options = extractTurnsFromRecords ss options := by
  have hnothing : AskedBefore [] (TurnCollector.new options).askIds := by
    intro v hv
    simp [TurnCollector.new, hasId] at hv
  rw [extractTurnsFromRecords, extractTurnsFromRecords, foldl_add_alike h hnothing]

/-! ### Two transcripts -/

/-- A call of `Bash`, its result, and what the human says then. -/
def sampleRecords (command output : Value) : List Value :=
  [record "assistant" []
      (.array [.object
      (members [("type", str "tool_use"), ("id", str "tu_1"), ("name", str "Bash")] ++
      [(utf16 "input".toList, command)])]),
    record "user" []
      (.array [.object (members [("type", str "tool_result"), ("tool_use_id", str "tu_1")] ++
      [(utf16 "content".toList, output)])]),
    record "user" [("origin", .object (members [("kind", str "human")]))]
      (str "Write it yourself.")]

/-- One property of an object is changed. -/
theorem SameBut.object (key : String) (x y : Value) : ∀ ms : List (JsText × Value),
    SameBut key (.object (ms ++ [(utf16 key.toList, x)])) (.object (ms ++ [(utf16 key.toList, y)]))
  | [] => ⟨rfl, rfl, fun other hne => by simp [Value.prop, Python.Dict.get?, Ne.symm hne]⟩
  | (k, v) :: ms => by
    refine ⟨rfl, rfl, fun other hne => ?_⟩
    have ih := (SameBut.object key x y ms).prop other hne
    simp only [Value.prop, List.cons_append, Python.Dict.get?] at ih ⊢
    split
    · rfl
    · exact ih

theorem sample_alike (command output command' output' : Value) :
    Alike [] (sampleRecords command output) (.null :: sampleRecords command' output') := by
  have hmessage : ∀ type more (c d : Value),
      SameBut "message" (record type more c) (record type more d) := fun _ _ _ _ =>
    SameBut.object "message" _ _ _
  refine .right (.inl rfl)
    (.cons ⟨hmessage _ _ _ _, ?_⟩
    (.cons ⟨hmessage _ _ _ _, ?_⟩ (.cons ⟨hmessage _ _ _ _, ?_⟩ (.nil _))))
  · exact .blocks (.cons (.input rfl (SameBut.object "input" _ _ _)) .nil)
  · refine .blocks (.cons (.result rfl ?_ (SameBut.object "content" _ _ _)) .nil)
    rintro ⟨r, hr, id, hid, -⟩
    obtain rfl := List.mem_singleton.mp hr
    exact (List.not_mem_nil (a := id)) hid
  · exact .same _

/-- What a tool is asked and what it answers changes no turn. -/
theorem extract_alike_sample :
    extractTurnsFromRecords (sampleRecords (str "crontab -l") (str "0 18 * * *")) {} =
    extractTurnsFromRecords (.null :: sampleRecords (str "ls") (str "a b")) {} :=
  extract_alike (sample_alike _ _ _ _) {}

end OracleSkills.Capture
