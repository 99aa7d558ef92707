import OracleSkills.Capture.Records

/-!
# Both ends of a session

"Keeps a run of turns inside a character budget by dropping the MIDDLE: the opening ask and the
latest state of a marathon session are both worth more than what happened in hour three."
**`turns_bothEnds`** says what is extracted of any records, where a single turn fits into half of a
budget: what the human said and what was decided, whole or with one marker between its two ends, and
the last of what the assistant said.

All that was said is read off the records without the collector (`humanTurns`, `decisionTurns`,
`assistantTurns`). The budget takes its turns from the front and, of what is left, from behind; that
the two never meet is a matter of the characters, since each takes half of the budget at most.
-/

namespace OracleSkills.Capture

open Js

/-! ### All turns -/

/-- What is decided in the records, where the ids are those of the questions asked before. -/
def decidedFrom : List Value → List Value → List JsText
  | _, [] => []
  | ids, record :: records =>
    decided ids record ++ decidedFrom ((asked record).foldl addId ids) records

section Turns

variable (options : ExtractOptions) (records : List Value)

/-- All that the human says. -/
def humanTurns : List Turn := (records.flatMap speech).map ((TurnCollector.new options).turn .human)

/-- All that is decided. -/
def decisionTurns : List Turn :=
  (decidedFrom [] records).map ((TurnCollector.new options).turn .decision)

/-- All that the assistant says. -/
def assistantTurns : List Turn :=
  (records.flatMap concluded).map ((TurnCollector.new options).turn .assistant)

end Turns

/-- **What a run of records adds.** -/
theorem foldl_add :
    ∀ (records : List Value) (c : TurnCollector), records.foldl TurnCollector.add c =
    c.collect (records.flatMap speech) (decidedFrom c.askIds records) (records.flatMap concluded)
      (records.flatMap asked)
  | [], c => by simp [decidedFrom]
  | record :: records, c => by
    rw [List.foldl_cons, foldl_add records, TurnCollector.add_eq, TurnCollector.collect_collect]
    rfl

/-! ### The window -/

/-- The window moves on by one turn. -/
theorem slide_lastOf {n : Number} (h : Number.le (0 : ℕ) n = true) (turns : List Turn)
    (turn : Turn) :
    slide n (lastOf n turns) turn = lastOf n (turns ++ [turn]) := by
  rcases Number.le_cases h with rfl | ⟨q, rfl, hq⟩
  · simp [slide, lastOf, Number.lt]
  · have hlt : ∀ m : ℕ, Number.lt (.real q) m = true ↔ ⌊q⌋₊ < m := by
      intro m
      rw [Number.natCast_eq, Number.lt_real, Nat.floor_lt (by simpa using hq)]
    simp only [slide, lastOf, hlt, List.length_drop, List.length_append, List.length_singleton]
    by_cases hfull : ⌊q⌋₊ ≤ turns.length
    · rw [if_pos (by omega), ← List.drop_append_of_le_length (by omega), List.tail_drop]
      congr 1
      omega
    · rw [if_neg (by omega),
        show turns.length - ⌊q⌋₊ = 0 by omega, show turns.length + 1 - ⌊q⌋₊ = 0 by omega]
      simp

theorem foldl_slide {n : Number} (h : Number.le (0 : ℕ) n = true) (turns : List Turn) :
    turns.foldl (slide n) [] = lastOf n turns := by
  induction turns using List.reverseRecOn with
  | nil =>
    rcases Number.le_cases h with rfl | ⟨q, rfl, -⟩ <;> simp [lastOf]
  | append_singleton turns turn ih => rw [List.foldl_concat, ih, slide_lastOf h]

/-! ### The length of a turn -/

/-- A text is clipped to the length that is asked for. -/
theorem length_clip_le {max : Number} (h : Number.le (1 : ℕ) max = true) (text : JsText) :
    Number.le (clip text max).length max = true := by
  unfold clip
  by_cases hlong : Number.lt max (trim text).length = true
  · simp only [hlong, if_true]
    rcases Number.le_cases h with rfl | ⟨q, rfl, hq⟩
    · exact Number.le_posInf _
    · have hcut := length_slice_le (trim text) (show 0 ≤ q - 1 by push_cast at hq; linarith)
      have hdots : (utf16 "…".toList).length = 1 := by decide
      rw [Number.natCast_eq, Number.le_real, List.length_append, hdots]
      push_cast
      have hpred : Number.pred (.real q) = .real (q - 1) := rfl
      rw [hpred]
      linarith
  · rw [if_neg hlong]
    exact (Number.lt_eq_false_iff h).mp (by simpa using hlong)

/-! ### The budget -/

section Budget

variable {half maxChars : Number} {turns : List Turn} {kind : TurnKind}

@[simp] theorem totalChars_cons (turn : Turn) (turns : List Turn) :
    totalChars (turn :: turns) = turn.text.length + totalChars turns := by simp [totalChars]

@[simp] theorem totalChars_append (xs ys : List Turn) :
    totalChars (xs ++ ys) = totalChars xs + totalChars ys := by
  simp [totalChars]

@[simp] theorem totalChars_reverse (turns : List Turn) :
    totalChars turns.reverse = totalChars turns := by
  simp [totalChars]

/-- What fits is a prefix. -/
theorem takeWithin_prefix (half : Number) :
    ∀ (turns : List Turn) (chars : ℕ), takeWithin half chars turns <+: turns
  | [], _ => List.nil_prefix
  | turn :: turns, chars => by
    unfold takeWithin
    split
    · exact List.nil_prefix
    · exact List.cons_prefix_cons.mpr ⟨rfl, takeWithin_prefix half turns _⟩

/-- What fits is within the half, with what is taken of it before. -/
theorem totalChars_takeWithin : ∀ (turns : List Turn) {chars : ℕ}, Number.le chars half = true →
    Number.le (chars + totalChars (takeWithin half chars turns) : ℕ) half = true
  | [], chars, h => by simpa [takeWithin, totalChars] using h
  | turn :: turns, chars, h => by
    unfold takeWithin
    split
    · simpa [totalChars] using h
    · rename_i hfits
      have hnext := (Number.lt_eq_false_iff h).mp (by simpa using hfits)
      rw [totalChars_cons, ← Nat.add_assoc]
      exact totalChars_takeWithin turns hnext

/-- Of some turns that fit each alone, some are taken. -/
theorem takeWithin_ne_nil (hne : turns ≠ [])
    (hfit : ∀ turn ∈ turns, Number.le turn.text.length half = true) :
    takeWithin half 0 turns ≠ [] := by
  obtain ⟨turn, rest, rfl⟩ := List.exists_cons_of_ne_nil hne
  have hturn := hfit turn (List.mem_cons_self ..)
  have hnot : Number.lt half turn.text.length = false := (Number.lt_eq_false_iff hturn).mpr hturn
  simp [takeWithin, hnot]

/-- Everything, or both ends of it with a marker that counts what is missing between them. -/
inductive BothEnds (kind : TurnKind) (maxChars : Number) (all : List Turn) : List Turn → Prop where
  | whole : Number.le (totalChars all) maxChars = true → BothEnds kind maxChars all all
  | ends {front missing back : List Turn} : all = front ++ missing ++ back → front ≠ [] →
    missing ≠ [] → back ≠ [] →
    Number.le (totalChars (front ++ back)) maxChars = true →
    BothEnds kind maxChars all (front ++ marker kind missing.length :: back)

/-- **A budget keeps both ends**, where each turn fits into half of it. -/
theorem budget_bothEnds (hzero : Number.le (0 : ℕ) maxChars.floorHalf = true)
    (hfit : ∀ turn ∈ turns, Number.le turn.text.length maxChars.floorHalf = true) :
    BothEnds kind maxChars turns (budget turns maxChars kind) := by
  by_cases htotal : Number.le (totalChars turns) maxChars = true
  · rw [budget, if_pos htotal]
    exact .whole htotal
  obtain ⟨rest, hturns⟩ := takeWithin_prefix maxChars.floorHalf turns 0
  obtain ⟨between, hrest⟩ := takeWithin_prefix maxChars.floorHalf rest.reverse 0
  rw [budget, if_neg htotal]
  dsimp only
  have hhead := totalChars_takeWithin turns hzero
  have htail := totalChars_takeWithin rest.reverse hzero
  have hfront : takeWithin maxChars.floorHalf 0 turns ≠ [] := by
    refine takeWithin_ne_nil ?_ hfit
    rintro rfl
    exact htotal (by simpa [totalChars] using Number.le_of_halves hzero hzero)
  generalize hF : takeWithin maxChars.floorHalf 0 turns = front at *
  have hdrop : turns.drop front.length = rest := by rw [← hturns, List.drop_left]
  have hback : takeWithin maxChars.floorHalf 0 rest.reverse ≠ [] := by
    refine takeWithin_ne_nil ?_ fun turn hturn => hfit turn ?_
    · intro hnil
      rw [List.reverse_eq_nil_iff] at hnil
      rw [hnil, List.append_nil] at hturns
      exact htotal (by simpa [hturns] using Number.le_of_halves hhead hzero)
    · rw [← hturns]
      exact List.mem_append_right _ (List.mem_reverse.mp hturn)
  generalize hB : takeWithin maxChars.floorHalf 0 rest.reverse = back at *
  have hall : turns = front ++ between.reverse ++ back.reverse := by
    rw [← hturns, List.append_assoc, ← List.reverse_append, hrest, List.reverse_reverse]
  have hkept : Number.le (totalChars (front ++ back.reverse)) maxChars = true := by
    simpa using Number.le_of_halves hhead htail
  have hmissing : between.reverse ≠ [] := by
    intro hnil
    rw [hnil, List.append_nil] at hall
    exact htotal (hall ▸ hkept)
  have hdropped : turns.length - front.length - back.reverse.length = between.reverse.length := by
    have hlength := congrArg List.length hall
    simp only [List.length_append] at hlength
    omega
  have hsome : between.reverse.length ≠ 0 := fun hzero =>
    hmissing (List.length_eq_zero_iff.mp hzero)
  simp only [hdrop, hB, hdropped, hsome, if_false]
  exact .ends hall hfront hmissing (by simpa using hback) hkept

end Budget

/-! ### What is extracted -/

/-- **What is extracted keeps both ends**, of what the human said and of what was decided, and the
last of what the assistant said. -/
theorem turns_bothEnds (records : List Value) (options : ExtractOptions)
    (hturn : Number.le 1 (TurnCollector.new options).maxTurnChars = true)
    (hhuman : Number.le (TurnCollector.new options).maxTurnChars
      (TurnCollector.new options).maxHumanChars.floorHalf = true)
    (hdecision : Number.le (TurnCollector.new options).maxTurnChars
      (TurnCollector.new options).maxDecisionChars.floorHalf = true)
    (htail : Number.le 0 (TurnCollector.new options).assistantTail = true) :
    ∃ humans decisions,
      extractTurnsFromRecords records options =
        humans ++ decisions ++ lastOf (TurnCollector.new options).assistantTail
          (assistantTurns options records) ∧
      BothEnds .human (TurnCollector.new options).maxHumanChars
        (humanTurns options records) humans ∧
      BothEnds .decision (TurnCollector.new options).maxDecisionChars
        (decisionTurns options records) decisions ∧
      ∀ turn ∈ humanTurns options records ++ decisionTurns options records ++
        assistantTurns options records,
        Number.le turn.text.length (TurnCollector.new options).maxTurnChars = true := by
  have hlength :
      ∀ turn ∈ humanTurns options records ++ decisionTurns options records ++
        assistantTurns options records,
      Number.le turn.text.length (TurnCollector.new options).maxTurnChars = true := by
    intro turn hmem
    simp only [humanTurns, decisionTurns, assistantTurns, List.mem_append, List.mem_map] at hmem
    rcases hmem with (⟨text, -, rfl⟩ | ⟨text, -, rfl⟩) | ⟨text, -,
      rfl⟩ <;> exact length_clip_le hturn text
  have hzero : ∀ {a : Number}, Number.le (TurnCollector.new options).maxTurnChars a = true →
      Number.le (0 : ℕ) a = true :=
    fun ha => Number.le_mono (Nat.zero_le 1) (Number.le_of_le_of_le hturn ha)
  refine ⟨_, _, ?_, budget_bothEnds (hzero hhuman) ?_,
    budget_bothEnds (hzero hdecision) ?_, hlength⟩
  · rw [extractTurnsFromRecords, foldl_add, TurnCollector.turns]
    congr 1
    exact foldl_slide htail _
  · exact fun turn hmem => Number.le_of_le_of_le (hlength turn (by simp [hmem])) hhuman
  · exact fun turn hmem => Number.le_of_le_of_le (hlength turn (by simp [hmem])) hdecision

/-- Three things that a human says. -/
def sampleTalk : List Value :=
  ["Write a parser.", "In Rust.", "Now test it."].map fun text =>
    record "user" [("origin", .object (members [("kind", str "human")]))] (str text)

/-- Ten characters a turn, and twenty for the human. -/
def tightOptions : ExtractOptions where
  assistantTail := some 1
  maxTurnChars := some 10
  maxHumanChars := some 20

/-- The second of three is dropped. -/
theorem turns_bothEnds_sample :
    ∃ humans decisions,
      extractTurnsFromRecords sampleTalk tightOptions =
        humans ++ decisions ++ lastOf 1 (assistantTurns tightOptions sampleTalk) ∧
      BothEnds .human 20 (humanTurns tightOptions sampleTalk) humans ∧
      BothEnds .decision 8000 (decisionTurns tightOptions sampleTalk) decisions ∧
      ∀ turn ∈ humanTurns tightOptions sampleTalk ++ decisionTurns tightOptions sampleTalk ++
          assistantTurns tightOptions sampleTalk, Number.le turn.text.length 10 = true :=
  turns_bothEnds sampleTalk tightOptions (by decide +kernel) (by decide +kernel) (by decide +kernel)
    (by decide +kernel)

example : extractTurnsFromRecords sampleTalk tightOptions =
    [⟨.human, utf16 "Write a p…".toList⟩, marker .human 1,
      ⟨.human, utf16 "Now test …".toList⟩] := by decide +kernel

end OracleSkills.Capture
