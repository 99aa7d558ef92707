import OracleSkills.Catalog.BestWins
import OracleSkills.Server.Index
import OracleSkills.Server.InventoryHook

/-!
# The harvest of pairs

`build_pairs.py` "derives a retrieval eval set from what actually happened": the ground truth is "a
transcript turn where the MODEL chose to invoke a skill. The prompt that preceded it is the query;
the skill it reached for is the expected answer".

`harvest` goes through the records of each transcript with the last prompt and the number of
assistant turns since then. "`last_prompt` is not cleared once consumed, so one prompt can father
every skill call for the rest of a session", and of each query and skill the closest call is kept.
`pairs_exact` says of the pairs, without the two variables, which calls they are.

What is *not* formalized: the figures that are printed about the pairs, such as the deciles of their
distances.
-/

namespace OracleSkills.Pairs

open Python
open Server (World Cache Index buildIndex resolveSkillDir)
open Server.Rpc (Json)
open Server.InventoryHook (orEmpty iterate isIn)

/-! ### Queries -/

/-- What the harvest goes by besides the transcripts. -/
structure Reader where
  /-- `json.loads` of a line, `none` for a `ValueError`. -/
  loads : Text → Option Json
  /-- `str.lower`. -/
  caseMap : CaseMap
  /-- `\w`. -/
  isWord : Char → Bool
  /-- A character of the pattern stands for one of the text under `re.IGNORECASE`. -/
  same : Char → Char → Bool

/-- `SYNTHETIC`: "nobody typed them". -/
def synthetic : List Text :=
  ["<task-notification>".toList, "<command-name>".toList, "<command-message>".toList,
    "<local-command".toList, "<system-reminder>".toList, "[Request interrupted".toList,
    "Caveat:".toList, "This session is being continued".toList, "<user-prompt-submit-hook>".toList,
    "<ide_selection>".toList]

/-- `LIFECYCLE_SKILLS`: "invoked because of where the session IS, not because of what the last
message said". -/
def lifecycleSkills : List Text :=
  ["rrr".toList, "awaken".toList, "where-we-are".toList, "incubate".toList, "handoff".toList]

/-- The words of `NON_QUERY`: "turns that precede a skill call without asking for anything". -/
def nonQueryWords : List Text :=
  ["yes".toList, "no".toList, "ok".toList, "okay".toList, "continue".toList, "go".toList,
    "go ahead".toList, "ต่อ".toList,
    "ลุย".toList, "ทำเลย".toList, "เอาเลย".toList, "ครับ".toList, "ค่ะ".toList]

/-- `NON_QUERY`: one of the words, and no other word behind it. -/
def nonQuery (R : Reader) (t : Text) : Bool :=
  nonQueryWords.any fun w => decide (w.length ≤ t.length) &&
    (w.zip t).all (fun cd => R.same cd.1 cd.2) &&
    (t.drop w.length).all fun c => !R.isWord c

def minQueryChars : ℕ := 12

/-- `_is_query`. -/
def isQuery (R : Reader) (t : Text) : Bool :=
  if t.length < minQueryChars || synthetic.any (·.isPrefixOf t) || ['/'].isPrefixOf t then false
  else if isIn "unread messages in inbox".toList t || nonQuery R (strip t) then false
  else true

/-! ### Records -/

/-- `rec.get("message", {}).get("content")`, `none` where it raises. -/
def content (m : Dict Text Json) : Option (Option Json) :=
  match m.get? "message".toList with
  | none => some none
  | some (.obj message) => some (Dict.get? "content".toList message)
  | some _ => none

/-- `c.get("text", "")` of the text blocks, `none` where one is no string. -/
def textParts : List Json → Option (List Text)
  | [] => some []
  | .obj c :: cs =>
    if (Dict.get? "type".toList c).any (Json.isText "text") then
      match Dict.get? "text".toList c with
      | none => (textParts cs).map ([] :: ·)
      | some (.str t) => (textParts cs).map (t :: ·)
      | some _ => none
    else textParts cs
  | _ :: cs => textParts cs

/-- `_text`. -/
def text (m : Dict Text Json) : Option Text :=
  match content m with
  | none => none
  | some (some (.str t)) => some t
  | some (some (.arr cs)) => (textParts cs).map (join [' '])
  | some _ => some []

/-- The blocks that are gone through: `rec.get("message", {}).get("content") or []`. -/
def blocks (m : Dict Text Json) : Option (List Json) :=
  match content m with
  | none => none
  | some none => some []
  | some (some v) => if v.truthy then iterate v else some []

/-- The skill of a block, if it calls one, and `none` where the block raises. -/
def blockSkill : Json → Option (Option Json)
  | .obj b =>
    if (Dict.get? "type".toList b).any (Json.isText "tool_use") &&
        (Dict.get? "name".toList b).any (Json.isText "Skill") then
      match orEmpty (Dict.get? "input".toList b) with
      | .obj input => some ((Dict.get? "skill".toList input).filter Json.truthy)
      | _ => none
    else some none
  | _ => some none

/-- `rec.get("isSidechain")`: "subagent prompts are not user prompts". -/
def isSidechain (m : Dict Text Json) : Bool := (m.get? "isSidechain".toList).any Json.truthy

/-- `rec.get("type") == "user" and not rec.get("isMeta")`. -/
def isUser (m : Dict Text Json) : Bool :=
  (m.get? "type".toList).any (Json.isText "user") && !(m.get? "isMeta".toList).any Json.truthy

/-- `rec.get("type") == "assistant"`. -/
def isAssistant (m : Dict Text Json) : Bool := (m.get? "type".toList).any (Json.isText "assistant")

/-! ### The loop -/

/-- A pair, with the number of assistant turns from its prompt to its call. -/
structure Pair where
  query : Text
  expect : Text
  distance : ℕ
  deriving DecidableEq

/-- `skill.lower() in last_prompt.lower()`: "the human named it; not a retrieval case". -/
def dictates (R : Reader) (p : Pair) : Bool :=
  isIn (R.caseMap.lower p.expect) (R.caseMap.lower p.query)

/-- The variables of the loop. -/
structure State where
  lastPrompt : Option Text
  distance : ℕ
  pairs : List Pair
  dictated : ℕ

/-- A block of an assistant's message. -/
def blockStep (R : Reader) (st : State) (block : Json) : Option State :=
  match blockSkill block with
  | none => none
  | some skill =>
    match skill, st.lastPrompt with
    | none, _ => some st
    | some _, none => some st
    | some (.str s), some q =>
      if dictates R ⟨q, s, st.distance⟩ then some { st with dictated := st.dictated + 1 }
      else some { st with pairs := st.pairs ++ [⟨q, s, st.distance⟩] }
    -- `skill.lower()` of what is no string
    | some _, some _ => none

/-- A record, which raises if it is no object. -/
def recStep (R : Reader) (st : State) : Json → Option State
  | .obj m =>
    if isSidechain m then some st
    else if isUser m then
      match text m with
      | none => none
      | some t => if isQuery R (strip t) then some { st with lastPrompt := some (strip t), distance := 0 } else some st
    else if isAssistant m then
      match blocks m with
      | none => none
      | some bs => bs.foldlM (blockStep R) { st with distance := st.distance + 1 }
    else some st
  | _ => none

/-- The records of a transcript. -/
def records (R : Reader) (lines : List Text) : List Json := lines.filterMap R.loads

/-- A transcript. -/
def fileStep (R : Reader) (st : State) (lines : List Text) : Option State :=
  (records R lines).foldlM (recStep R) { st with lastPrompt := none, distance := 0 }

/-- The query and the skill of a pair: the key of `best`. -/
def Pair.key (p : Pair) : Text × Text := (p.query, p.expect)

/-- `harvest`: the closest pairs, and how many were dictated; `none` where it raises. -/
def harvest (R : Reader) (transcripts : List (List Text)) : Option (List Pair × ℕ) :=
  (transcripts.foldlM (fileStep R) ⟨none, 0, [], 0⟩).map fun st =>
    ((BestWins.kept Pair.key Pair.distance st.pairs).map Prod.snd, st.dictated)

/-- The arguments of `main`. -/
structure Options where
  keepUnindexed : Bool
  keepLifecycle : Bool
  maxDistance : ℤ

/-- The first two filters of `main`. -/
def wanted (o : Options) (pairs : List Pair) : List Pair :=
  let pairs := if o.maxDistance ≠ 0 then pairs.filter fun p =>
    decide (p.distance ≤ o.maxDistance) else pairs
  if o.keepLifecycle then pairs else pairs.filter fun p => decide (p.expect ∉ lifecycleSkills)

/-- `main`: the pairs that it writes, and how many were dictated; `none` where it raises. -/
def main (R : Reader) (W : World) (cache : Cache) (o : Options) (transcripts : List (List Text)) :
    Option (List Pair × ℕ) :=
  match harvest R transcripts with
  | none => none
  | some (pairs, dictated) =>
    if o.keepUnindexed then some (wanted o pairs, dictated)
    else
      match (buildIndex W cache).1 with
      | .error _ => none
      | .ok idx => some ((wanted o pairs).filter fun p =>
        decide (p.expect ∈ idx.entries.map Server.Entry.name), dictated)

/-! ### What is claimed -/

/-- The prompt that a record is, if it is one. -/
def promptOf (R : Reader) : Json → Option Text
  | .obj m => if !isSidechain m && isUser m then ((text m).map strip).filter (isQuery R) else none
  | _ => none

/-- A record is a turn of the assistant. -/
def isTurn : Json → Bool
  | .obj m => !isSidechain m && isAssistant m
  | _ => false

/-- The skill that a block calls, by a string. -/
def blockCall (block : Json) : Option Text :=
  match blockSkill block with
  | some (some (.str s)) => some s
  | _ => none

/-- The skills that a record calls. -/
def skillsOf : Json → List Text
  | .obj m => ((blocks m).getD []).filterMap blockCall
  | _ => []

/-- A call of a skill, with the last prompt before it, and the turns of the assistant from there
on. -/
def Call (R : Reader) (rs : List Json) (p : Pair) : Prop :=
  ∃ pre prompt mid turn post, rs = pre ++ prompt :: (mid ++ turn :: post) ∧
    promptOf R prompt = some p.query ∧
    (∀ r ∈ mid, promptOf R r = none) ∧ isTurn turn = true ∧ p.expect ∈ skillsOf turn ∧
      p.distance = mid.countP isTurn + 1

/-- The last prompt of some records, and the turns since then. -/
def latest (R : Reader) (rs : List Json) : Option (Text × ℕ) :=
  rs.foldl (fun last r =>
    match promptOf R r with
    | some q => some (q, 0)
    | none => last.map fun x => (x.1, x.2 + if isTurn r then 1 else 0)) none

/-- The calls of a record, behind the records before it. -/
def callsOf (R : Reader) (pre : List Json) (r : Json) : List Pair :=
  match latest R pre with
  | some (q, d) => if isTurn r then (skillsOf r).map fun s => ⟨q, s, d + 1⟩ else []
  | none => []

/-- The calls of the records behind others, in their order. -/
def callsFrom (R : Reader) : List Json → List Json → List Pair
  | _, [] => []
  | pre, r :: rs => callsOf R pre r ++ callsFrom R (pre ++ [r]) rs

/-- All calls of a transcript. -/
def calls (R : Reader) (rs : List Json) : List Pair := callsFrom R [] rs

/-- A call of any transcript that is not dictated, and the closest one of its query and skill. -/
structure Closest (R : Reader) (transcripts : List (List Text)) (p : Pair) : Prop where
  call : ∃ lines ∈ transcripts, Call R (records R lines) p
  chosen : dictates R p = false
  least : ∀ lines ∈ transcripts, ∀ d, Call R (records R lines) ⟨p.query, p.expect, d⟩ →
    p.distance ≤ d

/-- The server finds the skill. -/
def Indexed (W : World) (cache : Cache) (name : Text) : Prop :=
  ∃ dir, (resolveSkillDir W cache name).1 = .ok (some dir)

/-- A block whose fields are what they should be. -/
def RegularBlock (b : Dict Text Json) : Prop :=
  ((b.get? "type".toList).any (Json.isText "text") = true → ∀ v, b.get? "text".toList = some v →
    ∃ t, v = .str t) ∧
    ((b.get? "type".toList).any (Json.isText "tool_use") = true →
      (b.get? "name".toList).any (Json.isText "Skill") = true →
      ∀ v, b.get? "input".toList = some v → ∃ input : Dict Text Json, v = .obj input ∧
        ∀ s, input.get? "skill".toList = some s → ∃ t, s = .str t)

/-- A record whose message, if it has one, is an object, with a text or a list of regular blocks for
its content. -/
def Regular (r : Json) : Prop :=
  ∃ m : Dict Text Json, r = .obj m ∧
    (∀ v, m.get? "message".toList = some v → ∃ message : Dict Text Json, v = .obj message ∧
    ∀ c, message.get? "content".toList = some c → (∃ t, c = .str t) ∨ ∃ bs, c = .arr bs ∧
      ∀ b, .obj b ∈ bs → RegularBlock b)

/-! ### The calls behind some records -/

section Calls

variable {R : Reader} {rs pre : List Json} {r : Json} {p : Pair} {q : Text} {d : ℕ}

theorem latest_concat (R : Reader) (rs : List Json) (r : Json) : latest R (rs ++ [r]) =
    match promptOf R r with
    | some q => some (q, 0)
    | none => (latest R rs).map fun x => (x.1, x.2 + if isTurn r then 1 else 0) := by
  rw [latest, List.foldl_append]
  rfl

/-- **The last prompt** is one behind which there is none, and the turns are those behind it. -/
theorem latest_eq_some_iff : latest R rs = some (q, d) ↔
    ∃ pre prompt mid, rs = pre ++ prompt :: mid ∧ promptOf R prompt = some q ∧
      (∀ r ∈ mid, promptOf R r = none) ∧
      d = mid.countP isTurn := by
  induction rs using List.reverseRecOn generalizing q d with
  | nil =>
    refine ⟨fun h => (by cases h), ?_⟩
    rintro ⟨pre, prompt, mid, heq, -⟩
    simp at heq
  | append_singleton rs r ih =>
    rw [latest_concat]
    constructor
    · intro h
      cases hr : promptOf R r with
      | some q' =>
        rw [hr] at h
        cases h
        exact ⟨rs, r, [], rfl, hr, fun _ hmem => absurd hmem List.not_mem_nil, rfl⟩
      | none =>
        rw [hr] at h
        obtain ⟨⟨q', d'⟩, hlatest, heq⟩ := Option.map_eq_some_iff.mp h
        cases heq
        obtain ⟨pre, prompt, mid, rfl, hprompt, hmid, rfl⟩ := ih.mp hlatest
        refine ⟨pre, prompt, mid ++ [r], by simp, hprompt, fun x hx => ?_, ?_⟩
        · rcases List.mem_append.mp hx with hx | hx
          · exact hmid x hx
          · exact List.mem_singleton.mp hx ▸ hr
        · rw [List.countP_append, List.countP_singleton]
    · rintro ⟨pre, prompt, mid, heq, hprompt, hmid, rfl⟩
      rcases List.eq_nil_or_concat mid with rfl | ⟨mid, x, rfl⟩
      · obtain ⟨-, hr⟩ := List.append_inj' heq rfl
        rw [List.singleton_inj.mp hr, hprompt]
        rfl
      · rw [List.concat_eq_append, ← List.cons_append, ← List.append_assoc] at heq
        obtain ⟨rfl, hr⟩ := List.append_inj' heq rfl
        obtain rfl := List.singleton_inj.mp hr
        have hlatest :=
          ih.mpr ⟨pre, prompt, mid, rfl, hprompt, fun y hy => hmid y (by simp [hy]), rfl⟩
        rw [hmid r (by simp), hlatest, List.concat_eq_append, List.countP_append,
          List.countP_singleton]
        rfl

theorem mem_callsFrom : p ∈ callsFrom R pre rs ↔ ∃ mid turn post, rs = mid ++ turn :: post ∧
    p ∈ callsOf R (pre ++ mid) turn := by
  induction rs generalizing pre with
  | nil => simp [callsFrom]
  | cons r rs ih =>
    rw [callsFrom, List.mem_append, ih]
    constructor
    · rintro (h | ⟨mid, turn, post, rfl, h⟩)
      · exact ⟨[], r, rs, rfl, by simpa using h⟩
      · exact ⟨r :: mid, turn, post, rfl, by simpa using h⟩
    · rintro ⟨mid, turn, post, heq, h⟩
      cases mid with
      | nil =>
        obtain ⟨rfl, rfl⟩ := List.cons.inj heq
        exact .inl (by simpa using h)
      | cons x mid =>
        obtain ⟨rfl, rfl⟩ := List.cons.inj heq
        exact .inr ⟨mid, turn, post, rfl, by simpa using h⟩

theorem mem_callsOf : p ∈ callsOf R pre r ↔
    ∃ d, latest R pre = some (p.query, d) ∧ isTurn r = true ∧ p.expect ∈ skillsOf r ∧
        p.distance = d + 1 := by
  rw [callsOf]
  cases latest R pre with
  | none => simp
  | some x =>
    obtain ⟨q, d⟩ := x
    by_cases hturn : isTurn r = true
    · simp only [hturn, if_true, List.mem_map, Option.some.injEq, Prod.mk.injEq, true_and]
      constructor
      · rintro ⟨s, hs, rfl⟩
        exact ⟨d, ⟨rfl, rfl⟩, hs, rfl⟩
      · rintro ⟨d', ⟨rfl, rfl⟩, hs, hd⟩
        exact ⟨p.expect, hs, by rw [← hd]⟩
    · simp [hturn]

/-- **The calls** are those that go back to the last prompt before them. -/
theorem mem_calls : p ∈ calls R rs ↔ Call R rs p := by
  rw [calls, mem_callsFrom]
  constructor
  · rintro ⟨before, turn, post, rfl, h⟩
    obtain ⟨d, hlatest, hturn, hskill, hdistance⟩ := mem_callsOf.mp h
    obtain ⟨pre, prompt, mid, rfl, hprompt, hmid, rfl⟩ := latest_eq_some_iff.mp hlatest
    exact ⟨pre, prompt, mid, turn, post, by simp, hprompt, hmid, hturn, hskill, hdistance⟩
  · rintro ⟨pre, prompt, mid, turn, post, rfl, hprompt, hmid, hturn, hskill, hdistance⟩
    refine ⟨pre ++ prompt :: mid, turn,
      post, by simp, mem_callsOf.mpr ⟨mid.countP isTurn, ?_, hturn, hskill, hdistance⟩⟩
    exact latest_eq_some_iff.mpr ⟨pre, prompt, mid, rfl, hprompt, hmid, rfl⟩

end Calls

/-! ### The loop and the calls -/

section Loop

variable {R : Reader} {st st' st'' : State} {rs pre : List Json} {new new' : List Pair}

/-- A part of the loop has found some calls. -/
structure Finds (R : Reader) (st st' : State) (new : List Pair) : Prop where
  pairs : st'.pairs = st.pairs ++ new.filter fun p => !dictates R p
  dictated : st'.dictated = st.dictated + new.countP (dictates R)

theorem Finds.nil (hpairs : st'.pairs = st.pairs) (hdictated : st'.dictated = st.dictated) :
    Finds R st st' [] :=
  ⟨by simpa using hpairs, hdictated⟩

theorem Finds.trans (h : Finds R st st' new) (h' : Finds R st' st'' new') :
    Finds R st st'' (new ++ new') where
  pairs := by rw [h'.pairs, h.pairs, List.filter_append, List.append_assoc]
  dictated := by rw [h'.dictated, h.dictated, List.countP_append, Nat.add_assoc]

/-- What a block calls behind the last prompt. -/
def newCalls (st : State) (names : List Text) : List Pair :=
  match st.lastPrompt with
  | some q => names.map fun s => ⟨q, s, st.distance⟩
  | none => []

/-- A block. -/
theorem finds_blockStep {block : Json} (h : blockStep R st block = some st') :
    st'.lastPrompt = st.lastPrompt ∧ st'.distance = st.distance ∧
        Finds R st st' (newCalls st (blockCall block).toList) := by
  rw [blockStep] at h
  rw [blockCall, newCalls]
  cases hskill : blockSkill block with
  | none =>
    rw [hskill] at h
    cases h
  | some skill =>
    rw [hskill] at h
    cases skill with
    | none =>
      cases h
      cases st.lastPrompt <;> exact ⟨rfl, rfl, .nil rfl rfl⟩
    | some v =>
      cases hprompt : st.lastPrompt with
      | none =>
        simp only [hprompt, Option.some.injEq] at h
        subst h
        exact ⟨hprompt, rfl, .nil rfl rfl⟩
      | some q =>
        cases v with
        | str s =>
          simp only [hprompt] at h
          split_ifs at h with hdictates
          · cases h
            exact ⟨rfl, rfl, by simp [hdictates], by simp [hdictates]⟩
          · cases h
            exact ⟨rfl, rfl, by simp [hdictates], by simp [hdictates]⟩
        | _ => simp [hprompt] at h

theorem newCalls_append (h : st'.lastPrompt = st.lastPrompt) (h' : st'.distance = st.distance)
    (as bs : List Text) :
    newCalls st as ++ newCalls st' bs = newCalls st (as ++ bs) := by
  rw [newCalls, newCalls, newCalls, h, h']
  cases st.lastPrompt with
  | none => rfl
  | some q => exact (List.map_append ..).symm

/-- **The blocks of a message.** -/
theorem finds_blocks {bs : List Json} (h : bs.foldlM (blockStep R) st = some st') :
    st'.lastPrompt = st.lastPrompt ∧ st'.distance = st.distance ∧
        Finds R st st' (newCalls st (bs.filterMap blockCall)) := by
  induction bs generalizing st with
  | nil =>
    obtain rfl : st = st' := Option.some.inj h
    refine ⟨rfl, rfl, ?_⟩
    rw [newCalls]
    cases st.lastPrompt <;> exact .nil rfl rfl
  | cons b bs ih =>
    rw [List.foldlM_cons] at h
    obtain ⟨st₁, hb, hbs⟩ := Option.bind_eq_some_iff.mp h
    obtain ⟨hprompt, hdistance, hfinds⟩ := finds_blockStep hb
    obtain ⟨hprompt', hdistance', hfinds'⟩ := ih hbs
    refine ⟨hprompt'.trans hprompt, hdistance'.trans hdistance, ?_⟩
    have hnames : (b :: bs).filterMap blockCall = (blockCall b).toList ++
        bs.filterMap blockCall := by
      cases hb : blockCall b <;> simp [hb]
    rw [hnames, ← newCalls_append hprompt hdistance]
    exact hfinds.trans hfinds'

/-- The two variables say what the records before are. -/
structure Tracks (R : Reader) (pre : List Json) (st : State) : Prop where
  prompt : st.lastPrompt = (latest R pre).map Prod.fst
  distance : ∀ q d, latest R pre = some (q, d) → st.distance = d

theorem isUser_of_isAssistant {m : Dict Text Json} (h : isAssistant m = true) :
    isUser m = false := by
  rw [isAssistant, Option.any_eq_true] at h
  obtain ⟨v, hv, htext⟩ := h
  rw [isUser, hv, Option.any_some]
  cases v with
  | str t =>
    have ht : t = "assistant".toList := of_decide_eq_true htext
    rw [ht]
    rfl
  | _ => cases htext

theorem callsOf_of_not_turn {r : Json} (h : isTurn r = false) : callsOf R pre r = [] := by
  rw [callsOf]
  cases latest R pre with
  | none => rfl
  | some x => simp [h]

/-- **A record** keeps the variables, and finds its calls. -/
theorem finds_recStep {r : Json} (ht : Tracks R pre st) (h : recStep R st r = some st') :
    Tracks R (pre ++ [r]) st' ∧ Finds R st st' (callsOf R pre r) := by
  -- a record that is neither a prompt nor a turn
  have hidle : ∀ r : Json, promptOf R r = none → isTurn r = false →
      Tracks R (pre ++ [r]) st ∧ Finds R st st (callsOf R pre r) := by
    intro r hr hturn
    have hlatest : latest R (pre ++ [r]) = latest R pre := by
      rw [latest_concat, hr]
      cases latest R pre with
      | none => rfl
      | some x => simp [hturn]
    refine ⟨⟨hlatest ▸ ht.prompt, hlatest ▸ ht.distance⟩, ?_⟩
    rw [callsOf_of_not_turn hturn]
    exact .nil rfl rfl
  cases r with
  | obj m =>
    rw [recStep] at h
    by_cases hside : isSidechain m = true
    · rw [if_pos hside] at h
      cases h
      exact hidle _ (by simp [promptOf, hside]) (by simp [isTurn, hside])
    · rw [if_neg hside] at h
      rw [Bool.not_eq_true] at hside
      by_cases huser : isUser m = true
      · rw [if_pos huser] at h
        have hturn : isTurn (.obj m) = false := by
          rw [isTurn, hside]
          by_contra hne
          have hassistant : isAssistant m = true := by simpa using hne
          exact absurd huser (by rw [isUser_of_isAssistant hassistant]; exact Bool.false_ne_true)
        cases htext : text m with
        | none =>
          rw [htext] at h
          cases h
        | some t =>
          simp only [htext] at h
          have hprompt : promptOf R (.obj m) = if isQuery R (strip t) then some (strip t) else none := by
            rw [promptOf, hside, huser, htext]
            simp [Option.filter]
          split_ifs at h with hquery
          · cases h
            rw [if_pos hquery] at hprompt
            have hlatest : latest R (pre ++ [.obj m]) = some (strip t, 0) := by rw [latest_concat, hprompt]
            refine ⟨⟨by rw [hlatest]; rfl, fun q d hqd => ?_⟩, ?_⟩
            · rw [hlatest] at hqd
              cases hqd
              rfl
            · rw [callsOf_of_not_turn hturn]
              exact .nil rfl rfl
          · cases h
            exact hidle _ (by rw [hprompt, if_neg hquery]) hturn
      · rw [if_neg huser] at h
        rw [Bool.not_eq_true] at huser
        have hprompt : promptOf R (.obj m) = none := by simp [promptOf, huser]
        by_cases hassistant : isAssistant m = true
        · rw [if_pos hassistant] at h
          have hturn : isTurn (.obj m) = true := by simp [isTurn, hside, hassistant]
          cases hblocks : blocks m with
          | none =>
            rw [hblocks] at h
            cases h
          | some bs =>
            simp only [hblocks] at h
            obtain ⟨hprompt', hdistance', hfinds⟩ := finds_blocks h
            have hskills : skillsOf (.obj m) = bs.filterMap blockCall := by rw [skillsOf, hblocks]; rfl
            have hlatest : latest R (pre ++ [.obj m]) = (latest R pre).map fun x => (x.1, x.2 + 1) := by
              rw [latest_concat, hprompt, hturn]
              rfl
            refine ⟨⟨?_, fun q d hqd => ?_⟩, ?_⟩
            · rw [hprompt', hlatest, ht.prompt, Option.map_map]
              rfl
            · rw [hlatest] at hqd
              obtain ⟨⟨q', d'⟩, hx, heq⟩ := Option.map_eq_some_iff.mp hqd
              cases heq
              rw [hdistance', ht.distance _ _ hx]
            · have hcalls : callsOf R pre (.obj m) = newCalls { st with distance := st.distance + 1 } (bs.filterMap blockCall) := by
                rw [callsOf, newCalls, hskills, hturn, ht.prompt]
                cases hx : latest R pre with
                | none => rfl
                | some x =>
                  obtain ⟨q, d⟩ := x
                  simp [ht.distance q d hx]
              rw [hcalls]
              exact ⟨hfinds.pairs, hfinds.dictated⟩
        · rw [if_neg hassistant] at h
          cases h
          rw [Bool.not_eq_true] at hassistant
          exact hidle _ hprompt (by simp [isTurn, hassistant])
  | _ => cases h

/-- **The records of a transcript.** -/
theorem finds_records (ht : Tracks R pre st) (h : rs.foldlM (recStep R) st = some st') :
    Finds R st st' (callsFrom R pre rs) := by
  induction rs generalizing st pre with
  | nil =>
    cases h
    exact .nil rfl rfl
  | cons r rs ih =>
    rw [List.foldlM_cons] at h
    obtain ⟨st₁, hr, hrs⟩ := Option.bind_eq_some_iff.mp h
    obtain ⟨ht₁, hfinds⟩ := finds_recStep ht hr
    exact hfinds.trans (ih ht₁ hrs)

/-- **The transcripts.** -/
theorem finds_transcripts {transcripts : List (List Text)}
    (h : transcripts.foldlM (fileStep R) st = some st') :
    Finds R st st' (transcripts.flatMap fun lines => calls R (records R lines)) := by
  induction transcripts generalizing st with
  | nil =>
    cases h
    exact .nil rfl rfl
  | cons lines transcripts ih =>
    rw [List.foldlM_cons] at h
    obtain ⟨st₁, hfile, hrest⟩ := Option.bind_eq_some_iff.mp h
    have htracks : Tracks R [] { st with lastPrompt := none, distance := 0 } :=
      ⟨rfl, fun _ _ hqd => (by cases hqd)⟩
    have hfinds := finds_records htracks hfile
    rw [List.flatMap_cons]
    exact Finds.trans ⟨hfinds.pairs, hfinds.dictated⟩ (ih hrest)

end Loop

/-! ### The pairs -/

section Claim

variable {R : Reader} {transcripts : List (List Text)} {pairs : List Pair} {dictated : ℕ}
  {W : World} {cache : Cache} {p : Pair}

/-- **What is harvested** is the closest calls. -/
theorem closest_harvest (h : harvest R transcripts = some (pairs, dictated)) :
    (pairs.map Pair.key).Nodup ∧ (∀ p, p ∈ pairs ↔ Closest R transcripts p) ∧
      dictated = (transcripts.flatMap fun lines => calls R (records R lines)).countP
          (dictates R) := by
  obtain ⟨st, hloop, heq⟩ := Option.map_eq_some_iff.mp h
  rw [Prod.mk.injEq] at heq
  obtain ⟨rfl, rfl⟩ := heq
  have hfinds := finds_transcripts hloop
  have hpairs : ∀ p, p ∈ st.pairs ↔ (∃ lines ∈ transcripts, Call R (records R lines) p) ∧
      dictates R p = false := by
    intro p
    rw [hfinds.pairs, List.nil_append, List.mem_filter, List.mem_flatMap]
    simp only [mem_calls, Bool.not_eq_true']
  refine ⟨?_, fun p => ?_, by rw [hfinds.dictated, Nat.zero_add]⟩
  · have hnodup : (BestWins.kept Pair.key Pair.distance st.pairs).keys.Nodup :=
      BestWins.nodup_keys_kept _
    rwa [BestWins.keys_kept] at hnodup
  · have hinj : ∀ a b : Pair, a.key = b.key → a.distance = b.distance → a = b := by
      rintro ⟨q, e, d⟩ ⟨q', e', d'⟩ hkey hdistance
      cases hkey
      cases hdistance
      rfl
    rw [BestWins.mem_values_kept, BestWins.isBest_iff hinj, hpairs]
    constructor
    · rintro ⟨⟨hcall, hchosen⟩, hleast⟩
      exact ⟨hcall, hchosen, fun lines hlines d hd =>
        hleast ⟨p.query, p.expect, d⟩ ((hpairs _).mpr ⟨⟨lines, hlines, hd⟩, hchosen⟩) rfl⟩
    · rintro ⟨hcall, hchosen, hleast⟩
      refine ⟨⟨hcall, hchosen⟩, fun b hb hkey => ?_⟩
      obtain ⟨⟨lines, hlines, hcall'⟩, -⟩ := (hpairs b).mp hb
      obtain ⟨q, e, d⟩ := b
      cases hkey
      exact hleast lines hlines d hcall'

theorem indexed_iff {idx : Index} {name : Text} (h : (buildIndex W cache).1 = .ok idx) :
    name ∈ idx.entries.map Server.Entry.name ↔ Indexed W cache name := by
  have hresolve : (resolveSkillDir W cache name).1 =
      .ok ((idx.entries.find? fun e => decide (e.name = name)).map fun e => e.path.dir) := by
    rw [resolveSkillDir]
    cases hbuild : buildIndex W cache with
    | mk r cache' =>
      rw [hbuild] at h
      cases h
      rfl
  rw [Indexed, hresolve, List.mem_map]
  constructor
  · rintro ⟨e, he, hname⟩
    have hsome : (idx.entries.find? fun e => decide (e.name = name)).isSome := by
      rw [List.find?_isSome]
      exact ⟨e, he, decide_eq_true hname⟩
    obtain ⟨e', he'⟩ := Option.isSome_iff_exists.mp hsome
    exact ⟨e'.path.dir, by rw [he']; rfl⟩
  · rintro ⟨dir, hdir⟩
    obtain ⟨e, he, -⟩ := Option.map_eq_some_iff.mp (Except.ok.inj hdir)
    have hname := List.find?_some he
    exact ⟨e, List.mem_of_find?_eq_some he, of_decide_eq_true hname⟩

theorem wanted_sublist (o : Options) (pairs : List Pair) : (wanted o pairs).Sublist pairs := by
  unfold wanted
  dsimp only
  split_ifs
  · exact List.filter_sublist
  · exact List.Sublist.refl _
  · exact List.filter_sublist.trans List.filter_sublist
  · exact List.filter_sublist

theorem mem_wanted {o : Options} : p ∈ wanted o pairs ↔
    p ∈ pairs ∧ (o.maxDistance = 0 ∨ p.distance ≤ o.maxDistance) ∧
        (o.keepLifecycle = true ∨ p.expect ∉ lifecycleSkills) := by
  unfold wanted
  dsimp only
  have hreach :
      p ∈ (if o.maxDistance ≠ 0 then pairs.filter fun p =>
      decide (p.distance ≤ o.maxDistance) else pairs) ↔
      p ∈ pairs ∧ (o.maxDistance = 0 ∨ p.distance ≤ o.maxDistance) := by
    by_cases hzero : o.maxDistance = 0 <;> simp [hzero]
  by_cases hkeep : o.keepLifecycle = true
  · rw [if_pos hkeep, hreach]
    simp only [hkeep, true_or, and_true]
  · rw [if_neg hkeep, List.mem_filter, decide_eq_true_eq, hreach, and_assoc]
    simp only [hkeep, Bool.false_eq_true, false_or]

/-! ### Regular transcripts -/

theorem exists_foldlM {σ : Type*} {ε : Type*} {step : σ → ε → Option σ} {xs : List ε}
    (h : ∀ x ∈ xs, ∀ s, ∃ s', step s x = some s') (s : σ) : ∃ s', xs.foldlM step s = some s' := by
  induction xs generalizing s with
  | nil => exact ⟨s, rfl⟩
  | cons x xs ih =>
    obtain ⟨hx, hxs⟩ := List.forall_mem_cons.mp h
    obtain ⟨s₁, hs₁⟩ := hx s
    obtain ⟨s₂, hs₂⟩ := ih hxs s₁
    exact ⟨s₂, by rw [List.foldlM_cons, hs₁]; exact hs₂⟩

theorem exists_textParts {cs : List Json} (h : ∀ b, .obj b ∈ cs → RegularBlock b) :
    ∃ ts, textParts cs = some ts := by
  induction cs with
  | nil => exact ⟨[], rfl⟩
  | cons c cs ih =>
    obtain ⟨ts, hts⟩ := ih fun b hb => h b (List.mem_cons_of_mem _ hb)
    cases c with
    | obj c =>
      rw [textParts, hts]
      by_cases htype : (Dict.get? "type".toList c).any (Json.isText "text") = true
      · rw [if_pos htype]
        cases hget : Dict.get? "text".toList c with
        | none => exact ⟨[] :: ts, rfl⟩
        | some v =>
          obtain ⟨t, rfl⟩ := (h c (List.mem_cons_self ..)).1 htype v hget
          exact ⟨t :: ts, rfl⟩
      · rw [if_neg htype]
        exact ⟨ts, rfl⟩
    | _ => exact ⟨ts, hts⟩

theorem exists_blockStep {b : Json} (h : ∀ b', b = .obj b' → RegularBlock b') (st : State) :
    ∃ st', blockStep R st b = some st' := by
  have hskill : ∃ skill, blockSkill b = some skill ∧ ∀ v, skill = some v → ∃ s, v = .str s := by
    cases b with
    | obj b =>
      rw [blockSkill]
      by_cases hcall : ((Dict.get? "type".toList b).any (Json.isText "tool_use") &&
          (Dict.get? "name".toList b).any (Json.isText "Skill")) = true
      · rw [if_pos hcall]
        obtain ⟨htype, hname⟩ := Bool.and_eq_true_iff.mp hcall
        have hinput := (h b rfl).2 htype hname
        cases hget : Dict.get? "input".toList b with
        | none => exact ⟨none, rfl, fun v hv => (by cases hv)⟩
        | some v =>
          obtain ⟨input, rfl, hskill⟩ := hinput v hget
          refine ⟨(Dict.get? "skill".toList input).filter Json.truthy, ?_, fun v hv => ?_⟩
          · cases input <;> rfl
          · exact hskill v (Option.filter_eq_some_iff.mp hv).1
      · rw [if_neg hcall]
        exact ⟨none, rfl, fun v hv => (by cases hv)⟩
    | _ => exact ⟨none, rfl, fun v hv => (by cases hv)⟩
  obtain ⟨skill, hskill, hstr⟩ := hskill
  rw [blockStep, hskill]
  cases skill with
  | none => exact ⟨st, rfl⟩
  | some v =>
    obtain ⟨s, rfl⟩ := hstr v rfl
    cases hprompt : st.lastPrompt with
    | none => exact ⟨st, rfl⟩
    | some q =>
      simp only
      split_ifs <;> exact ⟨_, rfl⟩

/-- A regular record does not raise. -/
theorem exists_recStep {r : Json} (h : Regular r) (st : State) :
    ∃ st', recStep R st r = some st' := by
  obtain ⟨m, rfl, hmessage⟩ := h
  have hcontent : content m = some none ∨ (∃ t, content m = some (some (.str t))) ∨
      ∃ bs, content m = some (some (.arr bs)) ∧ ∀ b, .obj b ∈ bs → RegularBlock b := by
    rw [content]
    cases hget : m.get? "message".toList with
    | none => exact .inl rfl
    | some v =>
      obtain ⟨message, rfl, hregular⟩ := hmessage v hget
      simp only
      cases hc : Dict.get? "content".toList message with
      | none => exact .inl rfl
      | some c =>
        rcases hregular c hc with ⟨t, rfl⟩ | ⟨bs, rfl, hbs⟩
        · exact .inr (.inl ⟨t, rfl⟩)
        · exact .inr (.inr ⟨bs, rfl, hbs⟩)
  have htext : ∃ t, text m = some t := by
    rw [text]
    rcases hcontent with hc | ⟨t, hc⟩ | ⟨bs, hc, hbs⟩
    · exact ⟨[], by rw [hc]⟩
    · exact ⟨t, by rw [hc]⟩
    · obtain ⟨ts, hts⟩ := exists_textParts hbs
      exact ⟨join [' '] ts, by rw [hc]; simp [hts]⟩
  have hblocks : ∃ bs, blocks m = some bs ∧ ∀ b, .obj b ∈ bs → RegularBlock b := by
    rw [blocks]
    rcases hcontent with hc | ⟨t, hc⟩ | ⟨bs, hc, hbs⟩
    · exact ⟨[], by rw [hc], fun b hb => absurd hb List.not_mem_nil⟩
    · rw [hc]
      simp only
      split_ifs
      · refine ⟨_, rfl, fun b hb => ?_⟩
        obtain ⟨c, -, hc⟩ := List.mem_map.mp hb
        cases hc
      · exact ⟨[], rfl, fun b hb => absurd hb List.not_mem_nil⟩
    · rw [hc]
      simp only
      split_ifs
      · exact ⟨bs, rfl, hbs⟩
      · exact ⟨[], rfl, fun b hb => absurd hb List.not_mem_nil⟩
  obtain ⟨t, htext⟩ := htext
  obtain ⟨bs, hblocks, hregular⟩ := hblocks
  rw [recStep]
  simp only [htext, hblocks]
  split_ifs
  · exact ⟨_, rfl⟩
  · exact ⟨_, rfl⟩
  · exact ⟨_, rfl⟩
  · exact exists_foldlM (fun b hb st => exists_blockStep (fun b' heq => hregular b' (heq ▸ hb)) st) _
  · exact ⟨_, rfl⟩

/-- **There is a harvest** of regular transcripts. -/
theorem exists_harvest (h : ∀ lines ∈ transcripts, ∀ r ∈ records R lines, Regular r) :
    ∃ x, harvest R transcripts = some x := by
  obtain ⟨st, hst⟩ := exists_foldlM
    (fun lines hlines st => exists_foldlM (fun r hr st => exists_recStep (h lines hlines r hr) st)
    { st with lastPrompt := none, distance := 0 }) (⟨none, 0, [], 0⟩ : State)
  exact ⟨_, by rw [harvest]; exact congrArg _ hst⟩

/-! ### What is written -/

/-- What is written: each query and skill once, with the closest of the calls that go back to this
query as the last prompt before them; not dictated, within the distance, and of a skill that is
asked for and that the server finds. How many calls were dictated is counted. -/
structure Written (R : Reader) (W : World) (cache : Cache) (o : Options)
    (transcripts : List (List Text)) (pairs : List Pair) (dictated : ℕ) : Prop where
  distinct : (pairs.map Pair.key).Nodup
  mem : ∀ p, p ∈ pairs ↔ Closest R transcripts p ∧
    (o.maxDistance = 0 ∨ p.distance ≤ o.maxDistance) ∧
    (o.keepLifecycle = true ∨ p.expect ∉ lifecycleSkills) ∧
      (o.keepUnindexed = true ∨ Indexed W cache p.expect)
  dictated : dictated = (transcripts.flatMap fun lines => calls R (records R lines)).countP
    (dictates R)

theorem written_of_main {o : Options} (h : main R W cache o transcripts = some (pairs, dictated)) :
    Written R W cache o transcripts pairs dictated := by
  rw [main] at h
  cases hharvest : harvest R transcripts with
  | none =>
    rw [hharvest] at h
    cases h
  | some x =>
    obtain ⟨all, n⟩ := x
    obtain ⟨hnodup, hclosest, hdictated⟩ := closest_harvest hharvest
    simp only [hharvest] at h
    by_cases hkeep : o.keepUnindexed = true
    · rw [if_pos hkeep] at h
      cases h
      refine ⟨hnodup.sublist ((wanted_sublist o all).map _), fun p => ?_, hdictated⟩
      rw [mem_wanted, hclosest]
      simp only [hkeep, true_or, and_true]
    · rw [if_neg hkeep] at h
      cases hindex : (buildIndex W cache).1 with
      | error e =>
        rw [hindex] at h
        cases h
      | ok idx =>
        simp only [hindex] at h
        cases h
        refine ⟨hnodup.sublist ((List.filter_sublist.trans (wanted_sublist o all)).map _),
          fun p => ?_, hdictated⟩
        rw [List.mem_filter, decide_eq_true_eq, mem_wanted, hclosest, indexed_iff hindex]
        simp only [hkeep, Bool.false_eq_true, false_or, and_assoc]

/-- **The pairs are what happened**: what is written is the closest calls, and something is written
where every record is regular, and the index, if it is asked for, can be built. -/
theorem pairs_exact (R : Reader) (W : World) (cache : Cache) (o : Options)
    (transcripts : List (List Text)) :
    (∀ pairs dictated, main R W cache o transcripts = some (pairs, dictated) →
      Written R W cache o transcripts pairs dictated) ∧
      ((∀ lines ∈ transcripts, ∀ r ∈ records R lines, Regular r) →
        (o.keepUnindexed = true ∨ ∃ idx, (buildIndex W cache).1 = .ok idx) →
          ∃ pairs dictated, main R W cache o transcripts = some (pairs, dictated)) := by
  refine ⟨fun pairs dictated h => written_of_main h, fun hregular hindex => ?_⟩
  obtain ⟨⟨pairs, dictated⟩, hharvest⟩ := exists_harvest hregular
  rw [main, hharvest]
  simp only
  by_cases hkeep : o.keepUnindexed = true
  · exact ⟨_, _, if_pos hkeep⟩
  · obtain ⟨idx, hidx⟩ := hindex.resolve_left hkeep
    rw [if_neg hkeep, hidx]
    exact ⟨_, _, rfl⟩

end Claim

end OracleSkills.Pairs
