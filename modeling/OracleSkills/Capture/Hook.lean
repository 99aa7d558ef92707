import Mathlib.Data.List.Nodup
import Mathlib.Data.List.Perm.Basic
import OracleSkills.Capture.State
import OracleSkills.Capture.Turns

/-!
# One memory for each session

`session_capture_hook.ts::main`, where nothing fails: it finds out what session has ended and which
turns it had, decides whether they are worth a memory, and whether they are new; a resumed session
"replaces its earlier entry", and the record of the session is written. The store that the memories
are filed in is not the repository's. It is taken as it is promised (`Lawful`): `handleLearn` files
one entry under a new id, and `removeLearning` removes the entry with an id and no other.

`one_memory`: after any sequence of runs that begins with an empty state and an empty store, every
session with a record has one entry in the store, the recorded one, and it holds the turns of the
session's last run that captured anything.
-/

namespace OracleSkills.Capture

open Python

/-! ### What is to be captured -/

/-- `HookInput`. -/
structure HookInput where
  transcriptPath : Option Text
  sessionId : Option Text
  cwd : Option Text
  reason : Option Text

/-- What one run is given: its environment and arguments, the clock, and what `extractTurns` makes
of the transcript. -/
structure Invocation where
  disabled : Bool
  input : HookInput
  /-- `Bun.argv[2]`. -/
  argv : Option Text
  /-- `process.cwd()`. -/
  cwd : Text
  /-- `fs.existsSync(transcriptPath)`. -/
  found : Bool
  turns : List Turn
  capturedAt : Text

/-- A value that `||` keeps. -/
def truthy (t : Option Text) : Option Text := t.filter (· ≠ [])

/-- `path.basename(p)`. -/
def basename (p : Text) : Text := ((p.rdropWhile (· = '/')).splitOn '/').getLast?.getD []

/-- `t.replace(/\.jsonl$/i, '')`. -/
def withoutJsonl (t : Text) : Text :=
  if (t.drop (t.length - 6)).map Char.toLower = ".jsonl".toList then t.take (t.length - 6) else t

/-- `main` up to `readState`: what it is to capture, or why it skips the session. -/
def prepare (v : Invocation) : Except Text FormatOptions :=
  if v.disabled then .error "disabled".toList
  else
    match (truthy v.input.transcriptPath).or (truthy v.argv) with
    | none => .error "no-transcript-path".toList
    | some transcriptPath =>
      if ¬ v.found then .error "missing-transcript".toList
      else
        match captureDecision v.turns with
        | some reason => .error reason
        | none => .ok {
            sessionId := (truthy v.input.sessionId).getD (withoutJsonl (basename transcriptPath))
            cwd := (truthy v.input.cwd).getD v.cwd
            transcriptPath := transcriptPath
            capturedAt := v.capturedAt
            turns := v.turns }

/-! ### The store -/

/-- The arguments of `handleLearn`. -/
structure LearnArgs where
  pattern : JsText
  source : Text
  concepts : List Text
  origin : Text
  project : Option Text
  cwd : Text
deriving DecidableEq

/-- `session-capture:${sessionId}`. -/
def sourceOf (sessionId : Text) : Text := "session-capture:".toList ++ sessionId

/-- What `main` files. -/
def learnArgs (o : FormatOptions) : LearnArgs where
  pattern := formatCapture o
  source := sourceOf o.sessionId
  concepts := ["session-capture".toList, "conversation".toList, "session-".toList ++ o.sessionId]
  origin := "session-capture".toList
  project := none
  cwd := o.cwd

/-- An entry of the store. -/
structure Entry where
  id : Text
  args : LearnArgs
deriving DecidableEq

/-- A store of memories. -/
structure Store (σ : Type*) where
  entries : σ → List Entry
  handleLearn : LearnArgs → σ → σ × Text
  removeLearning : Text → σ → σ

/-- What is promised of the store. -/
structure Store.Lawful {σ : Type*} (S : Store σ) : Prop where
  /-- `handleLearn` gives an id that no entry has, -/
  fresh : ∀ args vault, ∀ e ∈ S.entries vault, e.id ≠ (S.handleLearn args vault).2
  /-- and that is not empty, -/
  named : ∀ args vault, (S.handleLearn args vault).2 ≠ []
  /-- and files one entry under it. -/
  learned : ∀ args vault, (S.entries (S.handleLearn args vault).1).Perm
    (⟨(S.handleLearn args vault).2, args⟩ :: S.entries vault)
  /-- `removeLearning` removes the entry with that id. -/
  removed : ∀ id vault, (S.entries (S.removeLearning id vault)).Perm
    ((S.entries vault).filter (·.id ≠ id))

/-! ### A run -/

/-- The state file and the store. -/
structure Disk (σ : Type*) where
  file : Option State
  vault : σ

section

variable {σ : Type*} (S : Store σ) (sha256 : JsText → Text)

/-- `main` from `readState` on. -/
def capture (x : Disk σ) (o : FormatOptions) : Disk σ :=
  let hash := contentHash sha256 o.turns
  let state := readState x.file
  let learn (vault : σ) : Disk σ :=
    let result := S.handleLearn (learnArgs o) vault
    ⟨some (assign state o.sessionId ⟨hash, o.capturedAt, some result.2⟩), result.1⟩
  match recaptureDecision state o.sessionId hash with
  | .skip => x
  | .write => learn x.vault
  | .replace replaces => learn (S.removeLearning replaces x.vault)

/-- `main`. -/
def main (x : Disk σ) (v : Invocation) : Disk σ :=
  match prepare v with
  | .error _ => x
  | .ok o => capture S sha256 x o

/-- The runs, one after the other. -/
def mains (x : Disk σ) (vs : List Invocation) : Disk σ := vs.foldl (main S sha256) x

end

/-- What the session's last run that captured anything was to capture. -/
def latest (sessionId : Text) (vs : List Invocation) : Option FormatOptions :=
  (vs.reverse.filterMap fun v => (prepare v).toOption).find? (·.sessionId = sessionId)

variable {σ : Type*} {S : Store σ} {sha256 : JsText → Text} {x : Disk σ} {vs : List Invocation}
  {v : Invocation} {o : FormatOptions} {sessionId : Text}

/-- The entries of a session. -/
def entriesOf (S : Store σ) (sessionId : Text) (vault : σ) : List Entry :=
  (S.entries vault).filter (·.args.source = sourceOf sessionId)

/-- The session has one entry, which the record describes, with the turns of its last capture. -/
def OneEntry (S : Store σ) (sha256 : JsText → Text) (vs : List Invocation) (vault : σ)
    (sessionId : Text) (record : CaptureRecord) : Prop :=
  ∃ e, entriesOf S sessionId vault = [e] ∧ record.learningId = some e.id ∧
    ∃ filed, e.args = learnArgs filed ∧ record.hash = contentHash sha256 filed.turns ∧
      ∃ last, latest sessionId vs = some last ∧
        contentHash sha256 last.turns = contentHash sha256 filed.turns

/-- Every session with a record has one entry. -/
def OneMemory (S : Store σ) (sha256 : JsText → Text) (vs : List Invocation) (x : Disk σ) : Prop :=
  ∀ sessionId record, (readState x.file).get? sessionId = some record →
    OneEntry S sha256 vs x.vault sessionId record

/-! ### The session's last capture -/

theorem latest_concat_of_error {reason : Text} (h : prepare v = .error reason) (sessionId : Text) :
    latest sessionId (vs ++ [v]) = latest sessionId vs := by
  simp [latest, h, Except.toOption]

theorem latest_concat_self (h : prepare v = .ok o) : latest o.sessionId (vs ++ [v]) = some o := by
  simp [latest, h, Except.toOption]

theorem latest_concat_of_ne (h : prepare v = .ok o) (hne : sessionId ≠ o.sessionId) :
    latest sessionId (vs ++ [v]) = latest sessionId vs := by
  simp [latest, h, Except.toOption, hne.symm]

/-! ### The entries of a session -/

theorem sourceOf_injective {a b : Text} (h : sourceOf a = sourceOf b) :
    a = b := List.append_cancel_left h

theorem mem_entriesOf {e : Entry} {vault : σ} :
    e ∈ entriesOf S sessionId vault ↔ e ∈ S.entries vault ∧ e.args.source = sourceOf sessionId := by
  simp [entriesOf]

/-- What is learned for a session is an entry of that session, -/
theorem entriesOf_learn_self (hS : S.Lawful) (o : FormatOptions) (vault : σ) :
    (entriesOf S o.sessionId (S.handleLearn (learnArgs o) vault).1).Perm
      (⟨(S.handleLearn (learnArgs o) vault).2, learnArgs o⟩ :: entriesOf S o.sessionId vault) := by
  have h := (hS.learned (learnArgs o) vault).filter fun e => e.args.source = sourceOf o.sessionId
  rwa [List.filter_cons_of_pos (by simp [learnArgs])] at h

/-- and of no other. -/
theorem entriesOf_learn_of_ne (hS : S.Lawful) (hne : sessionId ≠ o.sessionId) (vault : σ) :
    (entriesOf S sessionId (S.handleLearn (learnArgs o) vault).1).Perm
        (entriesOf S sessionId vault) := by
  have h := (hS.learned (learnArgs o) vault).filter fun e => e.args.source = sourceOf sessionId
  have hsource : sourceOf o.sessionId ≠ sourceOf sessionId :=
    fun he => hne (sourceOf_injective he).symm
  rwa [List.filter_cons_of_neg (by simp [learnArgs, hsource])] at h

/-- What is removed is gone from the entries of a session. -/
theorem entriesOf_remove (hS : S.Lawful) (id : Text) (vault : σ) (sessionId : Text) :
    (entriesOf S sessionId (S.removeLearning id vault)).Perm
        ((entriesOf S sessionId vault).filter (·.id ≠ id)) := by
  have h := (hS.removed id vault).filter fun e => e.args.source = sourceOf sessionId
  rwa [List.filter_comm] at h

/-! ### What every run keeps -/

theorem readState_some (state : State) : readState (some state) = state := rfl

/-- A record of the name `__proto__` is not kept. -/
theorem assign_proto {state : State} (h : state.get? "__proto__".toList = none)
    (record : CaptureRecord) :
    assign state "__proto__".toList record = state := if_pos ⟨rfl, h⟩

/-- What holds after every run. -/
structure Consistent (S : Store σ) (sha256 : JsText → Text) (vs : List Invocation) (x : Disk σ) :
    Prop where
  one : OneMemory S sha256 vs x
  /-- A session without a record has no entry; that of the name `__proto__` never has a record. -/
  unfiled : ∀ sessionId, sessionId ≠ "__proto__".toList → (readState x.file).get? sessionId = none →
    entriesOf S sessionId x.vault = []
  proto : (readState x.file).get? "__proto__".toList = none
  /-- No two entries have one id, and none has an empty one. -/
  ids : ((S.entries x.vault).map (·.id)).Nodup
  named : ∀ e ∈ S.entries x.vault, e.id ≠ []

/-- What is to be learned is learned on a store that has no entry of the session, and all those of
the others. -/
structure Cleared (S : Store σ) (sessionId : Text) (vault vault₁ : σ) : Prop where
  own : sessionId ≠ "__proto__".toList → entriesOf S sessionId vault₁ = []
  others : ∀ sid, sid ≠ sessionId → (entriesOf S sid vault₁).Perm (entriesOf S sid vault)
  subset : S.entries vault₁ ⊆ S.entries vault
  ids : ((S.entries vault₁).map (·.id)).Nodup

/-- The entry of a record is removed, and nothing else. -/
theorem Consistent.cleared_remove (hS : S.Lawful) (h : Consistent S sha256 vs x) {e : Entry}
    (he : entriesOf S sessionId x.vault = [e]) :
    Cleared S sessionId x.vault (S.removeLearning e.id x.vault) where
  own _ := by
    have hperm := entriesOf_remove hS e.id x.vault sessionId
    rw [he] at hperm
    simpa using hperm
  others sid hne := by
    have hkeep : (entriesOf S sid x.vault).filter (·.id ≠ e.id) = entriesOf S sid x.vault := by
      refine List.filter_eq_self.mpr fun a ha => ?_
      have hmem : e ∈ entriesOf S sessionId x.vault := he ▸ List.mem_singleton.mpr rfl
      rw [mem_entriesOf] at ha hmem
      -- an entry of another session is another entry, and has another id
      simp only [ne_eq, decide_not, Bool.not_eq_eq_eq_not, Bool.not_true, decide_eq_false_iff_not]
      intro hid
      obtain rfl := List.inj_on_of_nodup_map h.ids ha.1 hmem.1 hid
      exact hne (sourceOf_injective (ha.2.symm.trans hmem.2))
    have hperm := entriesOf_remove hS e.id x.vault sid
    rwa [hkeep] at hperm
  subset a ha := List.mem_of_mem_filter ((hS.removed e.id x.vault).mem_iff.mp ha)
  ids := by
    rw [((hS.removed e.id x.vault).map _).nodup_iff]
    exact h.ids.sublist (List.filter_sublist.map _)

/-- **What is learned on a cleared store** becomes the session's one memory. -/
theorem Consistent.learned (hS : S.Lawful) (h : Consistent S sha256 vs x) (hv : prepare v = .ok o)
    {vault₁ : σ} (hc : Cleared S o.sessionId x.vault vault₁) :
    Consistent S sha256 (vs ++ [v])
      ⟨some (assign (readState x.file) o.sessionId ⟨contentHash sha256 o.turns, o.capturedAt,
        some (S.handleLearn (learnArgs o) vault₁).2⟩), (S.handleLearn (learnArgs o) vault₁).1⟩ := by
  have hperm := hS.learned (learnArgs o) vault₁
  have hown : o.sessionId ≠ "__proto__".toList →
      entriesOf S o.sessionId (S.handleLearn (learnArgs o) vault₁).1 =
      [⟨(S.handleLearn (learnArgs o) vault₁).2, learnArgs o⟩] := fun hproto => by
    have hself := entriesOf_learn_self hS o vault₁
    rw [hc.own hproto] at hself
    exact List.perm_singleton.mp hself
  have hothers : ∀ sid, sid ≠ o.sessionId →
      (entriesOf S sid (S.handleLearn (learnArgs o) vault₁).1).Perm
          (entriesOf S sid x.vault) := fun sid hne =>
    (entriesOf_learn_of_ne hS hne vault₁).trans (hc.others sid hne)
  refine ⟨fun sid record hrecord => ?_, fun sid hproto hnone => ?_, ?_, ?_, fun e he => ?_⟩
  · by_cases hne : sid = o.sessionId
    · subst hne
      have hproto : o.sessionId ≠ "__proto__".toList := by
        intro heq
        rw [readState_some, heq, assign_proto h.proto, h.proto] at hrecord
        cases hrecord
      rw [readState_some, Runs.get?_assign_self hproto, Option.some.injEq] at hrecord
      subst hrecord
      exact ⟨_, hown hproto, rfl, o, rfl, rfl, o, latest_concat_self hv, rfl⟩
    · rw [readState_some, Runs.get?_assign_of_ne hne] at hrecord
      obtain ⟨e, he, hid, filed, hargs, hhash, last, hlast, hsame⟩ := h.one sid record hrecord
      refine ⟨e, ?_, hid, filed, hargs, hhash,
        last, by rw [latest_concat_of_ne hv hne, hlast], hsame⟩
      have hp := hothers sid hne
      rw [he] at hp
      exact List.perm_singleton.mp hp
  · by_cases hne : sid = o.sessionId
    · subst hne
      rw [readState_some, Runs.get?_assign_self hproto] at hnone
      cases hnone
    · rw [readState_some, Runs.get?_assign_of_ne hne] at hnone
      have hp := hothers sid hne
      rw [h.unfiled sid hproto hnone] at hp
      exact List.perm_nil.mp hp
  · by_cases hne : "__proto__".toList = o.sessionId
    · rw [readState_some, ← hne, assign_proto h.proto, h.proto]
    · rw [readState_some, Runs.get?_assign_of_ne hne, h.proto]
  · rw [(hperm.map _).nodup_iff, List.map_cons, List.nodup_cons]
    refine ⟨fun hmem => ?_, hc.ids⟩
    obtain ⟨e, he, hid⟩ := List.mem_map.mp hmem
    exact hS.fresh (learnArgs o) vault₁ e he hid
  · rcases List.mem_cons.mp (hperm.mem_iff.mp he) with rfl | he
    · exact hS.named (learnArgs o) vault₁
    · exact h.named e (hc.subset he)

/-- A run that files nothing: it skips its session, or finds its turns recorded. -/
theorem Consistent.unchanged (h : Consistent S sha256 vs x) (hlatest : ∀ sid record,
    (readState x.file).get? sid = some record → OneEntry S sha256 vs x.vault sid record →
      OneEntry S sha256 (vs ++ [v]) x.vault sid record) : Consistent S sha256 (vs ++ [v]) x :=
  ⟨fun sid record hrecord => hlatest sid record hrecord (h.one sid record hrecord), h.unfiled,
    h.proto, h.ids, h.named⟩

/-- The entry of a record, and what is left when a run of its session has made room for a new
one. -/
theorem Consistent.cleared (hS : S.Lawful) (h : Consistent S sha256 vs x) (sessionId hash : Text) :
    match recaptureDecision (readState x.file) sessionId hash with
    | .skip => ∃ record, (readState x.file).get? sessionId = some record ∧ record.hash = hash
    | .write => Cleared S sessionId x.vault x.vault
    | .replace replaces => Cleared S sessionId x.vault (S.removeLearning replaces x.vault) := by
  unfold recaptureDecision
  cases hp : (readState x.file).get? sessionId with
  | none => exact ⟨fun hproto => h.unfiled sessionId hproto hp, fun _ _ => List.Perm.refl _,
    List.Subset.refl _, h.ids⟩
  | some previous =>
    obtain ⟨e, he, hid, -⟩ := h.one sessionId previous hp
    have hnamed : e.id ≠ [] := h.named e (mem_entriesOf.mp (he ▸ List.mem_singleton.mpr rfl)).1
    simp only
    split_ifs with hh
    · exact ⟨previous, rfl, hh⟩
    · rw [hid]
      simp only [if_neg hnamed]
      exact h.cleared_remove hS he

/-- **A run** keeps what holds, -/
theorem Consistent.main (hS : S.Lawful) (h : Consistent S sha256 vs x) (v : Invocation) :
    Consistent S sha256 (vs ++ [v]) (main S sha256 x v) := by
  unfold Capture.main
  cases hv : prepare v with
  | error reason =>
    refine h.unchanged fun sid record _ hone => ?_
    obtain ⟨e, he, hid, filed, hargs, hhash, last, hlast, hsame⟩ := hone
    exact ⟨e, he, hid, filed, hargs, hhash, last, by rw [latest_concat_of_error hv, hlast], hsame⟩
  | ok o =>
    have hcleared := h.cleared hS o.sessionId (contentHash sha256 o.turns)
    simp only [capture]
    cases hplan : recaptureDecision (readState x.file) o.sessionId (contentHash sha256 o.turns) with
    | skip =>
      rw [hplan] at hcleared
      obtain ⟨previous, hprevious, hhash'⟩ := hcleared
      refine h.unchanged fun sid record hrecord hone => ?_
      obtain ⟨e, he, hid, filed, hargs, hhash, last, hlast, hsame⟩ := hone
      refine ⟨e, he, hid, filed, hargs, hhash, ?_⟩
      by_cases hne : sid = o.sessionId
      · -- the turns are new, but their hash is the recorded one
        subst hne
        rw [hprevious, Option.some.injEq] at hrecord
        exact ⟨o, latest_concat_self hv, by rw [← hhash, ← hhash', hrecord]⟩
      · exact ⟨last, by rw [latest_concat_of_ne hv hne, hlast], hsame⟩
    | write =>
      rw [hplan] at hcleared
      exact h.learned hS hv hcleared
    | replace replaces =>
      rw [hplan] at hcleared
      exact h.learned hS hv hcleared

/-- The session has the record and the entries that it had. -/
structure Untouched (S : Store σ) (x x' : Disk σ) (sessionId : Text) : Prop where
  record : (readState x'.file).get? sessionId = (readState x.file).get? sessionId
  entries : (entriesOf S sessionId x'.vault).Perm (entriesOf S sessionId x.vault)

/-- and leaves the other sessions alone. -/
theorem Consistent.untouched (hS : S.Lawful) (h : Consistent S sha256 vs x) (v : Invocation)
    {sessionId : Text} (hother : ∀ o, prepare v = .ok o → sessionId ≠ o.sessionId) :
    Untouched S x (Capture.main S sha256 x v) sessionId := by
  unfold Capture.main
  cases hv : prepare v with
  | error reason => exact ⟨rfl, List.Perm.refl _⟩
  | ok o =>
    have hne := hother o hv
    have hcleared := h.cleared hS o.sessionId (contentHash sha256 o.turns)
    have hlearned : ∀ vault₁, Cleared S o.sessionId x.vault vault₁ → Untouched S x
        ⟨some (assign (readState x.file) o.sessionId ⟨contentHash sha256 o.turns, o.capturedAt,
          some (S.handleLearn (learnArgs o) vault₁).2⟩), (S.handleLearn (learnArgs o) vault₁).1⟩
              sessionId := fun vault₁ hc =>
      ⟨by rw [readState_some,
        Runs.get?_assign_of_ne hne], (entriesOf_learn_of_ne hS hne vault₁).trans (hc.others _ hne)⟩
    simp only [capture]
    cases hplan : recaptureDecision (readState x.file) o.sessionId (contentHash sha256 o.turns) with
    | skip => exact ⟨rfl, List.Perm.refl _⟩
    | write =>
      rw [hplan] at hcleared
      exact hlearned _ hcleared
    | replace replaces =>
      rw [hplan] at hcleared
      exact hlearned _ hcleared

theorem consistent_mains (hS : S.Lawful) (sha256 : JsText → Text) {vault : σ}
    (hempty : S.entries vault = [])
    (vs : List Invocation) : Consistent S sha256 vs (mains S sha256 ⟨none, vault⟩ vs) := by
  induction vs using List.reverseRecOn with
  | nil =>
    refine ⟨fun _ _ h => (nomatch h), fun _ _ _ => ?_, rfl, ?_, fun e he => ?_⟩
    · rw [entriesOf, mains, List.foldl_nil, hempty, List.filter_nil]
    · rw [mains, List.foldl_nil, hempty]
      exact List.nodup_nil
    · rw [mains, List.foldl_nil, hempty] at he
      cases he
  | append_singleton vs v ih =>
    rw [mains, List.foldl_append]
    exact ih.main hS v

/-- **One memory for each session**, after any runs that begin with an empty state and an empty
store; and a further run leaves the sessions alone that it is not for. -/
theorem one_memory (hS : S.Lawful) (sha256 : JsText → Text) {vault : σ}
    (hempty : S.entries vault = []) (vs : List Invocation) :
    OneMemory S sha256 vs (mains S sha256 ⟨none, vault⟩ vs) ∧
      ∀ v sessionId, (∀ o, prepare v = .ok o → sessionId ≠ o.sessionId) →
        Untouched S (mains S sha256 ⟨none, vault⟩ vs) (mains S sha256 ⟨none, vault⟩ (vs ++ [v]))
            sessionId := by
  have h := consistent_mains hS sha256 hempty vs
  refine ⟨h.one, fun v sessionId hother => ?_⟩
  rw [mains, mains, List.foldl_append]
  exact h.untouched hS v hother

/-! ### A sample -/

/-- An id that is longer than every other. -/
def longerId (vault : List Entry) : Text :=
  List.replicate ((vault.map (·.id.length)).foldr max 0 + 1) 'x'

theorem length_lt_longerId {vault : List Entry} {e : Entry} (he : e ∈ vault) :
    e.id.length < (longerId vault).length := by
  induction vault with
  | nil => cases he
  | cons a vault ih =>
    simp only [longerId, List.length_replicate, List.map_cons, List.foldr_cons] at ih ⊢
    rcases List.mem_cons.mp he with rfl | he
    · omega
    · have := ih he
      omega

/-- A store that is a list. -/
def sampleStore : Store (List Entry) where
  entries vault := vault
  handleLearn args vault := (⟨longerId vault, args⟩ :: vault, longerId vault)
  removeLearning id vault := vault.filter (·.id ≠ id)

theorem sampleStore_lawful : sampleStore.Lawful where
  fresh _ _ _ he hid := (length_lt_longerId he).ne (congrArg List.length hid)
  named _ _ := List.cons_ne_nil _ _
  learned _ _ := List.Perm.refl _
  removed _ _ := List.Perm.refl _

/-- The end of a session in which this had been said. -/
def sampleInvocation (said : Text) : Invocation where
  disabled := false
  input := ⟨some "/tmp/s1.jsonl".toList, some "s1".toList, none, none⟩
  argv := none
  cwd := "/work".toList
  found := true
  turns := [⟨.human, utf16 said⟩]
  capturedAt := "2026-09-02T00:00:00.000Z".toList

/-- A digest that keeps the text. -/
def sampleDigest (t : JsText) : Text := t.map fun u => Char.ofNat u.toNat

/-- The session ends, and is resumed and ends again. -/
def sampleRuns : List Invocation :=
  [sampleInvocation "Rename the catalog".toList,
    sampleInvocation "Rename the catalog, then the server".toList]

theorem one_memory_sample :
    OneMemory sampleStore sampleDigest sampleRuns
      (mains sampleStore sampleDigest ⟨none, []⟩ sampleRuns) ∧
      ((readState (mains sampleStore sampleDigest ⟨none, []⟩ sampleRuns).file).get?
          "s1".toList).isSome :=
  ⟨(one_memory sampleStore_lawful sampleDigest rfl sampleRuns).1, by decide +kernel⟩

end OracleSkills.Capture
