import OracleSkills.Concurrency.Replace
import OracleSkills.Python.Dict
import OracleSkills.Python.Text

/-!
# The state of the session captures

`session_capture_hook.ts` runs at the end of a session: it "files one Oracle learning per
human conversation" and remembers it in `session-captures.json`, a map from session ids to
records, so that a resumed session replaces its earlier entry. A run reads the whole map
(`readState`), decides (`recaptureDecision`), calls `handleLearn`, which may take long, sets
its own record and writes the whole map back, to a temporary file that it renames
(`writeState`).

Two sessions may end at about the same time. `captured_twice` says what is in the map
when both runs have written it: the records of all other sessions, the record of the run that
renamed last, and the record of the other run if and only if one of the two read the map after
the other had renamed.
-/

namespace OracleSkills.Capture

open Python Concurrency

/-! ### The hook -/

/-- `CaptureRecord`. -/
structure CaptureRecord where
  hash : Text
  capturedAt : Text
  learningId : Option Text
  deriving DecidableEq

/-- `State`, a `Record<string, CaptureRecord>`. -/
abbrev State := Dict Text CaptureRecord

/-- `RecaptureAction`. -/
inductive RecaptureAction where
  | write
  | skip
  | replace (replaces : Text)
  deriving DecidableEq

/-- `recaptureDecision`: "the newer capture replaces the older one". -/
def recaptureDecision (state : State) (sessionId hash : Text) : RecaptureAction :=
  match state.get? sessionId with
  | none => .write
  | some previous =>
    if previous.hash = hash then .skip
    else
      match previous.learningId with
      | none => .write
      | some learningId => if learningId = [] then .write else .replace learningId

/-- `readState`, of a file that holds a map, or of one that is missing or holds none. -/
def readState (file : Option State) : State := file.getD []

/-- `state[sessionId] = record`. On an object without a property `__proto__` of its own,
setting that name sets the prototype, which `JSON.stringify` does not write. -/
def assign (state : State) (sessionId : Text) (record : CaptureRecord) : State :=
  if sessionId = "__proto__".toList ∧ state.get? sessionId = none then state else
    state.set sessionId record

/-- What the calls outside give: `handleLearn` returns a result, with its `id` if it has one,
or it throws. -/
inductive Learned where
  | result (id : Option Text)
  | thrown

/-- A capture that is ready to be written: the map, the run's own record, and the learning
that it replaces. -/
structure Captured where
  state : State
  record : CaptureRecord
  replaces : Option Text

/-- Runs of the hook, each with its session, the hash of its conversation, and its time. -/
structure Runs (ι : Type*) where
  sessionId : ι → Text
  hash : ι → Text
  capturedAt : ι → Text

namespace Runs

variable {ι : Type*} (K : Runs ι)

/-- `main` between `readState` and `writeState`; `none` where the run ends without writing. -/
def capture (i : ι) (file : Option State) (learned : Learned) : Option Captured :=
  let state := readState file
  match recaptureDecision state (K.sessionId i) (K.hash i), learned with
  | .skip, _ => none
  | _, .thrown => none
  | plan, .result id =>
    let record := ⟨K.hash i, K.capturedAt i, id⟩
    some ⟨assign state (K.sessionId i) record, record, match plan with
      | .replace replaces => some replaces
      | _ => none⟩

/-- The steps of the runs: what a run renames is the map it computed. -/
def steps : Replacement ι (Option State) Learned Captured where
  compute := K.capture
  put r := some r.state

/-- The file holds the record of run `i`. -/
def Holds (file : Option State) (i : ι) (r : Captured) : Prop :=
  (readState file).get? (K.sessionId i) = some r.record

instance (file : Option State) (i : ι) (r : Captured) : Decidable (K.Holds file i r) :=
  inferInstanceAs (Decidable ((readState file).get? (K.sessionId i) = some r.record))

variable {K}

/-- What a run that has something to write has computed: the map it read with its own record,
which differs from the one that was there. -/
theorem capture_eq_some {i : ι} {file : Option State} {learned : Learned} {r : Captured}
    (h : K.capture i file learned = some r) :
    r.state = assign (readState file) (K.sessionId i) r.record ∧
      (readState file).get? (K.sessionId i) ≠ some r.record := by
  have hne : ∀ id, recaptureDecision (readState file) (K.sessionId i) (K.hash i) ≠ .skip →
      (readState file).get? (K.sessionId i) ≠ some ⟨K.hash i, K.capturedAt i, id⟩ := by
    intro id hplan hsome
    apply hplan
    rw [recaptureDecision, hsome]
    exact if_pos rfl
  simp only [capture] at h
  cases hplan : recaptureDecision (readState file) (K.sessionId i) (K.hash i) with
  | skip =>
    rw [hplan] at h
    cases h
  | write =>
    rw [hplan] at h hne
    cases learned with
    | thrown => cases h
    | result id => cases h; exact ⟨rfl, hne id (by decide)⟩
  | replace replaces =>
    rw [hplan] at h hne
    cases learned with
    | thrown => cases h
    | result id => cases h; exact ⟨rfl, hne id (fun hx => nomatch hx)⟩

theorem get?_assign_self {state : State} {sid : Text} (h : sid ≠ "__proto__".toList)
    (record : CaptureRecord) :
    (assign state sid record).get? sid = some record := by
  rw [assign, if_neg fun hx => h hx.1, Dict.get?_set_self]

theorem get?_assign_of_ne {state : State} {sid sid' : Text} (h : sid' ≠ sid)
    (record : CaptureRecord) :
    (assign state sid record).get? sid' = state.get? sid' := by
  rw [assign]
  split_ifs
  · rfl
  · exact Dict.get?_set_of_ne _ h _

variable [DecidableEq ι] {file : Option State} {tr : List (ι × Replacement.Event Learned)}
  {s : Sys ι (Option State) (Replacement.Phase (Option State) Captured)}

/-- The map a run has written, from the one it read. -/
theorem state_of_done (h : K.steps.protocol.run (Replacement.init file) tr = some s) {i : ι}
    {v : Option State} {r : Captured} (hi : s.loc i = .done v r) :
    r.state = assign (readState v) (K.sessionId i) r.record ∧
        (readState v).get? (K.sessionId i) ≠ some r.record := by
  obtain ⟨x, hx⟩ := (Replacement.inv_run h).computed i v r (by rw [hi]; exact ⟨rfl, rfl⟩)
  exact capture_eq_some hx

/-! ### Two runs -/

section

variable {p q : ι} {vp vq : Option State} {rp rq : Captured}

/-- Where one run reads after the other has renamed, the map holds both records. -/
theorem holds_of_readAfter (hall : ∀ i, i = p ∨ i = q) (hne : K.sessionId p ≠ K.sessionId q)
    (hproto : ∀ i, K.sessionId i ≠ "__proto__".toList)
    (h : K.steps.protocol.run (Replacement.init file) tr = some s)
    (hp : s.loc p = .done vp rp) (hq : s.loc q = .done vq rq)
    (hafter : Replacement.ReadAfter K.steps file tr q p) :
    K.Holds s.shared p rp ∧ K.Holds s.shared q rq ∧
      ∀ sid, sid ≠ K.sessionId p → sid ≠ K.sessionId q →
          (readState s.shared).get? sid = (readState file).get? sid := by
  obtain ⟨rfl, hvq, hs⟩ := Replacement.results_of_readAfter hall h hp hq hafter
  have hsp := (state_of_done h hp).1
  have hsq := (state_of_done h hq).1
  have hread : readState vq = rp.state := by rw [hvq]; rfl
  have hfinal : readState s.shared = rq.state := by rw [hs]; rfl
  rw [hread] at hsq
  refine ⟨?_, ?_, fun sid h1 h2 => ?_⟩
  · rw [Holds, hfinal, hsq, get?_assign_of_ne hne, hsp, get?_assign_self (hproto p)]
  · rw [Holds, hfinal, hsq, get?_assign_self (hproto q)]
  · rw [hfinal, hsq, get?_assign_of_ne h2, hsp, get?_assign_of_ne h1]

/-- Where the two runs overlap and `q` renames last, the map holds the record of `q` and not
that of `p`. -/
theorem holds_of_overlap (hne : K.sessionId p ≠ K.sessionId q)
    (hproto : ∀ i, K.sessionId i ≠ "__proto__".toList)
    (h : K.steps.protocol.run (Replacement.init file) tr = some s) (hp : s.loc p = .done file rp)
    (hq : s.loc q = .done file rq) (hs : s.shared = K.steps.put rq) :
    ¬ K.Holds s.shared p rp ∧ K.Holds s.shared q rq ∧
      ∀ sid, sid ≠ K.sessionId p → sid ≠ K.sessionId q →
          (readState s.shared).get? sid = (readState file).get? sid := by
  have hsp := (state_of_done h hp).2
  have hsq := (state_of_done h hq).1
  have hfinal : readState s.shared = rq.state := by rw [hs]; rfl
  refine ⟨?_, ?_, fun sid h1 h2 => ?_⟩
  · rw [Holds, hfinal, hsq, get?_assign_of_ne hne]
    exact hsp
  · rw [Holds, hfinal, hsq, get?_assign_self (hproto q)]
  · rw [hfinal, hsq, get?_assign_of_ne h2]

end

/-- **Two captures of different sessions**: when both runs have written the map, it holds
every record of other sessions that was there, and the record of at least one of the
two. It holds both if and only if one of the two read the map after the other had renamed. -/
theorem captured_twice (K : Runs ι) {p q : ι} (hall : ∀ i, i = p ∨ i = q)
    (hne : K.sessionId p ≠ K.sessionId q)
    (hproto : ∀ i, K.sessionId i ≠ "__proto__".toList) (file : Option State)
    (tr : List (ι × Replacement.Event Learned))
    (s : Sys ι (Option State) (Replacement.Phase (Option State) Captured))
    (h : K.steps.protocol.run (Replacement.init file) tr = some s) {vp vq : Option State}
    {rp rq : Captured}
    (hp : s.loc p = .done vp rp) (hq : s.loc q = .done vq rq) :
    (∀ sid, sid ≠ K.sessionId p → sid ≠ K.sessionId q →
      (readState s.shared).get? sid = (readState file).get? sid) ∧
    (K.Holds s.shared p rp ∨ K.Holds s.shared q rq) ∧
    (K.Holds s.shared p rp ∧ K.Holds s.shared q rq ↔
      Replacement.ReadAfter K.steps file tr q p ∨ Replacement.ReadAfter K.steps file tr p q) := by
  have hall' : ∀ i, i = q ∨ i = p := fun i => (hall i).symm
  by_cases hqp : Replacement.ReadAfter K.steps file tr q p
  · obtain ⟨h1, h2, h3⟩ := holds_of_readAfter hall hne hproto h hp hq hqp
    exact ⟨h3, Or.inl h1, fun _ => Or.inl hqp, fun _ => ⟨h1, h2⟩⟩
  · by_cases hpq : Replacement.ReadAfter K.steps file tr p q
    · obtain ⟨h1, h2, h3⟩ := holds_of_readAfter hall' hne.symm hproto h hq hp hpq
      exact ⟨fun sid hs1 hs2 => h3 sid hs2 hs1, Or.inl h2, fun _ => Or.inr hpq, fun _ => ⟨h2, h1⟩⟩
    · -- both worked on the first map
      obtain ⟨hvp, hvq, hs⟩ := Replacement.results_of_overlap hall h hp hq hqp hpq
      rw [hvp] at hp
      rw [hvq] at hq
      have hno : ¬ (Replacement.ReadAfter K.steps file tr q p ∨
          Replacement.ReadAfter K.steps file tr p q) :=
        not_or.mpr ⟨hqp, hpq⟩
      rcases hs with hs | hs
      · obtain ⟨h1, h2, h3⟩ := holds_of_overlap hne.symm hproto h hq hp hs
        exact ⟨fun sid hs1 hs2 => h3 sid hs2 hs1, Or.inl h2, fun hb => absurd hb.2 h1,
          fun hx => absurd hx hno⟩
      · obtain ⟨h1, h2, h3⟩ := holds_of_overlap hne hproto h hp hq hs
        exact ⟨h3, Or.inr h2, fun hb => absurd hb.1 h1, fun hx => absurd hx hno⟩

/-! ### A sample -/

/-- Two sessions. -/
def sample : Runs Bool where
  sessionId i := bif i then "s2".toList else "s1".toList
  hash i := bif i then "h2".toList else "h1".toList
  capturedAt _ := "2026-08-20T00:00:00.000Z".toList

/-- Both runs read the map, which is empty, before one of them renames. -/
def overlapTrace : List (Bool × Replacement.Event Learned) :=
  [(false, .read), (true, .read)] ++
    (Replacement.finish false (.result none) ++ Replacement.finish true (.result none))

/-- The record of a run of the sample. -/
def sampleRecord (i : Bool) : CaptureRecord := ⟨sample.hash i, sample.capturedAt i, none⟩

/-- What a run of the sample writes, from an empty map. -/
def sampleCaptured (i : Bool) : Captured :=
  ⟨[(sample.sessionId i, sampleRecord i)], sampleRecord i, none⟩

/-- The end of that run. -/
def overlapEnd : Sys Bool (Option State) (Replacement.Phase (Option State) Captured) :=
  ⟨some (sampleCaptured true).state, fun i => .done none (sampleCaptured i)⟩

theorem overlapTrace_run :
    sample.steps.protocol.run (Replacement.init none) overlapTrace = some overlapEnd := by
  have hread : sample.steps.protocol.run (Replacement.init none) [(false, .read), (true, .read)] =
      some ⟨none, fun _ => .loaded none⟩ := by
    apply congrArg some
    rw [Sys.mk.injEq]
    refine ⟨rfl, funext fun i => ?_⟩
    cases i <;> rfl
  have hfirst : sample.steps.compute false none (.result none) = some (sampleCaptured false) := rfl
  have hsecond : sample.steps.compute true none (.result none) = some (sampleCaptured true) := rfl
  rw [overlapTrace, Protocol.run_append, hread, Option.bind_some, Protocol.run_append,
    Replacement.run_finish rfl hfirst, Option.bind_some, Replacement.run_finish rfl hsecond,
    Option.some.injEq, overlapEnd, Sys.mk.injEq]
  refine ⟨rfl, funext fun i => ?_⟩
  cases i <;> rfl

theorem captured_twice_sample :
    (∀ sid, sid ≠ "s1".toList → sid ≠ "s2".toList →
      (readState overlapEnd.shared).get? sid = (readState none).get? sid) ∧
    (sample.Holds overlapEnd.shared false (sampleCaptured false) ∨
      sample.Holds overlapEnd.shared true (sampleCaptured true)) ∧
    (sample.Holds overlapEnd.shared false (sampleCaptured false) ∧
        sample.Holds overlapEnd.shared true (sampleCaptured true) ↔
      Replacement.ReadAfter sample.steps none overlapTrace true false ∨
        Replacement.ReadAfter sample.steps none overlapTrace false true) :=
  captured_twice sample (p := false) (q := true) (by decide) (by decide)
    (by decide) none overlapTrace overlapEnd
    overlapTrace_run rfl rfl

/-- Both runs end with a learning written, and the record of the first is lost. -/
theorem not_holds_both :
    ¬ ∀ (K : Runs Bool) (file : Option State) (tr : List (Bool × Replacement.Event Learned))
      (s : Sys Bool (Option State) (Replacement.Phase (Option State) Captured))
        (v₀ v₁ : Option State)
      (r₀ r₁ : Captured), K.sessionId false ≠ K.sessionId true →
      K.steps.protocol.run (Replacement.init file) tr = some s → s.loc false = .done v₀ r₀ →
        s.loc true = .done v₁ r₁ →
      K.Holds s.shared false r₀ ∧ K.Holds s.shared true r₁ ∧
        ∀ sid, sid ≠ K.sessionId false → sid ≠ K.sessionId true →
          ∀ r, (readState file).get? sid = some r →
          (readState s.shared).get? sid = some r := by
  intro hall
  have h := hall sample none overlapTrace overlapEnd _ _ _ _ (by decide) overlapTrace_run rfl rfl
  exact absurd h.1 (by decide)

end Runs

end OracleSkills.Capture
