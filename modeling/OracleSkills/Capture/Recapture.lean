import OracleSkills.Capture.State
import OracleSkills.Capture.Turns
import OracleSkills.Concurrency.Machine
import OracleSkills.Files.Tree

/-!
# A recapture that fails

`session_capture_hook.ts` from `recaptureDecision` on, call by call, where each may fail or be the
last. A resumed session "replaces its earlier entry": `removeLearning` deletes its rows in the index
and its markdown, `learnWithRetry` calls `handleLearn` up to five times and removes "whatever the
failed attempt left behind", and `writeState` renames the new state into place. The old entry goes
before the new one is there.

`recapture_keeps_iff`: the entry and its record are there after every call until the new record is
written, if and only if the `DELETE` is not executed and no clean-up takes the entry's markdown for
an orphan.
-/

namespace OracleSkills.Capture

open Python Files Concurrency

/-! ### The index and the files -/

/-- A row of `oracle_documents`, as far as the hook looks at it. -/
structure Row where
  id : Text
  sourceFile : Text
deriving DecidableEq

/-- `oracle_documents`, whose key is `id`. -/
structure Index where
  rows : List Row
  ids : (rows.map Row.id).Nodup

/-- `SELECT source_file FROM oracle_documents WHERE id = ?`. -/
def Index.select (x : Index) (id : Text) : Option Text :=
  (x.rows.find? (·.id = id)).map Row.sourceFile

/-- `DELETE FROM oracle_documents WHERE source_file = ?`. -/
def Index.delete (x : Index) (sourceFile : Text) : Index where
  rows := x.rows.filter (·.sourceFile ≠ sourceFile)
  ids := x.ids.sublist (List.filter_sublist.map _)

/-- A new row. -/
def Index.insert (x : Index) (row : Row) : Option Index :=
  if h : row.id ∉ x.rows.map Row.id then
    some ⟨row :: x.rows, List.nodup_cons.mpr ⟨h, x.ids⟩⟩ else none

/-- The state file, and the vault: the index and the files. -/
structure Vault where
  file : Option State
  index : Index
  files : Tree Text Text

/-- `path.join(root, rel)`. -/
def pathJoin (root : Path Text) (rel : Text) : Path Text :=
  (rel.splitOn '/').foldl (fun p segment =>
    if segment = [] ∨ segment = ".".toList then p
    else if segment = "..".toList then p.dropLast
    else p ++ [segment]) root

/-- `path.join(repoRoot, 'ψ/memory/learnings')`. -/
def learningsDir (repoRoot : Path Text) : Path Text := pathJoin repoRoot "ψ/memory/learnings".toList

/-- `fs.readdirSync(dir)`; a directory that is empty or missing has no names. -/
def readdir (files : Tree Text Text) (dir : Path Text) : List Text := (files.below dir).names

/-- `fs.rmSync(p, { force: true })`, which throws at a directory. -/
def rmSync (files : Tree Text Text) (p : Path Text) : Option (Tree Text Text) :=
  if (files.get? p).isSome then some (files.without p)
  else if (files.below p).files = [] then some files
  else none

/-! ### The run -/

/-- What a run of the hook is about to do. -/
inductive Phase where
  /-- `import` `handlers.ts`. -/
  | decided (replaces : Option Text)
  /-- `import` `db/index.ts`. -/
  | removing (learningId : Text)
  | opened (learningId : Text)
  | selected (sourceFile : Text)
  | deleted (sourceFile : Text)
  | learning (attempt : ℕ)
  | listed (attempt : ℕ) (before : List Text)
  /-- `handleLearn` has thrown. -/
  | thrown (attempt : ℕ) (before : List Text) (message : Text)
  /-- These names are to be removed. -/
  | cleaning (attempt : ℕ) (names : List Text) (message : Text)
  | learned (learningId : Text)
  /-- The temporary file is written. -/
  | written (learningId : Text)
  | done
  | skipped
  | failed
deriving DecidableEq

/-- A run, after the calls it has made. -/
structure Recapture where
  vault : Vault
  /-- `readState()`. -/
  state : State
  phase : Phase

/-- What a call comes to. -/
inductive Call where
  | returns
  | throws
  /-- `handleLearn` files an entry, -/
  | learns (row : Row) (markdown : Text)
  /-- or throws, and may leave the markdown of one. -/
  | throwsLearning (message : Text) (orphan : Option (Text × Text))

/-- `attempts`. -/
def attempts : ℕ := 5

/-- `/database is locked/i`. -/
def isLocked (message : Text) : Bool :=
  (cut "database is locked".toList (message.map Char.toLower)).isSome

section

variable (repoRoot : Path Text) (sha256 : JsText → Text) (o : FormatOptions)

/-- The run after `recaptureDecision`. -/
def afterDecision (v : Vault) : Recapture where
  vault := v
  state := readState v.file
  phase :=
    match recaptureDecision (readState v.file) o.sessionId (contentHash sha256 o.turns) with
    | .skip => .skipped
    | .write => .decided none
    | .replace replaces => .decided (some replaces)

/-- `state[sessionId] = …` and `writeState`. -/
def renewed (state : State) (learningId : Text) : State :=
  assign state o.sessionId ⟨contentHash sha256 o.turns, o.capturedAt, some learningId⟩

/-- The markdown that a failed attempt has left. -/
def leaves (files : Tree Text Text) : Option (Text × Text) → Option (Tree Text Text)
  | none => some files
  | some (name, markdown) => files.create (learningsDir repoRoot ++ [name]) markdown

/-- `main` from `recaptureDecision` on, with what its next call comes to. -/
def Recapture.step (r : Recapture) (call : Call) : Option Recapture :=
  match r.phase, call with
  | .decided (some learningId), .returns => some { r with phase := .removing learningId }
  | .decided none, .returns => some { r with phase := .learning 1 }
  | .decided _, .throws => some { r with phase := .failed }
  -- `removeLearning` catches what it throws: "a failed cleanup must not stop the new capture"
  | .removing learningId, .returns => some { r with phase := .opened learningId }
  | .opened learningId, .returns =>
    match r.vault.index.select learningId with
    | none => some { r with phase := .learning 1 }
    | some sourceFile => some { r with phase := if sourceFile = [] then .learning 1 else .selected sourceFile }
  | .selected sourceFile, .returns =>
    some { r with vault := { r.vault with index := r.vault.index.delete sourceFile }, phase := .deleted sourceFile }
  | .deleted sourceFile, .returns =>
    (rmSync r.vault.files (pathJoin repoRoot sourceFile)).map fun files =>
      { r with vault := { r.vault with files }, phase := .learning 1 }
  | .removing _, .throws | .opened _, .throws | .selected _, .throws | .deleted _, .throws =>
    some { r with phase := .learning 1 }
  -- `safeReaddir` gives no names if it fails
  | .learning attempt, .returns => some { r with phase := .listed attempt (readdir r.vault.files (learningsDir repoRoot)) }
  | .learning attempt, .throws => some { r with phase := .listed attempt [] }
  | .listed _ _, .learns row markdown =>
    (r.vault.index.insert row).bind fun index =>
      (r.vault.files.create (pathJoin repoRoot row.sourceFile) markdown).map fun files =>
        { r with vault := { r.vault with index, files }, phase := .learned row.id }
  | .listed attempt before, .throwsLearning message orphan =>
    (leaves repoRoot r.vault.files orphan).map fun files =>
      { r with vault := { r.vault with files }, phase := .thrown attempt before message }
  | .thrown attempt before message, .returns =>
    let names := (readdir r.vault.files (learningsDir repoRoot)).filter (· ∉ before)
    some { r with phase := .cleaning attempt names message }
  | .thrown attempt _ message, .throws => some { r with phase := .cleaning attempt [] message }
  | .cleaning attempt (name :: names) message, .returns =>
    (rmSync r.vault.files (learningsDir repoRoot ++ [name])).map fun files =>
      { r with vault := { r.vault with files }, phase := .cleaning attempt names message }
  | .cleaning _ (_ :: _) _, .throws => some { r with phase := .failed }
  | .cleaning attempt [] message, .returns =>
    some { r with phase := if isLocked message ∧ attempt < attempts then .learning (attempt + 1) else .failed }
  | .learned learningId, .returns => some { r with phase := .written learningId }
  | .written learningId, .returns =>
    some { r with vault := { r.vault with file := some (renewed sha256 o r.state learningId) }, phase := .done }
  | .learned _, .throws | .written _, .throws => some { r with phase := .failed }
  | _, _ => none

/-- The runs. -/
def recapture : Machine Recapture Call := ⟨Recapture.step repoRoot sha256 o⟩

end

/-! ### What is to be kept -/

/-- The entry of a session: its record, the rows of its source file, and its markdown. -/
structure Filing where
  record : CaptureRecord
  id : Text
  sourceFile : Text
  rows : List Row
  markdown : Text
  /-- The record describes the entry, -/
  described : record.learningId = some id
  /-- whose base row this is. -/
  base : ⟨id, sourceFile⟩ ∈ rows

/-- The entry is in the vault, and the record in the state. -/
structure Kept (repoRoot : Path Text) (sessionId : Text) (f : Filing) (v : Vault) : Prop where
  recorded : (readState v.file).get? sessionId = some f.record
  indexed : v.index.rows.filter (·.sourceFile = f.sourceFile) = f.rows
  filed : v.files.get? (pathJoin repoRoot f.sourceFile) = some f.markdown

/-- The new entry is written, or the old one is there. -/
def Safe (repoRoot : Path Text) (sessionId : Text) (f : Filing) (r : Recapture) : Prop :=
  r.phase = .done ∨ Kept repoRoot sessionId f r.vault

/-- The `DELETE` is not executed, and what is removed after a failed attempt is not the entry's
markdown. -/
def Spares (repoRoot : Path Text) (f : Filing) (r : Recapture) (call : Call) : Prop :=
  match r.phase, call with
  | .selected _, .returns => False
  | .cleaning _ (name :: _) _, .returns =>
    learningsDir repoRoot ++ [name] ≠ pathJoin repoRoot f.sourceFile
  | _, _ => True

variable {repoRoot : Path Text} {sha256 : JsText → Text} {o : FormatOptions} {sessionId : Text}
  {f : Filing}
  {v v' : Vault} {r r' : Recapture} {call : Call} {x x' : Index} {row : Row} {t t' : Tree Text Text}
  {p q : Path Text} {markdown : Text}

/-! ### The calls -/

theorem mem_insert (h : x.insert row = some x') : x'.rows = row :: x.rows := by
  unfold Index.insert at h
  split_ifs at h
  cases h
  rfl

/-- The row of an id is selected. -/
theorem select_of_mem {id sourceFile : Text} (h : ⟨id, sourceFile⟩ ∈ x.rows) :
    x.select id = some sourceFile := by
  unfold Index.select
  cases hf : x.rows.find? (·.id = id) with
  | none => exact absurd (List.find?_eq_none.mp hf _ h) (by simp)
  | some row =>
    have hid : row.id = id := by simpa using List.find?_some hf
    rw [List.inj_on_of_nodup_map x.ids (List.mem_of_find?_eq_some hf) h hid]
    rfl

theorem rmSync_cases (h : rmSync t p = some t') :
    t' = t ∨ (t.get? p).isSome ∧ t' = t.without p := by
  unfold rmSync at h
  split_ifs at h with hp hd
  · cases h
    exact Or.inr ⟨hp, rfl⟩
  · cases h
    exact Or.inl rfl

/-- Another file is left alone. -/
theorem get?_rmSync_of_ne (h : rmSync t p = some t') (hne : p ≠ q) (hq : t.get? q = some markdown) :
    t'.get? q = some markdown := by
  rcases rmSync_cases h with rfl | ⟨hp, rfl⟩
  · exact hq
  · obtain ⟨y, hy⟩ := Option.isSome_iff_exists.mp hp
    rw [Tree.get?_eq_some_iff] at hq hy ⊢
    -- `p` is a file, and no directory above `q`
    exact Tree.mem_without.mpr ⟨hq, fun hpq => hne (t.free _ hy _ hq hpq)⟩

theorem get?_rmSync_self (h : rmSync t p = some t') : t'.get? p = none := by
  rw [Option.eq_none_iff_forall_ne_some]
  intro y hy
  rcases rmSync_cases h with rfl | ⟨-, rfl⟩
  · unfold rmSync at h
    rw [hy, Option.isSome_some, if_pos rfl, Option.some.injEq] at h
    rw [← h, Tree.get?_eq_some_iff, Tree.mem_without] at hy
    exact hy.2 (List.prefix_refl _)
  · rw [Tree.get?_eq_some_iff, Tree.mem_without] at hy
    exact hy.2 (List.prefix_refl _)

theorem get?_create (h : t.create p markdown = some t') {old : Text} (hq : t.get? q = some old) :
    t'.get? q = some old := by
  rw [Tree.get?_eq_some_iff] at hq ⊢
  exact (Tree.mem_create h).mpr (Or.inr hq)

theorem get?_leaves {orphan : Option (Text × Text)} (h : leaves repoRoot t orphan = some t')
    {old : Text} (hq : t.get? q = some old) : t'.get? q = some old := by
  cases orphan with
  | none =>
    cases h
    exact hq
  | some nm => exact get?_create h hq

/-! ### What a call does -/

/-- The run has no entry in hand. -/
def Phase.Idle : Phase → Prop
  | .learning _ | .listed _ _ | .thrown _ _ _ | .cleaning _ _ _ | .failed => True
  | _ => False

/-- What a call does to the vault, and where it leads. -/
inductive Effect (repoRoot : Path Text) (sha256 : JsText → Text) (o : FormatOptions) (r : Recapture)
    (call : Call) (r' : Recapture) : Prop where
  | idles (h : r'.vault = r.vault) (hidle : r'.phase.Idle)
  | removes (id : Text) (hphase : r.phase = .decided (some id)) (h : r'.vault = r.vault)
    (hphase' : r'.phase = .removing id)
  | opens (id : Text) (hphase : r.phase = .removing id) (h : r'.vault = r.vault)
    (hphase' : r'.phase = .opened id)
  | selects (id sourceFile : Text) (hphase : r.phase = .opened id)
      (hselect : r.vault.index.select id = some sourceFile)
      (h : r'.vault = r.vault) (hphase' : r'.phase = .selected sourceFile)
  | deletes (sourceFile : Text) (hphase : r.phase = .selected sourceFile) (hcall : call = .returns)
      (h : r'.vault = { r.vault with index := r.vault.index.delete sourceFile })
        (hphase' : r'.phase = .deleted sourceFile)
  | unlinks (sourceFile : Text) (files : Tree Text Text) (hphase : r.phase = .deleted sourceFile)
      (hfiles : rmSync r.vault.files (pathJoin repoRoot sourceFile) = some files)
      (h : r'.vault = { r.vault with files := files }) (hidle : r'.phase.Idle)
  | cleans (attempt : ℕ) (name : Text) (names : List Text) (message : Text) (files : Tree Text Text)
      (hphase : r.phase = .cleaning attempt (name :: names) message) (hcall : call = .returns)
      (hfiles : rmSync r.vault.files (learningsDir repoRoot ++ [name]) = some files)
      (h : r'.vault = { r.vault with files := files }) (hidle : r'.phase.Idle)
  | learns (row : Row) (markdown : Text) (index : Index) (files : Tree Text Text)
      (hindex : r.vault.index.insert row = some index)
      (hfiles : r.vault.files.create (pathJoin repoRoot row.sourceFile) markdown = some files)
      (h : r'.vault = { r.vault with index := index, files := files })
        (hphase' : r'.phase = .learned row.id)
  | leaves (orphan : Option (Text × Text)) (files : Tree Text Text)
      (hfiles : Capture.leaves repoRoot r.vault.files orphan = some files)
      (h : r'.vault = { r.vault with files := files }) (hidle : r'.phase.Idle)
  | writes (id : Text) (hphase : r.phase = .learned id) (h : r'.vault = r.vault)
    (hphase' : r'.phase = .written id)
  | renames (id : Text) (hphase : r.phase = .written id)
      (h : r'.vault = { r.vault with file := some (renewed sha256 o r.state id) })
        (hphase' : r'.phase = .done)

theorem step_effect (h : r.step repoRoot sha256 o call = some r') :
    Effect repoRoot sha256 o r call r' := by
  obtain ⟨vault, state, phase⟩ := r
  cases phase with
  | decided replaces =>
    cases replaces <;> cases call <;> cases h
    · exact .idles rfl trivial
    · exact .idles rfl trivial
    · exact .removes _ rfl rfl rfl
    · exact .idles rfl trivial
  | removing id =>
    cases call <;> cases h
    · exact .opens id rfl rfl rfl
    · exact .idles rfl trivial
  | opened id =>
    cases call with
    | returns =>
      simp only [Recapture.step] at h
      split at h
      · cases h
        exact .idles rfl trivial
      · next sourceFile hselect =>
        split_ifs at h <;> cases h
        · exact .idles rfl trivial
        · exact .selects id sourceFile rfl hselect rfl rfl
    | throws =>
      cases h
      exact .idles rfl trivial
    | learns => cases h
    | throwsLearning => cases h
  | selected sourceFile =>
    cases call <;> cases h
    · exact .deletes sourceFile rfl rfl rfl rfl
    · exact .idles rfl trivial
  | deleted sourceFile =>
    cases call with
    | returns =>
      obtain ⟨files, hfiles, rfl⟩ := Option.map_eq_some_iff.mp h
      exact .unlinks sourceFile files rfl hfiles rfl trivial
    | throws =>
      cases h
      exact .idles rfl trivial
    | learns => cases h
    | throwsLearning => cases h
  | listed attempt before =>
    cases call with
    | returns => cases h
    | throws => cases h
    | learns row markdown =>
      obtain ⟨index, hindex, h⟩ := Option.bind_eq_some_iff.mp h
      obtain ⟨files, hfiles, rfl⟩ := Option.map_eq_some_iff.mp h
      exact .learns row markdown index files hindex hfiles rfl rfl
    | throwsLearning message orphan =>
      obtain ⟨files, hfiles, rfl⟩ := Option.map_eq_some_iff.mp h
      exact .leaves orphan files hfiles rfl trivial
  | cleaning attempt names message =>
    cases names with
    | nil =>
      cases call <;> cases h
      refine .idles rfl ?_
      show Phase.Idle (if _ then _ else _)
      split_ifs <;> trivial
    | cons name names =>
      cases call with
      | returns =>
        obtain ⟨files, hfiles, rfl⟩ := Option.map_eq_some_iff.mp h
        exact .cleans attempt name names message files rfl rfl hfiles rfl trivial
      | throws =>
        cases h
        exact .idles rfl trivial
      | learns => cases h
      | throwsLearning => cases h
  | learned id =>
    cases call <;> cases h
    · exact .writes id rfl rfl rfl
    · exact .idles rfl trivial
  | written id =>
    cases call <;> cases h
    · exact .renames id rfl rfl rfl
    · exact .idles rfl trivial
  | learning | thrown => cases call <;> cases h <;> exact .idles rfl trivial
  | done | skipped | failed => cases call <;> cases h

/-! ### What a call does to the entry -/

theorem Kept.base_mem (h : Kept repoRoot sessionId f v) : ⟨f.id, f.sourceFile⟩ ∈ v.index.rows :=
  List.mem_of_mem_filter (h.indexed ▸ f.base)

/-- A new entry has another source file: its markdown is new. -/
theorem Kept.learns (h : Kept repoRoot sessionId f v) {index : Index}
    (hindex : v.index.insert row = some index)
    (hfiles : v.files.create (pathJoin repoRoot row.sourceFile) markdown = some t) :
    Kept repoRoot sessionId f { v with index := index, files := t } where
  recorded := h.recorded
  indexed := by
    have hne : row.sourceFile ≠ f.sourceFile := by
      intro heq
      refine Tree.ne_of_create hfiles (Tree.get?_eq_some_iff.mp h.filed) ?_
      rw [heq]
    show index.rows.filter _ = _
    rw [mem_insert hindex, List.filter_cons_of_neg (by simpa using hne), h.indexed]
  filed := get?_create hfiles h.filed

/-- After the `DELETE` the entry is not in the index. -/
theorem not_kept_delete (h : v.index.rows = (x.delete f.sourceFile).rows) :
    ¬ Kept repoRoot sessionId f v := by
  intro hkept
  have hbase := hkept.base_mem
  rw [h] at hbase
  simpa using List.of_mem_filter hbase

/-! ### What a run is about to do -/

/-- What is to be removed is the entry. -/
def Tracks (f : Filing) : Phase → Prop
  | .decided (some learningId) | .removing learningId | .opened learningId => learningId = f.id
  | .selected sourceFile => sourceFile = f.sourceFile
  | .deleted _ => False
  | _ => True

theorem tracks_afterDecision (h : Kept repoRoot o.sessionId f v) :
    Tracks f (afterDecision sha256 o v).phase := by
  simp only [afterDecision, recaptureDecision, h.recorded, f.described]
  split_ifs <;> trivial

theorem Phase.Idle.tracks {phase : Phase} (h : phase.Idle) : Tracks f phase := by
  cases phase <;> trivial

/-- The next call is about the entry as long as the entry is there. -/
theorem tracks_step (hr : Tracks f r.phase) (hsafe : Safe repoRoot o.sessionId f r)
    (h : r.step repoRoot sha256 o call = some r')
    (hsafe' : Safe repoRoot o.sessionId f r') : Tracks f r'.phase := by
  cases step_effect h with
  | idles _ hidle => exact hidle.tracks
  | removes id hphase _ hphase' | opens id hphase _ hphase' =>
    rw [hphase] at hr
    rw [hphase']
    exact hr
  | selects id sourceFile hphase hselect _ hphase' =>
    have hkept : Kept repoRoot o.sessionId f r.vault := hsafe.resolve_left fun he => by
      rw [hphase] at he; cases he
    rw [hphase] at hr
    rw [show id = f.id from hr, select_of_mem hkept.base_mem, Option.some.injEq] at hselect
    rw [hphase']
    exact hselect.symm
  | deletes sourceFile hphase _ hv hphase' =>
    rw [hphase] at hr
    have hkept : Kept repoRoot o.sessionId f r'.vault := hsafe'.resolve_left fun he => by
      rw [hphase'] at he; cases he
    rw [show sourceFile = f.sourceFile from hr] at hv
    exact absurd hkept (not_kept_delete (congrArg (fun v => v.index.rows) hv))
  | unlinks _ _ _ _ _ hidle => exact hidle.tracks
  | cleans _ _ _ _ _ _ _ _ _ hidle => exact hidle.tracks
  | learns _ _ _ _ _ _ _ hphase' => rw [hphase']; trivial
  | leaves _ _ _ _ hidle => exact hidle.tracks
  | writes _ _ _ hphase' => rw [hphase']; trivial
  | renames _ _ _ hphase' => rw [hphase']; trivial

/-- A call that spares the entry leaves it there, or the new one written, -/
theorem safe_step (hr : Tracks f r.phase) (hsafe : Safe repoRoot sessionId f r)
    (hspares : Spares repoRoot f r call)
    (h : r.step repoRoot sha256 o call = some r') : Safe repoRoot sessionId f r' := by
  have hkept : Kept repoRoot sessionId f r.vault := by
    refine hsafe.resolve_left fun hdone => ?_
    simp [Recapture.step, hdone] at h
  have hsame : r'.vault = r.vault → Safe repoRoot sessionId f r' := fun hv => Or.inr (hv ▸ hkept)
  cases step_effect h with
  | idles hv | removes _ _ hv | opens _ _ hv | selects _ _ _ _ hv | writes _ _ hv => exact hsame hv
  | deletes sourceFile hphase hcall =>
    simp [Spares, hphase, hcall] at hspares
  | unlinks sourceFile _ hphase =>
    rw [hphase] at hr
    exact hr.elim
  | cleans _ name names _ files hphase hcall hfiles hv =>
    simp only [Spares, hphase, hcall] at hspares
    refine Or.inr ?_
    rw [hv]
    exact ⟨hkept.recorded, hkept.indexed, get?_rmSync_of_ne hfiles hspares hkept.filed⟩
  | learns row markdown index files hindex hfiles hv =>
    exact Or.inr (hv ▸ hkept.learns hindex hfiles)
  | leaves orphan files hfiles hv =>
    refine Or.inr ?_
    rw [hv]
    exact ⟨hkept.recorded, hkept.indexed, get?_leaves hfiles hkept.filed⟩
  | renames _ _ _ hphase' => exact Or.inl hphase'

/-- and one that does not, removes it. -/
theorem spares_of_safe (hr : Tracks f r.phase) (hsafe : Safe repoRoot sessionId f r)
    (h : ∀ r', r.step repoRoot sha256 o call = some r' → Safe repoRoot sessionId f r') :
    Spares repoRoot f r call := by
  obtain ⟨vault, state, phase⟩ := r
  unfold Spares
  split
  · next sf hphase =>
    obtain rfl : phase = .selected sf := hphase
    obtain rfl : sf = f.sourceFile := hr
    exact not_kept_delete rfl ((h _ rfl).resolve_left fun he => nomatch he)
  · next k name names message hphase =>
    obtain rfl : phase = .cleaning k (name :: names) message := hphase
    have hkept := hsafe.resolve_left fun he => nomatch he
    intro heq
    -- the entry's markdown is a file, and is removed
    have hrm : rmSync vault.files (learningsDir repoRoot ++ [name]) =
        some (vault.files.without (pathJoin repoRoot f.sourceFile)) := by
      rw [rmSync, heq, hkept.filed]
      rfl
    have hgone := (h _ (congrArg (Option.map _) hrm)).resolve_left fun he => nomatch he
    rw [heq] at hrm
    have hnone := get?_rmSync_self hrm
    rw [hgone.filed] at hnone
    cases hnone
  · trivial

/-- **A call** leaves the entry there, or the new one written, exactly if it spares it. -/
theorem spares_iff (hr : Tracks f r.phase) (hsafe : Safe repoRoot sessionId f r) :
    Spares repoRoot f r call ↔ ∀ r', r.step repoRoot sha256 o call = some r' →
        Safe repoRoot sessionId f r' :=
  ⟨fun hspares _ h => safe_step hr hsafe hspares h, fun h => spares_of_safe hr hsafe h⟩

/-! ### Every run -/

/-- **The old entry and its record are kept** until the new record is written, if and only if every
call of the run spares the entry. -/
theorem recapture_keeps_iff (repoRoot : Path Text) (sha256 : JsText → Text) (o : FormatOptions)
    (f : Filing) (v : Vault) (h : Kept repoRoot o.sessionId f v) (calls : List Call) :
    (recapture repoRoot sha256 o).Along (Spares repoRoot f) (afterDecision sha256 o v) calls ↔
      (recapture repoRoot sha256 o).Always (Safe repoRoot o.sessionId f)
          (afterDecision sha256 o v) calls :=
  Machine.along_iff (fun _ _ hr hsafe => spares_iff hr hsafe)
    (fun _ _ _ hr hsafe hstep hsafe' => tracks_step hr hsafe hstep hsafe')
    (tracks_afterDecision h) (Or.inr h)

/-- The session's entry in the sample. -/
def sampleFiling : Filing where
  record := ⟨"0f".toList, "2026-09-01T00:00:00.000Z".toList, some "l1".toList⟩
  id := "l1".toList
  sourceFile := "ψ/memory/learnings/l1.md".toList
  rows := [⟨"l1".toList, "ψ/memory/learnings/l1.md".toList⟩]
  markdown := "Session 2026-09-01".toList
  described := rfl
  base := List.mem_singleton.mpr rfl

/-- A vault with this entry only. -/
def sampleVault : Vault where
  file := some [("s1".toList, sampleFiling.record)]
  index := ⟨sampleFiling.rows, List.nodup_singleton _⟩
  files := {
    files := [(["ψ".toList, "memory".toList, "learnings".toList, "l1.md".toList],
      sampleFiling.markdown)]
    nodup := List.nodup_singleton _
    free := by decide }

/-- The session has been resumed. -/
def sampleOptions : FormatOptions where
  sessionId := "s1".toList
  cwd := "/work".toList
  transcriptPath := "/tmp/s1.jsonl".toList
  capturedAt := "2026-09-02T00:00:00.000Z".toList
  turns := [⟨.human, utf16 "Rename the catalog, then the server".toList⟩]

/-- No hash is the recorded one. -/
def sampleHash : JsText → Text := fun _ => "1a".toList

theorem kept_sampleVault :
    Kept [] "s1".toList sampleFiling sampleVault := ⟨by decide, by decide, by decide⟩

/-- The old entry is removed, the new one cannot be learned: the record describes nothing. -/
def sampleCalls : List Call :=
  [.returns, .returns, .returns, .returns, .returns, .returns,
    .throwsLearning "disk I/O error".toList none, .returns, .returns]

/-- The database cannot be opened, and the old entry stays. -/
theorem recapture_keeps_iff_sample :
    (recapture [] sampleHash sampleOptions).Always (Safe [] "s1".toList sampleFiling)
      (afterDecision sampleHash sampleOptions sampleVault) [.returns, .throws] :=
  (recapture_keeps_iff [] sampleHash sampleOptions sampleFiling sampleVault kept_sampleVault _).mp
    ⟨trivial, fun _ _ => ⟨by simp [Spares], fun _ _ => trivial⟩⟩

theorem not_keeps_thrown :
    ¬ ∀ (repoRoot : Path Text) (sha256 : JsText → Text) (o : FormatOptions) (f : Filing) (v : Vault),
    Kept repoRoot o.sessionId f v →
      ∀ calls r, (recapture repoRoot sha256 o).run (afterDecision sha256 o v) calls = some r →
      Safe repoRoot o.sessionId f r := by
  intro h
  have hrun : ∃ r, (recapture [] sampleHash sampleOptions).run
      (afterDecision sampleHash sampleOptions sampleVault) sampleCalls =
      some r ∧ r.phase = .failed ∧ r.vault.index.rows = [] := by
    exact ⟨_, rfl, by decide +kernel, by decide +kernel⟩
  obtain ⟨r, hr, hphase, hrows⟩ := hrun
  rcases h _ _ _ _ _ kept_sampleVault sampleCalls r hr with hdone | hkept
  · rw [hphase] at hdone
    cases hdone
  · have hbase := hkept.base_mem
    rw [hrows] at hbase
    cases hbase

end OracleSkills.Capture
