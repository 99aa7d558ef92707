import OracleSkills.Python.Paths
import OracleSkills.Server.Patch
import OracleSkills.Server.Rpc

/-!
# What an oracle session is

Two hooks decide whether a session is an oracle's. `bash_guard.py` keeps its scope to "oracle
sessions only (repo dir ends in `-oracle`), the same test `inject_rules.py` uses"; `inject_rules.py`
builds a rules context for such a directory "OR an explicit roles.json key". They look at the
directory in two ways, and not always at the same directory. `scope_agrees_iff` says exactly for
which sessions they agree: those that are none of the three kinds of `Mismatch`.

`str.lower`, `str.isalnum` and `os.path.realpath` are parameters, of which the last depends on the
links on the disk.
-/

namespace OracleSkills.Rules

open Python Server.Rpc

/-! ### What a hook finds -/

/-- What a hook is called with. -/
structure Session where
  /-- What `json.loads` gives of the standard input; `none` where it is blank, or cannot be read or
  parsed. -/
  payload : Option Json
  /-- `$CLAUDE_PROJECT_DIR`. -/
  projectDir : Option Text
  /-- `os.getcwd()`, `none` where it raises. -/
  getcwd : Option Text

/-- What a hook finds on the host. -/
structure Host where
  /-- `os.path.realpath`, `none` where it raises. -/
  realpath : Text → Option Text
  /-- `str.lower`. -/
  lower : Text → Text
  /-- `str.isalnum`. -/
  isalnum : Text → Bool
  /-- `RULES_DIR`. -/
  rulesDir : Text
  /-- The text of a file of that directory, `none` where it cannot be read. -/
  readRules : Text → Option Text
  /-- What `json.load` gives of `roles.json`, `none` where it raises. -/
  rolesJson : Option Json

/-- `ORACLE_SUFFIX`. -/
def oracleSuffix : Text := "-oracle".toList

/-- The directory that a payload names: of the first of the keys with a text that is not blank. -/
def payloadDir (payload : List (Text × Json)) : Option Text :=
  ["cwd".toList, "project_dir".toList, "projectDir".toList].findSome? fun key =>
    match Dict.get? key payload with
    | some (.str v) => if strip v ≠ [] then some (strip v) else none
    | _ => none

/-! ### `bash_guard.py` -/

namespace BashGuard

/-- `_stdin_json`. -/
def stdinJson (s : Session) : Json := s.payload.getD (.obj [])

/-- `resolve_cwd`, `none` where it raises: a payload that is no dictionary has no `get`. -/
def resolveCwd (s : Session) : Option Text :=
  match stdinJson s with
  | .obj payload => (payloadDir payload).or s.getcwd
  | _ => none

/-- `is_oracle`. -/
def isOracle (cwd : Text) : Bool := oracleSuffix.isSuffixOf (basename (normpath cwd))

/-- `main` goes on to look at the command; where it raises, the guard lets the command pass. -/
def inScope (s : Session) : Bool := (resolveCwd s).any isOracle

end BashGuard

/-! ### `inject_rules.py` -/

namespace InjectRules

variable (h : Host)

/-- `_read_stdin_json`. -/
def readStdinJson (s : Session) : List (Text × Json) :=
  match s.payload with
  | some (.obj data) => data
  | _ => []

/-- `resolve_cwd`, `none` where it raises. -/
def resolveCwd (s : Session) : Option Text :=
  match payloadDir (readStdinJson s) with
  | some dir => some dir
  | none =>
    let env := strip (s.projectDir.getD [])
    if env ≠ [] then some env else s.getcwd

/-- `load_roles`. -/
def loadRoles : List (Text × Json) :=
  match h.rolesJson with
  | some (.obj data) => data
  | _ => []

/-- `os.path.basename(os.path.realpath(cwd)).strip().lower()`, `none` where it raises. -/
def base (cwd : Text) : Option Text := (h.realpath cwd).map fun path =>
    h.lower (strip (basename path))

/-- `oracle_name`. -/
def oracleName (cwd : Text) : Text :=
  match base h cwd with
  | none => []
  | some base =>
    if oracleSuffix.isSuffixOf base then base.take (base.length - oracleSuffix.length) else base

/-- `is_oracle`. -/
def isOracle (cwd : Text) (roles : List (Text × Json)) : Bool :=
  match base h cwd with
  | none => false
  | some base =>
    if oracleSuffix.isSuffixOf base then true
    else
      let name := oracleName h cwd
      name ≠ [] ∧ ¬ ['_'].isPrefixOf name ∧ name ∈ Dict.keys roles

/-- A role of the map, if it is a text that is not blank. -/
def roleText : Option Json → Option Text
  | some (.str role) => if strip role ≠ [] then some role else none
  | _ => none

/-- `resolve_role`. -/
def resolveRole (name : Text) (roles : List (Text × Json)) : Text :=
  let own := if ¬ ['_'].isPrefixOf name then Dict.get? name roles else none
  let role := ((roleText own).or (roleText (Dict.get? "_default".toList roles))).getD
    "worker".toList
  let role := h.lower (strip role)
  if h.isalnum (role.filter (· ≠ '-')) then role else "worker".toList

/-- `_read_rule`. -/
def readRule (filename : Text) : Text :=
  match h.readRules filename with
  | none => "[rules] MISSING ".toList ++ filename
  | some text =>
    if strip text ≠ [] then strip text else
    "[rules] MISSING ".toList ++ filename ++ " (empty)".toList

/-- `build_context`. -/
def buildContext (cwd : Text) : Option Text :=
  let roles := loadRoles h
  if ¬ isOracle h cwd roles then none
  else
    let name := oracleName h cwd
    let role := resolveRole h name roles
    let body := readRule h "universal.md".toList ++ "\n\n".toList ++
      readRule h ("role-".toList ++ role ++ ".md".toList)
    let receipt := "[rules] ".toList ++ name ++ " · universal + role-".toList ++ role ++
      " · ".toList ++
      (Nat.repr (Server.utf8Length body)).toList ++ " bytes · ".toList ++ h.rulesDir
    some (body ++ "\n\n".toList ++ receipt)

/-- `main`: the context that is injected; where resolving the directory raises, there is none. -/
def context (s : Session) : Option Text := (resolveCwd s).bind (buildContext h)

end InjectRules

/-! ### Where they differ -/

/-- The two hooks agree about a session. -/
def ScopeAgrees (h : Host) (s : Session) : Prop :=
  BashGuard.inScope s = true ↔ (InjectRules.context h s).isSome = true

/-- The last component of the path, as it is written, ends in `-oracle`. -/
def Suffixed (cwd : Text) : Prop := oracleSuffix <:+ basename (normpath cwd)

/-- `name` is the last component of the path that `cwd` leads to, stripped and in lower case. -/
def LeadsTo (h : Host) (cwd name : Text) : Prop :=
  ∃ path, h.realpath cwd = some path ∧ name = h.lower (strip (basename path))

/-- `roles.json` has the name, and it is not one of those that "are not oracles". -/
def Mapped (h : Host) (name : Text) : Prop :=
  name ≠ [] ∧ ¬ ['_'] <+: name ∧ name ∈ Dict.keys (InjectRules.loadRoles h)

/-- The sessions for which the hooks differ. -/
inductive Mismatch (h : Host) (s : Session) : Prop where
  /-- The directory is an oracle's by `roles.json`, and what the guard looks at does not end in
  `-oracle`. -/
  | mapped (dir name : Text) : InjectRules.resolveCwd s = some dir → LeadsTo h dir name →
    Mapped h name →
    (∀ cwd, BashGuard.resolveCwd s = some cwd → ¬ Suffixed cwd) → Mismatch h s
  /-- It is an oracle's behind its links, or in lower case, or without its blanks, or as
  `$CLAUDE_PROJECT_DIR`, and what the guard looks at does not end in `-oracle`. -/
  | unseen (dir name : Text) : InjectRules.resolveCwd s = some dir → LeadsTo h dir name →
    oracleSuffix <:+ name →
    (∀ cwd, BashGuard.resolveCwd s = some cwd → ¬ Suffixed cwd) → Mismatch h s
  /-- What the guard looks at ends in `-oracle`, and the other directory leads to no oracle's. -/
  | guarded (cwd : Text) : BashGuard.resolveCwd s = some cwd → Suffixed cwd →
    (∀ dir name, InjectRules.resolveCwd s = some dir → LeadsTo h dir name →
      ¬ oracleSuffix <:+ name ∧ ¬ Mapped h name) →
    Mismatch h s

variable {h : Host} {s : Session}

theorem inScope_iff :
    BashGuard.inScope s = true ↔ ∃ cwd, BashGuard.resolveCwd s = some cwd ∧ Suffixed cwd := by
  simp [BashGuard.inScope, BashGuard.isOracle, Suffixed, Option.any_eq_true,
    List.isSuffixOf_iff_suffix]

/-- The injector's test: a name that does not end in `-oracle` is looked up whole. -/
theorem isOracle_iff {cwd : Text} : InjectRules.isOracle h cwd (InjectRules.loadRoles h) = true ↔
    ∃ name, LeadsTo h cwd name ∧ (oracleSuffix <:+ name ∨ Mapped h name) := by
  cases hpath : h.realpath cwd with
  | none =>
    have hbase : InjectRules.base h cwd = none := by simp [InjectRules.base, hpath]
    simp [InjectRules.isOracle, hbase, LeadsTo, hpath]
  | some path =>
    have hbase : InjectRules.base h cwd = some (h.lower (strip (basename path))) := by
      simp [InjectRules.base, hpath]
    by_cases hend : oracleSuffix <:+ h.lower (strip (basename path))
    · simp [InjectRules.isOracle, hbase, LeadsTo, hpath, List.isSuffixOf_iff_suffix, hend]
    · have hname : InjectRules.oracleName h cwd = h.lower (strip (basename path)) := by
        simp [InjectRules.oracleName, hbase, List.isSuffixOf_iff_suffix, hend]
      simp [InjectRules.isOracle, hbase, hname, LeadsTo, hpath, List.isSuffixOf_iff_suffix,
        hend, Mapped]

/-- A context is built for the oracles' sessions. -/
theorem context_isSome_iff : (InjectRules.context h s).isSome = true ↔
    ∃ dir name, InjectRules.resolveCwd s = some dir ∧ LeadsTo h dir name ∧
        (oracleSuffix <:+ name ∨ Mapped h name) := by
  have hbuild : ∀ dir, (InjectRules.buildContext h dir).isSome = true ↔
      InjectRules.isOracle h dir (InjectRules.loadRoles h) = true := by
    intro dir
    by_cases horacle : InjectRules.isOracle h dir (InjectRules.loadRoles h) = true <;>
      simp [InjectRules.buildContext, horacle]
  cases hdir : InjectRules.resolveCwd s with
  | none => simp [InjectRules.context, hdir]
  | some dir => simp [InjectRules.context, hdir, hbuild, isOracle_iff]

/-- **The guard and the injector agree on what an oracle session is exactly outside these three
kinds of session.** -/
theorem scope_agrees_iff (h : Host) (s : Session) : ScopeAgrees h s ↔ ¬ Mismatch h s := by
  unfold ScopeAgrees
  constructor
  · intro hagree hmismatch
    cases hmismatch with
    | mapped dir name hdir hname hmapped hguard =>
      obtain ⟨cwd, hcwd, hend⟩ :=
        inScope_iff.mp (hagree.mpr (context_isSome_iff.mpr ⟨dir, name, hdir, hname, .inr hmapped⟩))
      exact hguard cwd hcwd hend
    | unseen dir name hdir hname hsuffix hguard =>
      obtain ⟨cwd, hcwd, hend⟩ :=
        inScope_iff.mp (hagree.mpr (context_isSome_iff.mpr ⟨dir, name, hdir, hname, .inl hsuffix⟩))
      exact hguard cwd hcwd hend
    | guarded cwd hcwd hend hother =>
      obtain ⟨dir, name, hdir, hname, horacle⟩ :=
        context_isSome_iff.mp (hagree.mp (inScope_iff.mpr ⟨cwd, hcwd, hend⟩))
      exact horacle.elim (hother dir name hdir hname).1 (hother dir name hdir hname).2
  · intro hmatch
    constructor
    · intro hscope
      obtain ⟨cwd, hcwd, hend⟩ := inScope_iff.mp hscope
      by_contra hnone
      refine hmatch (.guarded cwd hcwd hend fun dir name hdir hname =>
        ⟨fun hsuffix => ?_, fun hmapped => ?_⟩)
      · exact hnone (context_isSome_iff.mpr ⟨dir, name, hdir, hname, .inl hsuffix⟩)
      · exact hnone (context_isSome_iff.mpr ⟨dir, name, hdir, hname, .inr hmapped⟩)
    · intro hcontext
      obtain ⟨dir, name, hdir, hname, horacle⟩ := context_isSome_iff.mp hcontext
      by_contra hnone
      have hguard : ∀ cwd, BashGuard.resolveCwd s = some cwd → ¬ Suffixed cwd :=
        fun cwd hcwd hend => hnone (inScope_iff.mpr ⟨cwd, hcwd, hend⟩)
      rcases horacle with hsuffix | hmapped
      · exact hmatch (.unseen dir name hdir hname hsuffix hguard)
      · exact hmatch (.mapped dir name hdir hname hmapped hguard)

/-- **Where the payload names a directory that is written as the path it leads to, its name in lower
case and without blanks, they differ for the keys of `roles.json` alone.** -/
theorem scope_agrees_written {data : List (Text × Json)} {dir : Text}
    (hpayload : s.payload = some (.obj data))
    (hdir : payloadDir data = some dir) (hpath : h.realpath dir = some (normpath dir))
    (hname : h.lower (strip (basename (normpath dir))) = basename (normpath dir)) :
    ScopeAgrees h s ↔ Suffixed dir ∨ ¬ Mapped h (basename (normpath dir)) := by
  have hguard : BashGuard.resolveCwd s = some dir := by
    simp [BashGuard.resolveCwd, BashGuard.stdinJson, hpayload, hdir]
  have hinject : InjectRules.resolveCwd s = some dir := by
    simp [InjectRules.resolveCwd, InjectRules.readStdinJson, hpayload, hdir]
  have hleads : ∀ name, LeadsTo h dir name ↔ name = basename (normpath dir) := by
    simp [LeadsTo, hpath, hname]
  have hscope : BashGuard.inScope s = true ↔ Suffixed dir := by simp [inScope_iff, hguard]
  have hcontext : (InjectRules.context h s).isSome = true ↔ Suffixed dir ∨
      Mapped h (basename (normpath dir)) := by
    rw [context_isSome_iff]
    simp [hinject, hleads, Suffixed]
  rw [ScopeAgrees, hscope, hcontext]
  tauto

/-! ### A key of `roles.json` -/

/-- The letters of English in lower case, no links, and a `roles.json` in which `bob` is an
oracle. -/
def sampleHost : Host where
  realpath path := some (normpath path)
  lower text := text.map Char.toLower
  isalnum text := !text.isEmpty && text.all Char.isAlphanum
  rulesDir := "/opt/rules".toList
  readRules _ := some "Be kind.".toList
  rolesJson := some (.obj [("bob".toList, .str "qa".toList)])

/-- A session in the directory. -/
def sampleSession (cwd : Text) : Session where
  payload := some (.obj [("cwd".toList, .str cwd)])
  projectDir := none
  getcwd := some "/".toList

/-- Rules are injected into the session of an oracle by `roles.json`, and the guard lets its
commands pass unseen. -/
theorem mapped_unguarded : ¬ ScopeAgrees sampleHost (sampleSession "/home/x/bob".toList) := by
  have hdir : payloadDir [("cwd".toList, .str "/home/x/bob".toList)] =
      some "/home/x/bob".toList := by decide
  have hends : ¬ Suffixed "/home/x/bob".toList := by unfold Suffixed; decide
  have hmapped : Mapped sampleHost "bob".toList := ⟨by decide, by decide, by decide⟩
  intro hagree
  have hplain := (scope_agrees_written rfl hdir (by decide) (by decide)).mp hagree
  exact hplain.elim hends fun hkey => hkey hmapped

end OracleSkills.Rules
