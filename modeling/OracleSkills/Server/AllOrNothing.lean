import OracleSkills.Python.Effect
import OracleSkills.Python.Paths
import OracleSkills.Python.Utf8
import OracleSkills.Server.PatchTool
import OracleSkills.Server.Rpc

/-!
# `skill_patch`, step by step

A call of `skill_patch` has many places at which it may fail: at an argument that is missing or is
no string, where the skill is looked up and read, where the text is made, at the temporary file, and
at "the atomic swap". Each raises its own exception, and `handle` makes an answer with `isError` of
it.

The call is a program on the directory entries of the disk (`patchCall`), with what each of its
steps raises in a `PatchHost`; where the arguments are strings it returns what `toolSkillPatch`
returns (`patchCall_ok`). `patch_allOrNothing`: a call that answers with `isError` leaves every
`SKILL.md` as it was, and the directory without its temporary file, if that could be removed; and at
no moment is there a part of a new text in a `SKILL.md`.
-/

namespace OracleSkills.Server

open Python Frontmatter Writer Rpc

/-! ### Directory entries -/

/-- A directory, and a name in it. -/
abbrev Spot (δ : Type*) := δ × Text

/-- What is there under a name. -/
inductive Node (δ : Type*) where
  | file (bytes : Bytes)
  | dir
  /-- A symbolic link, and the entry that it leads to, if there is a directory for that. -/
  | link (target : Option (Spot δ))

/-- The entries of all directories. -/
abbrev Entries (δ : Type*) := Spot δ → Option (Node δ)

/-- `SKILL.md`. -/
def skillMdName : Text := "SKILL.md".toList

/-- The symbolic links that the system follows. -/
def maxLinks : ℕ := 40

/-- The bytes of the file at `p`, symbolic links followed. -/
def Entries.read {δ : Type*} (D : Entries δ) (links : ℕ) (p : Spot δ) : Option Bytes :=
  match D p, links with
  | some (.file bytes), _ => some bytes
  | some (.link (some q)), links + 1 => Entries.read D links q
  | _, _ => none

section

variable {δ : Type*} {D : Entries δ} {p q : Spot δ} {links : ℕ} {bytes : Bytes}

theorem Entries.read_file (h : D p = some (.file bytes)) : Entries.read D links p = some bytes := by
  unfold Entries.read
  simp only [h]

theorem Entries.read_link (h : D p = some (.link (some q))) :
    Entries.read D (links + 1) p = Entries.read D links q := by
  conv_lhs => unfold Entries.read
  simp only [h]

end

/-! ### The call -/

/-- The steps of a call at the temporary file. -/
inductive Point where
  | mkstemp
  | fdopen
  | write
  | close
  | chmod
  | replace

/-- What a call is run with, besides the disk. -/
structure PatchHost (δ : Type*) where
  /-- The server, but for the contents of files. -/
  world : World
  env : PatchEnv
  /-- The directory that a path leads to, symbolic links followed: no step of a call makes or
  removes a directory. -/
  dirAt : Text → Option δ
  /-- `==`, of values that are not both strings. -/
  same : Json → Json → Bool
  /-- What `.encode("utf-8")` raises, on a text with a lone surrogate. -/
  hashRaises : Text → Option Raised
  /-- What a step raises. -/
  raises : Point → Option Raised
  /-- `os.unlink` raises an `OSError`. -/
  unlinkRaises : Bool
  /-- The random part of the name that `mkstemp` takes. -/
  random : Text
  /-- How much of the text is in the file while it is written. -/
  flushed : List ℕ
  /-- `json.dumps` of the answer. -/
  dumps : PatchReply → Text

section

variable {δ : Type*} [DecidableEq δ] (H : PatchHost δ)

/-- The size and the text of the file that a path leads to. -/
def PatchHost.fileAt (D : Entries δ) (path : Text) : Option (ℕ × Text) :=
  (H.dirAt (path.rdropWhile (· ≠ '/')).dropLast).bind fun d =>
    (Entries.read D maxLinks (d, basename path)).map fun bytes => (bytes.length, decode bytes)

/-- The server with the contents of the files. -/
def PatchHost.worldOf (D : Entries δ) : World := { H.world with file := H.fileAt D }

/-- `args.get(key) or ""`, where only a string has the methods of one. -/
def textArg (members : Dict Text Json) (key : String) : Except Raised Text :=
  match members.getD key.toList .null with
  | .str t => .ok t
  | v => if v.truthy then .error (.other "AttributeError".toList) else .ok []

/-- `old_string == new_string`. -/
def PatchHost.equal : Json → Json → Bool
  | .str old, .str new => old = new
  | old, new => H.same old new

/-- The value is `None`. -/
def isNone : Json → Bool
  | .null => true
  | _ => false

/-- `tool_skill_patch` from the read of the file up to the write, of the arguments as they came. -/
def patchFound (W : World) (members : Dict Text Json) (name : Text) (old new : Json)
    (file : Option (ℕ × Text)) :
    Except Raised Patched := do
  let original ← readTextCapped file
  let (_, _, preStatus) ← splitFrontmatterEx W.yaml original
  match old with
  | .str old =>
    let n := count old (rawFrontmatter original).2
    if n = 0 then
      .error (.valueError "old_string not found in skill body (patch edits the body only)".toList)
    else if 1 < n then
      .error (.valueError ("old_string matches ".toList ++ (Nat.repr n).toList ++
        " places; add surrounding context to make it unique".toList))
    else
      match new with
      | .str new =>
        let editedBy ← textArg members "edited_by"
        match H.hashRaises (strip (replaceFirst old new (rawFrontmatter original).2)) with
        | some e => .error e
        | none =>
          let r := edited { H.env with yaml := W.yaml } ⟨name, some old, some new,
            editedBy⟩ old new original
          let (_, _, postStatus) ← splitFrontmatterEx W.yaml r.text
          match postStatus, preStatus with
          | some status, none =>
            .error (.valueError
              ("refusing to write: this patch would make the frontmatter unparseable (".toList ++
              status ++
              "). The body edit was NOT applied. Retry with a simpler 'edited_by' (no quotes or newlines).".toList))
          | _, _ => .ok r
      -- `replace` and `count` take strings only
      | _ => .error (.other "TypeError".toList)
  | _ => .error (.other "TypeError".toList)

/-- What is to be written where: the skill, its directory, and the new file. -/
structure Plan where
  name : Text
  dir : Text
  patched : Patched

/-- The answer. -/
def Plan.reply (plan : Plan) : PatchReply :=
  ⟨plan.name, true, H.env.bodyHash plan.patched.body, plan.patched.editedBy,
    plan.patched.body.length⟩

/-- `tool_skill_patch` up to the write, and the cache. -/
def patchPlan (D : Entries δ) (cache : Cache) (members : Dict Text Json) :
    Except Raised Plan × Cache :=
  match textArg members "name" with
  | .error e => (.error e, cache)
  | .ok arg =>
    let name := strip arg
    let old := members.getD "old_string".toList .null
    let new := members.getD "new_string".toList .null
    if name = [] then (.error (.valueError "skill_patch requires 'name'".toList), cache)
    else if ¬ old.truthy then
      (.error (.valueError "skill_patch requires a non-empty 'old_string'".toList), cache)
    else if isNone new then (.error (.valueError "skill_patch requires 'new_string'".toList), cache)
    else if H.equal old new then
      (.error (.valueError "old_string and new_string are identical".toList), cache)
    else
      match skillDirOf (H.worldOf D) cache name with
      | (.error e, cache') => (.error e, cache')
      | (.ok dir, cache') =>
        (Plan.mk name dir <$> patchFound H (H.worldOf D) members name old new
          (H.fileAt D (skillMd dir)), cache')

/-- A step that may fail, and changes nothing. -/
def fault (e : Option Raised) : Effect (Entries δ) Raised Unit :=
  .look fun _ => match e with
    | some e => .error e
    | none => .ok ()

/-- The entry `p` is this from now on. -/
def put (p : Spot δ) (n : Option (Node δ)) : Effect (Entries δ) Raised Unit :=
  .step fun D => (.ok (), Function.update D p n)

/-- The name of the temporary file. -/
def PatchHost.tempName : Text := ".SKILL.md.".toList ++ H.random ++ ".tmp".toList

/-- `tempfile.mkstemp(dir=skill_dir, prefix=".SKILL.md.", suffix=".tmp")`. -/
def mkstemp (dir : Text) : Effect (Entries δ) Raised (Spot δ) :=
  .step fun D =>
    match H.raises .mkstemp, H.dirAt dir with
    | some e, _ => (.error e, D)
    | none, none => (.error (.other "FileNotFoundError".toList), D)
    | none, some d =>
      let tmp : Spot δ := (d, H.tempName)
      if (D tmp).isSome then (.error (.other "FileExistsError".toList), D)
      else (.ok tmp, Function.update D tmp (some (.file [])))

/-- The `with` block: parts of the text, and in the end all of it, come to the file. -/
def writeTemp (tmp : Spot δ) (text : Text) : Effect (Entries δ) Raised Unit :=
  .andThen (fault (H.raises .fdopen)) fun _ =>
  .andThen (.each (fun n => put tmp (some (.file ((encode text).take n)))) H.flushed) fun _ =>
  .andThen (fault (H.raises .write)) fun _ =>
  .andThen (fault (H.raises .close)) fun _ =>
  put tmp (some (.file (encode text)))

/-- `os.replace(tmp, md)`. -/
def replace (tmp : Spot δ) : Effect (Entries δ) Raised Unit :=
  .step fun D =>
    match H.raises .replace, D (tmp.1, skillMdName) with
    | some e, _ => (.error e, D)
    | none, some .dir => (.error (.other "IsADirectoryError".toList), D)
    | none, _ => (.ok (), Function.update (Function.update D tmp none) (tmp.1, skillMdName) (D tmp))

/-- `os.unlink(tmp)`, "except OSError: pass". -/
def unlink (tmp : Spot δ) : Effect (Entries δ) Raised Unit :=
  if H.unlinkRaises then .ret () else put tmp none

/-- The atomic write of `tool_skill_patch`. -/
def putBack (dir text : Text) : Effect (Entries δ) Raised Unit :=
  .andThen (mkstemp H dir) fun tmp =>
  .cleanup
    (.andThen (writeTemp H tmp text) fun _ => .andThen (fault (H.raises .chmod)) fun _ =>
      replace H tmp)
    (unlink H tmp)

/-- `tool_skill_patch`, of the arguments as they came. -/
def patchCall (cache : Cache) (arguments : Json) : Effect (Entries δ) Raised PatchReply :=
  match arguments with
  | .obj members =>
    .andThen (.look fun D => (patchPlan H D cache members).1) fun plan =>
    .andThen (putBack H plan.dir plan.patched.text) fun _ =>
    .ret (plan.reply H)
  -- only a dictionary has `get`
  | _ => .look fun _ => .error (.other "AttributeError".toList)

/-! ### The answer -/

/-- `params.get("arguments") or {}`. -/
def orEmpty (arguments : Json) : Json := if arguments.truthy then arguments else .obj []

/-- The cache after a call. -/
def patchCache (D : Entries δ) (cache : Cache) : Json → Cache
  | .obj members => (patchPlan H D cache members).2
  | _ => cache

/-- What `handle` makes its answer of. -/
def outcome : Except Raised PatchReply → ToolOutcome
  | .ok reply => .text (H.dumps reply)
  | .error (.valueError m) => .valueError m
  | .error (.other _) => .raised

/-- A server in its run: the disk, the cache, and the states that the disk has come through. -/
structure Serving (δ : Type*) where
  disk : Entries δ
  cache : Cache
  passed : List (Entries δ)

/-- The runtime of the server. -/
def PatchHost.runtime (R : Runtime (Serving δ)) : Runtime (Serving δ) :=
  { R with
    call := fun tool arguments w =>
      match tool with
      | .skillPatch =>
        let ran := patchCall H w.cache arguments w.disk
        (outcome H ran.result,
          ⟨ran.last, patchCache H w.disk w.cache arguments, w.passed ++ ran.passed⟩)
      | tool => R.call tool arguments w }

/-- The answer has `"isError": true`. -/
def isError : Handled → Bool
  | .reply (.obj members) =>
    match Dict.get? "result".toList members with
    | some (.obj result) =>
      match Dict.get? "isError".toList result with
      | some b => b.truthy
      | none => false
    | _ => false
  | _ => false

/-- The message calls `skill_patch`. -/
structure CallsPatch (msg : Dict Text Json) (arguments : Json) : Prop where
  method : msg.getD "method".toList .null = .lit "tools/call"
  params : ∃ params, paramsOf msg = .obj params ∧
    Dict.getD "name".toList .null params = .lit "skill_patch" ∧
    Dict.getD "arguments".toList .null params = arguments

/-- Every `SKILL.md` is as it was, and every file that could be read has the same bytes. -/
structure Untouched (D₀ D : Entries δ) : Prop where
  entry : ∀ d, D (d, skillMdName) = D₀ (d, skillMdName)
  reads : ∀ links p bytes, Entries.read D₀ links p = some bytes →
    Entries.read D links p = some bytes

/-- One `SKILL.md` is the complete new one, and nothing else has changed. -/
def Swapped (w : Serving δ) (arguments : Json) (D : Entries δ) : Prop :=
  ∃ members plan d, arguments = .obj members ∧ (patchPlan H w.disk w.cache members).1 = .ok plan ∧
    H.dirAt plan.dir = some d ∧
    D = Function.update w.disk (d, skillMdName) (some (.file (encode plan.patched.text)))

/-- A call has done all of it, or nothing if it has `failed`, and never a part. -/
structure AllOrNothing (w : Serving δ) (arguments : Json) (failed : Bool) (w' : Serving δ) :
    Prop where
  kept : failed = true → Untouched w.disk w'.disk
  /-- There is no temporary file that was not there, if it could be removed. -/
  removed : failed = true → H.unlinkRaises = false → w'.disk = w.disk
  done : failed = false → Swapped H w arguments w'.disk
  between : ∃ passed, w'.passed = w.passed ++ passed ∧ ∀ D ∈ passed, Untouched w.disk D ∨
    Swapped H w arguments D

/-! ### The steps -/

variable {H} {D₀ D : Entries δ} {tmp p : Spot δ} {dir text : Text} {C : Entries δ → Prop}

omit [DecidableEq δ] in
theorem Untouched.refl : Untouched D₀ D₀ := ⟨fun _ => rfl, fun _ _ _ h => h⟩

/-- An entry of another name is not there before, and may be anything after. -/
theorem untouched_update (hp : D₀ p = none) (hname : p.2 ≠ skillMdName) (n : Option (Node δ)) :
    Untouched D₀ (Function.update D₀ p n) := by
  refine ⟨fun d => Function.update_of_ne (fun h => hname (congrArg Prod.snd h).symm) ..,
    fun links q bytes hq => ?_⟩
  have hne : ∀ {q node}, D₀ q = some node → q ≠ p := by
    rintro q node hq rfl
    rw [hp] at hq
    cases hq
  fun_induction Entries.read D₀ links q with
  | case1 links q b h =>
    rw [← hq]
    exact Entries.read_file (by rw [Function.update_of_ne (hne h), h])
  | case2 q r links h ih =>
    rw [← ih hq]
    exact Entries.read_link (by rw [Function.update_of_ne (hne h), h])
  | case3 => cases hq

omit [DecidableEq δ] in
theorem tempName_ne : H.tempName ≠ skillMdName := by
  intro h
  have hhead : some '.' = some 'S' := congrArg List.head? h
  exact absurd hhead (by decide)

/-- The disk has the temporary file `tmp` besides, with some part of the text. -/
def Beside (D₀ : Entries δ) (tmp : Spot δ) (D : Entries δ) : Prop :=
  ∃ bytes, D = Function.update D₀ tmp (some (.file bytes))

omit [DecidableEq δ] in
theorem spec_fault {P : Entries δ → Prop} (e : Option Raised) :
    Spec P (fault e) (fun _ => P) (fun _ => P) C := by
  refine .look fun D hD => ?_
  cases e <;> exact hD

theorem spec_put {P Q : Entries δ → Prop} {E : Raised → Entries δ → Prop} {n : Option (Node δ)}
    (h : ∀ D, P D → Q (Function.update D tmp n) ∧ C (Function.update D tmp n)) :
    Spec P (put tmp n) (fun _ => Q) E C :=
  .step h

theorem Beside.update (h : Beside D₀ tmp D) (n : Option (Node δ)) :
    Function.update D tmp n = Function.update D₀ tmp n := by
  obtain ⟨bytes, rfl⟩ := h
  exact Function.update_idem ..

/-- **The temporary file** is made beside what is there, or nothing is. -/
theorem spec_mkstemp (hold : C D₀)
    (hbeside : ∀ d bytes, D₀ (d, H.tempName) = none →
      C (Function.update D₀ (d, H.tempName) (some (.file bytes)))) :
    Spec (· = D₀) (mkstemp H dir)
      (fun tmp D => (∃ d, H.dirAt dir = some d ∧ tmp = (d, H.tempName) ∧ D₀ tmp = none) ∧
        Beside D₀ tmp D)
      (fun _ D => D = D₀) C := by
  refine .step fun D hD => ?_
  subst hD
  cases H.raises .mkstemp with
  | some e => exact ⟨rfl, hold⟩
  | none =>
    cases H.dirAt dir with
    | none => exact ⟨rfl, hold⟩
    | some d =>
      simp only
      split_ifs with hsome
      · exact ⟨rfl, hold⟩
      · have hnone : D (d, H.tempName) = none := by simpa using hsome
        exact ⟨⟨⟨d, rfl, rfl, hnone⟩, _, rfl⟩, hbeside d [] hnone⟩

/-- **The text** comes to the temporary file. -/
theorem spec_writeTemp (hbeside : ∀ bytes, C (Function.update D₀ tmp (some (.file bytes)))) :
    Spec (Beside D₀ tmp) (writeTemp H tmp text)
      (fun _ D => D = Function.update D₀ tmp (some (.file (encode text))))
      (fun _ => Beside D₀ tmp) C := by
  refine .andThen (spec_fault _) fun _ =>
      .andThen (.each fun n _ => spec_put fun D hD => ?_) fun _ =>
    .andThen (spec_fault _) fun _ => .andThen (spec_fault _) fun _ => spec_put fun D hD => ?_
  · rw [hD.update]
    exact ⟨⟨_, rfl⟩, hbeside _⟩
  · rw [hD.update]
    exact ⟨rfl, hbeside _⟩

/-- **The swap** puts the temporary file in the place of the `SKILL.md`, or changes nothing. -/
theorem spec_replace {bytes : Bytes} (hnone : D₀ tmp = none)
    (hbeside : C (Function.update D₀ tmp (some (.file bytes))))
    (hswap : C (Function.update D₀ (tmp.1, skillMdName) (some (.file bytes)))) :
    Spec (· = Function.update D₀ tmp (some (.file bytes))) (replace H tmp)
      (fun _ D => D = Function.update D₀ (tmp.1, skillMdName) (some (.file bytes)))
          (fun _ => Beside D₀ tmp) C := by
  have hmoved :
      Function.update (Function.update (Function.update D₀ tmp (some (.file bytes))) tmp none)
      (tmp.1, skillMdName)
      (Function.update D₀ tmp (some (.file bytes)) tmp) =
          Function.update D₀ (tmp.1, skillMdName) (some (.file bytes)) := by
    rw [Function.update_idem, Function.update_self, ← hnone, Function.update_eq_self]
  refine .step ?_
  rintro _ rfl
  split
  · exact ⟨⟨_, rfl⟩, hbeside⟩
  · exact ⟨⟨_, rfl⟩, hbeside⟩
  · rw [hmoved]
    exact ⟨rfl, hswap⟩

/-- **The clean-up** removes the temporary file, if it can. -/
theorem spec_unlink (hnone : D₀ tmp = none) (hold : C D₀) :
    Spec (Beside D₀ tmp) (unlink H tmp)
      (fun _ D => D = D₀ ∨ H.unlinkRaises = true ∧ Beside D₀ tmp D)
      (fun _ D => D = D₀ ∨ H.unlinkRaises = true ∧ Beside D₀ tmp D) C := by
  unfold unlink
  split_ifs with hraises
  · exact .ret fun D hD => Or.inr ⟨hraises, hD⟩
  · refine spec_put fun D hD => ?_
    rw [hD.update, ← hnone, Function.update_eq_self]
    exact ⟨Or.inl rfl, hold⟩

/-- What an exception leaves. -/
def Left (H : PatchHost δ) (D₀ D : Entries δ) : Prop :=
  D = D₀ ∨ H.unlinkRaises = true ∧ ∃ d, D₀ (d, H.tempName) = none ∧ Beside D₀ (d, H.tempName) D

theorem Left.untouched (h : Left H D₀ D) : Untouched D₀ D := by
  rcases h with rfl | ⟨-, d, hnone, bytes, rfl⟩
  · exact .refl
  · exact untouched_update hnone tempName_ne _

/-- One `SKILL.md` is the new one, and nothing else has changed. -/
def Renewed (H : PatchHost δ) (D₀ : Entries δ) (dir text : Text) (D : Entries δ) : Prop :=
  ∃ d, H.dirAt dir = some d ∧ D = Function.update D₀ (d, skillMdName) (some (.file (encode text)))

/-- **The write** puts all of the text in the `SKILL.md`, or leaves it as it was, and never a
part. -/
theorem spec_putBack (H : PatchHost δ) (D₀ : Entries δ) (dir text : Text) :
    Spec (· = D₀) (putBack H dir text) (fun _ => Renewed H D₀ dir text) (fun _ => Left H D₀)
      (fun D => Untouched D₀ D ∨ Renewed H D₀ dir text D) := by
  have hbeside : ∀ d bytes, D₀ (d, H.tempName) = none →
      Untouched D₀ (Function.update D₀ (d, H.tempName) (some (.file bytes))) :=
    fun d bytes hnone => untouched_update hnone tempName_ne _
  have htemp : Spec (· = D₀) (mkstemp H dir) _ _ _ :=
    spec_mkstemp (C := fun D => Untouched D₀ D ∨ Renewed H D₀ dir text D) (Or.inl .refl)
      fun d bytes hnone => Or.inl (hbeside d bytes hnone)
  refine .andThen (htemp.weaken (fun _ h => h) (fun _ _ h => h) (fun _ _ h => Or.inl h) fun _ h =>
    h) fun tmp => .assuming ?_
  rintro ⟨d, hd, rfl, hnone⟩
  let C : Entries δ → Prop := fun D => Untouched D₀ D ∨ Renewed H D₀ dir text D
  have hpart : ∀ bytes, C (Function.update D₀ (d, H.tempName) (some (.file bytes))) :=
    fun bytes => Or.inl (hbeside d bytes hnone)
  have hnew : Renewed H D₀ dir text
      (Function.update D₀ (d, skillMdName) (some (.file (encode text)))) := ⟨d, hd, rfl⟩
  have hchmod : Spec (· = Function.update D₀ (d, H.tempName) (some (.file (encode text))))
      (fault (H.raises .chmod))
      (fun _ D => D = Function.update D₀ (d, H.tempName) (some (.file (encode text))))
          (fun _ => Beside D₀ (d, H.tempName)) C :=
    (spec_fault (C := C) _).weaken (fun _ h => h) (fun _ _ h => h)
      (fun _ _ h => ⟨_, h⟩) fun _ h => h
  have hswap : Spec (· = Function.update D₀ (d, H.tempName) (some (.file (encode text))))
      (replace H (d, H.tempName))
      (fun _ => Renewed H D₀ dir text) (fun _ => Beside D₀ (d, H.tempName)) C :=
    (spec_replace (C := C) hnone (hpart _) (Or.inr hnew)).weaken (fun _ h => h)
      (fun _ _ h => h ▸ hnew) (fun _ _ h => h) fun _ h => h
  have hleft : ∀ D, (D = D₀ ∨ H.unlinkRaises = true ∧ Beside D₀ (d, H.tempName) D) → Left H D₀ D :=
    fun D hD => hD.imp_right fun h => ⟨h.1, d, hnone, h.2⟩
  refine .cleanup (.andThen (spec_writeTemp hpart) fun _ => .andThen hchmod fun _ => hswap) fun _ =>
    ?_
  exact (spec_unlink hnone (Or.inl .refl)).weaken (fun _ h => h) (fun _ => hleft)
    (fun _ => hleft) fun _ h => h

/-! ### The call as a whole -/

variable {w : Serving δ} {R : Runtime (Serving δ)} {msg : Dict Text Json} {arguments : Json}
  {cache : Cache}

/-- **A call** does all of it, or raises and does nothing. -/
theorem spec_patchCall (H : PatchHost δ) (w : Serving δ) (arguments : Json) :
    Spec (· = w.disk) (patchCall H w.cache arguments) (fun _ => Swapped H w arguments)
      (fun _ => Left H w.disk)
      (fun D => Untouched w.disk D ∨ Swapped H w arguments D) := by
  cases arguments with
  | obj members =>
    have hplan : Spec (C := fun D => Untouched w.disk D ∨ Swapped H w (.obj members) D) (· = w.disk)
        (.look fun D => (patchPlan H D w.cache members).1)
        (fun plan D => (patchPlan H w.disk w.cache members).1 = .ok plan ∧ D = w.disk)
            (fun _ => Left H w.disk) := by
      refine .look fun D hD => ?_
      subst hD
      cases hp : (patchPlan H w.disk w.cache members).1 with
      | error e => exact Or.inl rfl
      | ok plan => exact ⟨rfl, rfl⟩
    refine .andThen hplan fun plan => .assuming fun hok => ?_
    have hswapped : ∀ D, Renewed H w.disk plan.dir plan.patched.text D →
        Swapped H w (.obj members) D :=
      fun D ⟨d, hd, hD⟩ => ⟨members, plan, d, rfl, hok, hd, hD⟩
    refine .andThen
      ((spec_putBack H w.disk plan.dir plan.patched.text).weaken (fun _ h => h) (fun _ => hswapped)
      (fun _ _ h => h)
      fun D => Or.imp_right (hswapped D)) fun _ => .ret fun _ hD => hD
  | _ => exact .look fun D hD => Or.inl hD

/-- Such a message comes to the call of the tool. -/
theorem CallsPatch.handle_eq {ω : Type*} (h : CallsPatch msg arguments) (S : Runtime ω) (v : ω) :
    handle S v msg = callTool S v (msg.getD "id".toList .null) .skillPatch arguments := by
  obtain ⟨params, hparams, hname, rfl⟩ := h.params
  have hcall : handle S v msg = toolsCall S v (msg.getD "id".toList .null) (paramsOf msg) := by
    unfold handle
    rw [h.method, if_neg (by decide), if_neg (by decide), if_neg (by decide), if_neg (by decide),
      if_pos (by decide)]
  rw [hcall, hparams, toolsCall, hname, if_pos (by decide)]
  rfl

/-- The server answers with `isError` exactly if the tool has raised. -/
theorem CallsPatch.answer (h : CallsPatch msg arguments) (H : PatchHost δ) (R : Runtime (Serving δ))
    (w : Serving δ) :
    (handle (H.runtime R) w msg).2 =
      ⟨(patchCall H w.cache (orEmpty arguments) w.disk).last,
        patchCache H w.disk w.cache (orEmpty arguments),
        w.passed ++ (patchCall H w.cache (orEmpty arguments) w.disk).passed⟩ ∧
    (isError (handle (H.runtime R) w msg).1 = true ↔ ∃ e,
        (patchCall H w.cache (orEmpty arguments) w.disk).result = .error e) := by
  have hcall : (H.runtime R).call .skillPatch (orEmpty arguments) w =
      (outcome H (patchCall H w.cache (orEmpty arguments) w.disk).result,
        ⟨(patchCall H w.cache (orEmpty arguments) w.disk).last,
          patchCache H w.disk w.cache (orEmpty arguments),
          w.passed ++ (patchCall H w.cache (orEmpty arguments) w.disk).passed⟩) := rfl
  rw [h.handle_eq, callTool, ← orEmpty, hcall]
  cases (patchCall H w.cache (orEmpty arguments) w.disk).result with
  | ok reply =>
    refine ⟨rfl, iff_of_false Bool.false_ne_true ?_⟩
    rintro ⟨e, he⟩
    cases he
  | error e =>
    cases e with
    | valueError m => exact ⟨rfl, iff_of_true rfl ⟨_, rfl⟩⟩
    | other what => exact ⟨rfl, iff_of_true rfl ⟨_, rfl⟩⟩

/-- **`skill_patch` is all or nothing.** -/
theorem patch_allOrNothing (H : PatchHost δ) (R : Runtime (Serving δ)) (w : Serving δ)
    (msg : Dict Text Json) (arguments : Json) (h : CallsPatch msg arguments) :
    AllOrNothing H w (orEmpty arguments) (isError (handle (H.runtime R) w msg).1)
        (handle (H.runtime R) w msg).2 := by
  obtain ⟨hstate, herror⟩ := h.answer H R w
  have hspec := spec_patchCall H w (orEmpty arguments)
  have hleft : isError (handle (H.runtime R) w msg).1 = true →
      Left H w.disk (patchCall H w.cache (orEmpty arguments) w.disk).last := by
    intro hfailed
    obtain ⟨e, he⟩ := herror.mp hfailed
    exact hspec.raises _ rfl e he
  rw [hstate]
  refine ⟨fun hfailed => (hleft hfailed).untouched, fun hfailed hunlink => ?_, fun hdone => ?_, _,
    rfl, hspec.passes _ rfl⟩
  · rcases hleft hfailed with hsame | ⟨hraises, -⟩
    · exact hsame
    · rw [hunlink] at hraises
      cases hraises
  · cases hr : (patchCall H w.cache (orEmpty arguments) w.disk).result with
    | ok reply => exact hspec.returns _ rfl reply hr
    | error e =>
      rw [herror.mpr ⟨e, hr⟩] at hdone
      cases hdone

/-! ### Arguments that are strings -/

/-- A string, or `None`. -/
def jsonOf : Option Text → Json
  | none => .null
  | some t => .str t

/-- The arguments are strings where they have to be. -/
structure Typed (members : Dict Text Json) (args : PatchArgs) : Prop where
  name : textArg members "name" = .ok args.name
  oldString : members.getD "old_string".toList .null = jsonOf args.oldString
  newString : members.getD "new_string".toList .null = jsonOf args.newString
  editedBy : textArg members "edited_by" = .ok args.editedBy

variable {members : Dict Text Json} {args : PatchArgs} {W : World} {name old new : Text}
  {file : Option (ℕ × Text)}

omit [DecidableEq δ] in
/-- What is found is patched as `patchRead` does it. -/
theorem patchFound_eq (hhash : ∀ t, H.hashRaises t = none)
    (hedited : textArg members "edited_by" = .ok args.editedBy) :
    patchFound H W members name (.str old) (.str new) file =
      readTextCapped file >>= patchRead { H.env with yaml := W.yaml } args old new := by
  unfold patchFound patchRead
  simp only [hhash, hedited]
  rfl

omit [DecidableEq δ] in
/-- **Up to the write** the call is that of `toolSkillPatch`. -/
theorem patchPlan_eq (hhash : ∀ t, H.hashRaises t = none) (h : Typed members args) :
    patchPlan H D cache members =
      match skillPatchDir (H.worldOf D) cache args with
      | (.error e, cache') => (.error e, cache')
      | (.ok dir, cache') =>
        (Plan.mk (strip args.name) dir <$>
          patchFile { H.env with yaml := H.world.yaml } args (H.fileAt D (skillMd dir)),
              cache') := by
  unfold patchPlan skillPatchDir PatchArgs.check
  rw [h.name, h.oldString, h.newString]
  simp only
  by_cases hname : strip args.name = []
  · simp only [hname, if_true]
  simp only [hname, if_false]
  obtain ⟨name, oldString, newString, editedBy⟩ := args
  simp only
  match oldString, newString with
  | none, _ => rfl
  | some [], _ => rfl
  | some (c :: cs), none => rfl
  | some (c :: cs), some new =>
    by_cases hsame : c :: cs = new
    · subst hsame
      simp [jsonOf, Json.truthy, isNone, PatchHost.equal]
    · have hcheck : (PatchArgs.mk name (some (c :: cs)) (some new) editedBy).check =
          .ok (c :: cs, new) := by
        simp [PatchArgs.check, hname, hsame]
      have hfile : ∀ file, patchFound H (H.worldOf D) members (strip name) (.str (c :: cs))
          (.str new) file =
          patchFile { H.env with yaml := H.world.yaml } ⟨name, some (c :: cs), some new,
              editedBy⟩ file := by
        intro file
        rw [patchFound_eq hhash h.editedBy, patchFile, hcheck]
        rfl
      simp only [jsonOf, Json.truthy, isNone, PatchHost.equal, hsame, hfile, Option.getD_some,
        ne_eq, reduceCtorEq, not_false_eq_true,
        decide_true, not_true_eq_false, if_false, decide_false, Bool.false_eq_true]

/-- **Of strings** the call returns what `toolSkillPatch` returns, of a write that is made. -/
theorem patchCall_ok (hhash : ∀ t, H.hashRaises t = none) (h : Typed members args)
    {reply : PatchReply}
    (hr : (patchCall H cache (.obj members) D).result = .ok reply) (x : Write) :
    (toolSkillPatch (H.worldOf D) H.env (some x) cache args).1 = .ok reply := by
  obtain ⟨plan, hplan, hrest⟩ := Effect.exists_of_andThen hr
  obtain ⟨-, -, hreply⟩ := Effect.exists_of_andThen hrest
  obtain rfl : plan.reply H = reply := Except.ok.inj hreply
  have hplan' : (patchPlan H D cache members).1 = .ok plan := hplan
  rw [patchPlan_eq hhash h] at hplan'
  unfold toolSkillPatch
  rcases hdir : skillPatchDir (H.worldOf D) cache args with ⟨_ | dir, cache'⟩
  · rw [hdir] at hplan'
    cases hplan'
  · rw [hdir] at hplan'
    simp only at hplan' ⊢
    cases hfile : patchFile { H.env with yaml := H.world.yaml } args (H.fileAt D (skillMd dir)) with
    | error e =>
      rw [hfile] at hplan'
      cases hplan'
    | ok r =>
      rw [hfile] at hplan'
      cases hplan'
      have hsame : patchFile { H.env with yaml := (H.worldOf D).yaml } args
          ((H.worldOf D).file (skillMd dir)) = .ok r := hfile
      rw [hsame]
      rfl

end

/-! ### A call that cannot change the mode of its file -/

/-- `chmod` fails. -/
def chmodHost : PatchHost Unit where
  world := oneSkill 17 []
  env := patchEnv fun _ => digestB
  dirAt path := if path = rewrittenSkill.dir then some () else none
  same _ _ := false
  hashRaises _ := none
  raises
    | .chmod => some (.other "PermissionError".toList)
    | _ => none
  unlinkRaises := false
  random := "x1".toList
  flushed := [5]
  dumps _ := []

/-- The skill `s`, with the body `a`. -/
def bodyADisk : Entries Unit :=
  fun p => if p.2 = skillMdName then some (.file (encode bodyA)) else none

/-- A call that replaces `a` by `c`. -/
def patchMessage : Dict Text Json :=
  [("method".toList, .lit "tools/call"),
    ("params".toList, .obj [("name".toList, .lit "skill_patch"),
    ("arguments".toList,
      .obj [("name".toList, .lit "s"), ("old_string".toList, .lit "a"),
      ("new_string".toList, .lit "c")])])]

/-- A runtime that is asked for nothing else. -/
def idleRuntime : Runtime (Serving Unit) where
  loads _ := .raised
  str _ := none
  call _ _ w := (.raised, w)
  dumpsDepth := 993
  room := Nat.le_of_ble_eq_true rfl

theorem patch_allOrNothing_sample :
    isError (handle (chmodHost.runtime idleRuntime) ⟨bodyADisk, oneSkillCache 17, []⟩
      patchMessage).1 = true ∧
      AllOrNothing chmodHost ⟨bodyADisk, oneSkillCache 17, []⟩
        (orEmpty (.obj [("name".toList, .lit "s"), ("old_string".toList, .lit "a"),
          ("new_string".toList, .lit "c")]))
        (isError (handle (chmodHost.runtime idleRuntime) ⟨bodyADisk, oneSkillCache 17, []⟩
          patchMessage).1)
        (handle (chmodHost.runtime idleRuntime) ⟨bodyADisk, oneSkillCache 17, []⟩ patchMessage).2 :=
  ⟨by decide +kernel, patch_allOrNothing _ _ _ _ _ ⟨rfl, _, rfl, rfl, rfl⟩⟩

end OracleSkills.Server
