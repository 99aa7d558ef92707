import OracleSkills.Server.Memo

/-!
# A call of `skill_patch`

`tool_skill_patch` from the name to the answer: the name is resolved through the index, the
`SKILL.md` is read and patched, and the new text is put in its place by `os.replace`. A call that
raises leaves the files as they are (`toolSkillPatch_error`); of one that succeeds
`toolSkillPatch_ok` says what it has done, and `patchFile_ok` what was so before. What it means for
the skill is in the modules after this one.
-/

namespace OracleSkills.Server

open Python Frontmatter Writer

/-! ### The tool -/

/-- `os.path.join(skill_dir, "SKILL.md")`. -/
def skillMd (dir : Text) : Text := dir ++ "/SKILL.md".toList

/-- `tool_skill_patch` from the read of the file up to the write. -/
def patchFile (env : PatchEnv) (args : PatchArgs) (file : Option (ℕ × Text)) :
    Except Raised Patched := do
  let (old, new) ← args.check
  let original ← readTextCapped file
  patchRead env args old new original

/-- The answer of the tool. -/
structure PatchReply where
  name : Text
  patched : Bool
  contentHash : Digest
  editedBy : Text
  bodyChars : ℕ

def Patched.reply (env : PatchEnv) (args : PatchArgs) (r : Patched) : PatchReply :=
  ⟨strip args.name, true, env.bodyHash r.body, r.editedBy, r.body.length⟩

/-- What comes of the write of a file: its modification time, and the other paths that lead to its
directory. -/
structure Write where
  mtime : ℕ
  aliases : List Text

/-- The files with `text` at `md`, and at every other path of that file. -/
def World.write (W : World) (md text : Text) (x : Write) : World :=
  W.among
    { glob := W.glob
      stat := fun path => if path ∈ md :: x.aliases then
        some (x.mtime, utf8Length text) else W.stat path
      file := fun path => if path ∈ md :: x.aliases then some (utf8Length text, text) else
        W.file path }

/-- `tool_skill_patch`: its answer, the files after it, and the cache. Where the write raises
(`none`), the temporary file is removed. -/
def toolSkillPatch (W : World) (env : PatchEnv) (written : Option Write) (cache : Cache)
    (args : PatchArgs) :
    Except Raised PatchReply × World × Cache :=
  match skillPatchDir W cache args with
  | (.error e, cache') => (.error e, W, cache')
  | (.ok dir, cache') =>
    match patchFile { env with yaml := W.yaml } args (W.file (skillMd dir)) with
    | .error e => (.error e, W, cache')
    | .ok r =>
      match written with
      | none => (.error (.other "OSError".toList), W, cache')
      | some x => (.ok (r.reply env args), W.write (skillMd dir) r.text x, cache')

/-- `skill_view` from the read of the file to its `content`. -/
def viewFile (yaml : Yaml) (file : Option (ℕ × Text)) : Except Raised Text := do
  let text ← readTextCapped file
  let (_, body, _) ← splitFrontmatterEx yaml text
  .ok body

/-! ### What a call has done -/

section

variable {W W' : World} {env : PatchEnv} {written : Option Write} {cache cache' : Cache}
  {args : PatchArgs}
  {reply : PatchReply} {file : Option (ℕ × Text)} {r : Patched} {size : ℕ} {old new original : Text}

/-- A call that raises changes nothing. -/
theorem toolSkillPatch_error {e : Raised}
    (h : (toolSkillPatch W env written cache args).1 = .error e) :
    (toolSkillPatch W env written cache args).2.1 = W := by
  unfold toolSkillPatch at h ⊢
  split
  · rfl
  · rename_i hdir
    simp only [hdir] at h
    split
    · rfl
    · rename_i hpatch
      simp only [hpatch] at h
      cases written with
      | none => rfl
      | some x => cases h

/-- What a call that succeeds has done. -/
theorem toolSkillPatch_ok (h : toolSkillPatch W env written cache args = (.ok reply, W', cache')) :
    ∃ dir x r, skillPatchDir W cache args = (.ok dir, cache') ∧ written = some x ∧
      patchFile { env with yaml := W.yaml } args (W.file (skillMd dir)) = .ok r ∧
      reply = r.reply env args ∧ W' = W.write (skillMd dir) r.text x := by
  unfold toolSkillPatch at h
  split at h
  · cases h
  · rename_i dir kept hdir
    split at h
    · cases h
    · rename_i r hpatch
      cases written with
      | none => cases h
      | some x =>
        cases h
        exact ⟨dir, x, r, hdir, rfl, hpatch, rfl, rfl⟩

/-- What is known of a patch of a file that succeeds: the checks it has passed, and its status
before and after. -/
structure Accepted (env : PatchEnv) (args : PatchArgs) (file : Option (ℕ × Text)) (r : Patched)
    (old new original : Text) :
    Prop where
  check : args.check = .ok (old, new)
  read : ∃ size, file = some (size, original) ∧ size ≤ maxFileBytes
  once : count old (rawFrontmatter original).2 = 1
  eq : r = edited env args old new original
  clean : ∃ fm body status fm' body' status', splitFrontmatterEx env.yaml original =
    .ok (fm, body, status) ∧
    splitFrontmatterEx env.yaml r.text = .ok (fm', body', status') ∧
      (status = none → status' = none)

theorem readTextCapped_ok {text : Text} (h : readTextCapped file = .ok text) :
    ∃ size, file = some (size, text) ∧ size ≤ maxFileBytes := by
  cases file with
  | none => cases h
  | some x =>
    obtain ⟨size, t⟩ := x
    rw [readTextCapped] at h
    split_ifs at h with hsize
    cases h
    exact ⟨size, rfl, by omega⟩

/-- **A patch that succeeds** has passed every check. -/
theorem patchFile_ok (h : patchFile env args file = .ok r) :
    ∃ old new original, Accepted env args file r old new original := by
  obtain ⟨⟨old, new⟩, hcheck, h⟩ := bind_eq_ok.mp h
  obtain ⟨original, hread, h⟩ := bind_eq_ok.mp h
  obtain ⟨⟨fm, body, status⟩, hpre, h⟩ := bind_eq_ok.mp h
  simp only at h
  split_ifs at h with hzero hmany
  obtain ⟨⟨fm', body', status'⟩, hpost, h⟩ := bind_eq_ok.mp h
  simp only at h
  split at h
  · cases h
  · rename_i hclean
    cases h
    refine ⟨old, new, original, hcheck, readTextCapped_ok hread, by omega, rfl, ?_⟩
    refine ⟨fm, body, status, fm', body', status', hpre, hpost, ?_⟩
    rintro rfl
    cases status' with
    | none => rfl
    | some s => exact (hclean s rfl rfl).elim

/-- Such a patch is one of those that `succeeds_of_patch` is about. -/
theorem Accepted.succeeds (h : Accepted env args file r old new original) :
    Succeeds env args original r old new where
  args_eq := ⟨(check_eq_ok h.check).1, (check_eq_ok h.check).2.1⟩
  old_ne := (check_eq_ok h.check).2.2
  eq := h.eq

/-- What has been written is there. -/
theorem write_file (W : World) (md text : Text) (x : Write) :
    (W.write md text x).file md = some (utf8Length text, text) :=
  if_pos (List.mem_cons_self ..)

/-- **A call that succeeds** has patched the `SKILL.md` of the skill and put it back. -/
theorem toolSkillPatch_patches
    (h : toolSkillPatch W env written cache args = (.ok reply, W', cache')) :
    ∃ dir x r old new original, skillPatchDir W cache args = (.ok dir, cache') ∧ written = some x ∧
      Accepted { env with yaml := W.yaml } args (W.file (skillMd dir)) r old new original ∧
      W' = W.write (skillMd dir) r.text x ∧
        W'.file (skillMd dir) = some (utf8Length r.text, r.text) ∧
      reply = r.reply env args := by
  obtain ⟨dir, x, r, hdir, hwritten, hpatch, hreply, rfl⟩ := toolSkillPatch_ok h
  obtain ⟨old, new, original, hacc⟩ := patchFile_ok hpatch
  exact ⟨dir, x, r, old, new, original, hdir, hwritten, hacc, rfl, write_file .., hreply⟩

/-- Without PyYAML the checks are enough. -/
theorem patchFile_of_noYaml (hyaml : env.yaml = none) (hcheck : args.check = .ok (old, new))
    (hsize : size ≤ maxFileBytes) (hcount : count old (rawFrontmatter original).2 = 1) :
    patchFile env args (some (size, original)) = .ok (edited env args old new original) := by
  have hread : readTextCapped (some (size, original)) = .ok original := if_neg (by omega)
  rw [patchFile, hcheck]
  show (readTextCapped (some (size, original)) >>= fun original =>
    patchRead env args old new original) = _
  rw [hread]
  exact patchRead_of_noYaml hyaml hcount args new

/-! ### A catalog of one skill -/

/-- A catalog of one skill, with that file. -/
def oneSkill (size : ℕ) (text : Text) : World :=
  rewrittenWorld.among
    { glob := fun _ => [rewrittenSkill]
      stat := fun _ => some (0, size)
      file := fun _ => some (size, text) }

/-- A file whose body is `a`. -/
def bodyA : Text := "---\nname: s\n---\na".toList

/-- It has been listed before. -/
def oneSkillCache (size : ℕ) : Cache :=
  [((rewrittenSkill.path, 0, size), ⟨"s".toList, none, none, none, [], rewrittenSkill⟩)]

/-- Its index. -/
theorem buildIndex_oneSkill (size : ℕ) (text : Text) :
    buildIndex (oneSkill size text) (oneSkillCache size) =
      (.ok ⟨[⟨"s".toList, none, none, none, [], rewrittenSkill⟩], [],
          [("s".toList, "skills".toList)]⟩, oneSkillCache size) := by
  have hdirs : iterSkillDirs (oneSkill size text) = [("skills".toList, rewrittenSkill)] := by
    simp [iterSkillDirs, oneSkill, World.among, rewrittenWorld]
  have hentry : parseEntry (oneSkill size text) (oneSkillCache size) rewrittenSkill =
      (.ok (.ok ⟨"s".toList, none, none, none, [], rewrittenSkill⟩), oneSkillCache size) := by
    have hget : (oneSkillCache size).get? (rewrittenSkill.path, 0, size) =
        some ⟨"s".toList, none, none, none, [], rewrittenSkill⟩ := by
          simp [oneSkillCache, Dict.get?]
    have hstat : (oneSkill size text).stat rewrittenSkill.path = some (0, size) := rfl
    rw [parseEntry, hstat]
    simp only [hget]
  simp only [buildIndex, hdirs, buildLoop, hentry]
  rfl

theorem skillPatchDir_oneSkill (size : ℕ) (text : Text) (hcheck : args.check = .ok (old, new))
    (hname : strip args.name = "s".toList) :
    skillPatchDir (oneSkill size text) (oneSkillCache size) args =
        (.ok rewrittenSkill.dir, oneSkillCache size) := by
  rw [skillPatchDir, hcheck]
  simp only [skillDirOf, resolveSkillDir, buildIndex_oneSkill, hname]
  rfl

/-- A server without PyYAML, with a hash. -/
def patchEnv (sha256 : Text → Digest) : PatchEnv := ⟨none, sampleEnv.now, [], sha256⟩

/-- A call for the skill `s`. -/
def patchArgs (old new : Text) : PatchArgs := ⟨"s".toList, some old, some new, []⟩

theorem check_patchArgs (hne : old ≠ []) (hnew : old ≠ new) :
    (patchArgs old new).check = .ok (old, new) := by
  have hname : strip "s".toList ≠ [] := by decide
  have hold : (patchArgs old new).oldString.getD [] = old := rfl
  rw [PatchArgs.check, if_neg (show strip (patchArgs old new).name ≠ [] from hname),
    hold, if_neg hne]
  exact if_neg hnew

/-- Such a call, of a string that is counted once. -/
theorem toolSkillPatch_oneSkill (sha256 : Text → Digest) (hne : old ≠ []) (hnew : old ≠ new)
    (hsize : size ≤ maxFileBytes) (hcount : count old (rawFrontmatter original).2 = 1) :
    toolSkillPatch (oneSkill size original) (patchEnv sha256) (some ⟨1, []⟩) (oneSkillCache size)
      (patchArgs old new) =
      (.ok ((edited (patchEnv sha256) (patchArgs old new) old new original).reply (patchEnv sha256)
        (patchArgs old new)),
        (oneSkill size original).write (skillMd rewrittenSkill.dir)
          (edited (patchEnv sha256) (patchArgs old new) old new original).text ⟨1, []⟩,
        oneSkillCache size) := by
  have hcheck := check_patchArgs hne hnew
  have hdir := skillPatchDir_oneSkill size original hcheck rfl
  have hpatch : patchFile { patchEnv sha256 with yaml := (oneSkill size original).yaml }
      (patchArgs old new) (some (size, original)) =
      .ok (edited (patchEnv sha256) (patchArgs old new) old new original) :=
    patchFile_of_noYaml rfl hcheck hsize hcount
  have hfile : (oneSkill size original).file (skillMd rewrittenSkill.dir) =
      some (size, original) := rfl
  simp only [toolSkillPatch, hdir, hfile, hpatch]

end

end OracleSkills.Server
