import OracleSkills.Python.Lines
import OracleSkills.Server.PatchTool

/-!
# The stamped hash and the body that is read back

`skill_patch` stamps the hash of the body that it writes. `skill_view` reads the body line by line,
and joins the lines with line feeds, so that the hash of what it gives is the stamped one if the
body, stripped, has no line end but line feeds. Where there is another one, the two texts differ,
and the hash is the same only by a collision. `patch_hashReadsBack_iff` is this for any call that
succeeds.
-/

namespace OracleSkills.Server

open Python Frontmatter Writer

/-- The file is stamped with the hash that the call returned, and that is the hash of the body that
`skill_view` gives, where it gives one. -/
structure HashReadsBack (sha256 : Text → Digest) (yaml : Yaml) (file : Option (ℕ × Text))
    (hash : Digest) : Prop where
  stamped : ∀ size text, file = some (size, text) → Stamped (rawFrontmatter text).1 hash
  body : ∀ content, viewFile yaml file = .ok content → sha256 (strip content) = hash

/-- The file is too large to be read; or its body, stripped, has no line end but line feeds; or it
has another one, and the two texts have one hash. -/
def ReadsAsHashed (sha256 : Text → Digest) (text body : Text) : Prop :=
  maxFileBytes < utf8Length text ∨ LfOnly (strip body) ∨
    lfLines (strip body) ≠ strip body ∧ sha256 (lfLines (strip body)) = sha256 (strip body)

/-! ### The body, line by line -/

theorem strip_terminated (body : Text) : strip (terminated body) = strip body := by
  rw [terminated]
  split_ifs
  · rfl
  · exact strip_append_right (fun c hc => by rw [List.mem_singleton.mp hc]; decide) body

/-- What `skill_view` gives of a body, stripped. -/
theorem strip_bodyOf (body : Text) :
    strip (bodyOf (splitlines (terminated body))) = lfLines (strip body) := by
  have hlf : ∀ c ∈ (join ['\n'] (splitlines (terminated body))).takeWhile (· = '\n'),
      isSpace c = true := by
    intro c hc
    rw [show c = '\n' by simpa using List.mem_takeWhile_imp hc]
    decide
  calc strip (bodyOf (splitlines (terminated body)))
      = strip (join ['\n'] (splitlines (terminated body))) := by
        conv_rhs => rw [← List.takeWhile_append_dropWhile (p := (· = '\n'))
          (l := join ['\n'] (splitlines (terminated body)))]
        rw [strip_append_left hlf, bodyOf]
    _ = lfLines (strip body) := by
      rw [join_splitlines, strip_dropLf, strip_lfLines, strip_terminated]

theorem splitFrontmatterEx_body {yaml : Yaml} {text body : Text} {fm : Dict Text Value}
    {status : Option Text} (h : splitFrontmatterEx yaml text = .ok (fm, body, status)) :
    body = (rawFrontmatter text).2 := by
  rw [splitFrontmatterEx] at h
  rw [rawFrontmatter]
  split_ifs at h ⊢
  · cases hb : blockLines text with
    | none =>
      rw [hb] at h
      cases h
      rfl
    | some ab =>
      obtain ⟨lines, rest⟩ := ab
      rw [hb] at h
      cases yaml with
      | none =>
        cases h
        rfl
      | some load =>
        simp only at h
        split at h
        · split at h
          · cases h
          · cases h
            rfl
        · obtain ⟨_, -, h⟩ := bind_eq_ok.mp h
          cases h
          rfl
        · cases h
          rfl
  · cases h
    rfl

/-! ### The call -/

section

variable {env : PatchEnv} {args : PatchArgs} {file : Option (ℕ × Text)} {r : Patched}
  {old new original content : Text}

/-- A file that was patched can be split, so that `skill_view` gives its body if it is not too
large, -/
theorem Accepted.viewFile_iff (h : Accepted env args file r old new original) :
    viewFile env.yaml (some (utf8Length r.text, r.text)) = .ok content ↔
      utf8Length r.text ≤ maxFileBytes ∧ content = (rawFrontmatter r.text).2 := by
  obtain ⟨-, -, -, fm, body, status, -, hpost, -⟩ := h.clean
  rw [viewFile, readTextCapped]
  split_ifs with hsize
  · refine iff_of_false (fun he => ?_) (by omega)
    cases he
  · show (splitFrontmatterEx env.yaml r.text >>= fun x => .ok x.2.1) = .ok content ↔ _
    rw [hpost, ← splitFrontmatterEx_body hpost]
    show Except.ok body = Except.ok content ↔ _
    rw [Except.ok.injEq, eq_comm]
    exact (and_iff_right (by omega)).symm

/-- and its hash is the one of the new body, with line feeds for line ends. -/
theorem Accepted.bodyHash_read (h : Accepted env args file r old new original) :
    env.bodyHash (rawFrontmatter r.text).2 = env.sha256 (lfLines (strip r.body)) := by
  rw [h.succeeds.read_lines, PatchEnv.bodyHash, strip_bodyOf]

/-- **When the stamp is the hash of what is read back**, for a patch of a file. -/
theorem Accepted.hashReadsBack_iff (h : Accepted env args file r old new original) :
    HashReadsBack env.sha256 env.yaml (some (utf8Length r.text, r.text)) (env.bodyHash r.body) ↔
      ReadsAsHashed env.sha256 r.text r.body := by
  have hstamped : ∀ size text, some (utf8Length r.text, r.text) = some (size, text) →
      Stamped (rawFrontmatter text).1 (env.bodyHash r.body) := by
    intro size text heq
    cases heq
    rw [h.succeeds.read_lines]
    exact h.succeeds.stamped
  have hsame : env.bodyHash (rawFrontmatter r.text).2 = env.bodyHash r.body ↔
      LfOnly (strip r.body) ∨ lfLines (strip r.body) ≠ strip r.body ∧
        env.sha256 (lfLines (strip r.body)) = env.sha256 (strip r.body) := by
    rw [h.bodyHash_read, PatchEnv.bodyHash, ← lfLines_eq_self_iff]
    by_cases hlf : lfLines (strip r.body) = strip r.body
    · simp [hlf]
    · simp [hlf]
  rw [ReadsAsHashed, ← hsame]
  constructor
  · intro hback
    by_cases hsize : maxFileBytes < utf8Length r.text
    · exact Or.inl hsize
    · exact Or.inr (hback.body _ (h.viewFile_iff.mpr ⟨by omega, rfl⟩))
  · intro hcond
    refine ⟨hstamped, fun content hview => ?_⟩
    obtain ⟨hsize, rfl⟩ := h.viewFile_iff.mp hview
    exact hcond.resolve_left (by omega)

/-- **When the stamp is the hash of what is read back**: after a call that succeeds, the file
carries the hash that the call returned, and `skill_view` gives a body of that hash, exactly if it
gives none, since the file has grown too large, or the new body, stripped, has no line end but line
feeds; or by a collision. -/
theorem patch_hashReadsBack_iff {W W' : World} {written : Option Write} {cache cache' : Cache}
    {reply : PatchReply} (h : toolSkillPatch W env written cache args = (.ok reply, W', cache')) :
    ∃ dir old new size original, (skillPatchDir W cache args).1 = .ok dir ∧
      args.oldString = some old ∧
      args.newString = some new ∧ W.file (skillMd dir) = some (size, original) ∧
      (HashReadsBack env.sha256 W'.yaml (W'.file (skillMd dir)) reply.contentHash ↔
        ReadsAsHashed env.sha256 (edited env args old new original).text
            (replaceFirst old new (rawFrontmatter original).2)) := by
  obtain ⟨dir, x, r, old, new, original, hdir, -, hacc, rfl, hfile, rfl⟩ := toolSkillPatch_patches h
  obtain ⟨size, hread, -⟩ := hacc.read
  refine ⟨dir, old, new, size, original, congrArg Prod.fst hdir, hacc.succeeds.args_eq.1,
    hacc.succeeds.args_eq.2, hread, ?_⟩
  rw [hfile]
  have hiff := hacc.hashReadsBack_iff
  rw [hacc.eq] at hiff ⊢
  exact hiff

end

/-! ### A carriage return -/

/-- The SHA-256 digests of three texts. -/
def crDigest (text : Text) : Digest :=
  if text = "b\r\nc".toList then
    ⟨"b7e11f71e2f3f9ab6e1aed29c5c30dd156dbe2bb9aaf41c021a34a8f0a265ff7".toList, by decide, List.all_eq_true.mp (by decide)⟩
  else if text = "b\nc".toList then
    ⟨"6c516cfc306e53636a409aa84780db9730490c6b3928ccab0f183a8fbc39124e".toList, by decide, List.all_eq_true.mp (by decide)⟩
  else digestB

theorem patch_bodyA (new : Text) (hnew : ['a'] ≠ new) :
    toolSkillPatch (oneSkill 17 bodyA) (patchEnv crDigest) (some ⟨1, []⟩) (oneSkillCache 17)
      (patchArgs ['a'] new) =
      (.ok ((edited (patchEnv crDigest) (patchArgs ['a'] new) ['a'] new bodyA).reply
        (patchEnv crDigest) (patchArgs ['a'] new)),
        (oneSkill 17 bodyA).write (skillMd rewrittenSkill.dir)
          (edited (patchEnv crDigest) (patchArgs ['a'] new) ['a'] new bodyA).text
          ⟨1, []⟩, oneSkillCache 17) :=
  toolSkillPatch_oneSkill crDigest (by decide) hnew (by decide) (by decide)

/-- The sample patched. -/
def patchedA (new : Text) : Patched :=
  edited (patchEnv crDigest) (patchArgs ['a'] new) ['a'] new bodyA

theorem hashReadsBack_sample :
    ∃ dir old new size original,
      (skillPatchDir (oneSkill 17 bodyA) (oneSkillCache 17) (patchArgs ['a'] ['b'])).1 = .ok dir ∧
      (patchArgs ['a'] ['b']).oldString = some old ∧ (patchArgs ['a'] ['b']).newString = some new ∧
      (oneSkill 17 bodyA).file (skillMd dir) = some (size, original) ∧
      (HashReadsBack crDigest none
          (((oneSkill 17 bodyA).write (skillMd rewrittenSkill.dir) (patchedA ['b']).text
          ⟨1, []⟩).file
          (skillMd dir))
            ((patchedA ['b']).reply (patchEnv crDigest) (patchArgs ['a'] ['b'])).contentHash ↔
        ReadsAsHashed crDigest
          (edited (patchEnv crDigest) (patchArgs ['a'] ['b']) old new original).text
          (replaceFirst old new (rawFrontmatter original).2)) :=
  patch_hashReadsBack_iff (patch_bodyA ['b'] (by decide))

/-- With a carriage return in the new string the stamped hash is not that of the body that is read
back. -/
theorem hash_not_readBack :
    ¬ ∀ W env written cache args reply W' cache' dir, toolSkillPatch W env written cache args =
      (.ok reply, W', cache') →
      (skillPatchDir W cache args).1 = .ok dir →
      HashReadsBack env.sha256 W'.yaml (W'.file (skillMd dir)) reply.contentHash := by
  intro hall
  have hback := (hall _ _ _ _ _ _ _ _ _ (patch_bodyA "b\r\nc".toList (by decide))
    (congrArg Prod.fst
      (skillPatchDir_oneSkill _ _ (check_patchArgs (by decide) (by decide)) rfl))).body
      "b\nc".toList
  rw [write_file, ← patchedA] at hback
  have hview : viewFile none
      (some (utf8Length (patchedA "b\r\nc".toList).text, (patchedA "b\r\nc".toList).text)) =
      .ok "b\nc".toList := by
    have hsize : utf8Length (patchedA "b\r\nc".toList).text ≤ maxFileBytes := by decide +kernel
    rw [viewFile, readTextCapped, if_neg (by omega)]
    rfl
  generalize (patchedA "b\r\nc".toList).text = text at hback hview
  have hsame := congrArg Digest.text (hback hview)
  revert hsame
  decide +kernel

end OracleSkills.Server
