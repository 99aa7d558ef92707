import OracleSkills.Python.Occurs
import OracleSkills.Server.PatchTool

/-!
# An unambiguous match

"Refuses non-unique matches": `skill_patch` counts the occurrences of `old_string` in the body with
`str.count`, which does not see an occurrence that begins inside another. `unambiguous_iff` says for
which files and strings every call refuses what is not unique: unless the string overlaps itself in
the body, all of its occurrences inside the first, and nothing else stops the call.
-/

namespace OracleSkills.Server

open Python Frontmatter Writer

section

variable {W : World} {env : PatchEnv} {written : Option Write} {cache : Cache} {args : PatchArgs}
  {dir : Text} {size : ℕ} {original old new : Text}

/-- The call is for the file with that size and text, with those strings. -/
structure CallsFor (W : World) (cache : Cache) (args : PatchArgs) (size : ℕ)
    (original old new : Text) : Prop where
  file : ∃ dir, (skillPatchDir W cache args).1 = .ok dir ∧
    W.file (skillMd dir) = some (size, original)
  old : args.oldString = some old
  new : args.newString = some new

/-- The call succeeds only if the old string stands at one position of the body, and else it fails
and changes nothing. -/
structure Unambiguous (W : World) (env : PatchEnv) (written : Option Write) (cache : Cache)
    (args : PatchArgs) (original old : Text) : Prop where
  succeeds : ∀ reply, (toolSkillPatch W env written cache args).1 = .ok reply →
    StartsOnce old (rawFrontmatter original).2
  fails : ¬ StartsOnce old (rawFrontmatter original).2 →
    (∃ e, (toolSkillPatch W env written cache args).1 = .error e) ∧
      (toolSkillPatch W env written cache args).2.1 = W

/-- A call that succeeds has counted one occurrence. -/
theorem CallsFor.once (h : CallsFor W cache args size original old new) {reply : PatchReply}
    (hok : (toolSkillPatch W env written cache args).1 = .ok reply) :
    old ≠ [] ∧ old ≠ new ∧ size ≤ maxFileBytes ∧ count old (rawFrontmatter original).2 = 1 := by
  obtain ⟨dir, x, r, hdir, -, hpatch, -, -⟩ := toolSkillPatch_ok (Prod.ext hok rfl)
  obtain ⟨o, n, text, hacc⟩ := patchFile_ok hpatch
  obtain ⟨dir', hdir', hfile⟩ := h.file
  rw [hdir, Except.ok.injEq] at hdir'
  obtain ⟨size', hread, hsize⟩ := hacc.read
  rw [hdir', hfile, Option.some.injEq, Prod.mk.injEq] at hread
  obtain ⟨rfl, rfl⟩ := hread
  obtain ⟨ho, hn, hne⟩ := check_eq_ok hacc.check
  rw [h.old, Option.some.injEq] at ho
  rw [h.new, Option.some.injEq] at hn
  subst ho hn
  exact ⟨hne, check_ne hacc.check, hsize, hacc.once⟩

/-- A string that is counted once is patched, wherever else it stands. -/
theorem patched_oneSkill (hne : old ≠ []) (hnew : old ≠ new) (hsize : size ≤ maxFileBytes)
    (hcount : count old (rawFrontmatter original).2 = 1) :
    CallsFor (oneSkill size original) (oneSkillCache size)
      (patchArgs old new) size original old new ∧
      ∃ reply, (toolSkillPatch (oneSkill size original) (patchEnv fun _ => digestB) (some ⟨1, []⟩)
        (oneSkillCache size)
        (patchArgs old new)).1 = .ok reply := by
  have hdir := skillPatchDir_oneSkill size original (check_patchArgs hne hnew) rfl
  exact ⟨⟨⟨_, congrArg Prod.fst hdir, rfl⟩, rfl, rfl⟩, _,
    congrArg Prod.fst (toolSkillPatch_oneSkill _ hne hnew hsize hcount)⟩

/-- **When a match is unambiguous**: every call for a file with an old string and a new one succeeds
only if the old string stands at one position of the body, and fails and changes nothing if it
stands at none or at several, exactly if the string does not overlap itself in the body, or no call
can succeed for the strings or the size. -/
theorem unambiguous_iff (size : ℕ) (original old new : Text) :
    (∀ W env written cache args, CallsFor W cache args size original old new →
      Unambiguous W env written cache args original old) ↔
    old = new ∨ maxFileBytes < size ∨ ¬ Overlapped old (rawFrontmatter original).2 := by
  constructor
  · intro hall
    by_contra hno
    rw [not_or, not_or, not_not, Nat.not_lt] at hno
    obtain ⟨hnew, hsize, hover⟩ := hno
    have hne : old ≠ [] := by
      rintro rfl
      obtain ⟨i, -, -, hi, -, hin⟩ := hover
      have := hin i hi
      simp at this
    obtain ⟨hcalls, reply, hok⟩ :=
      patched_oneSkill hne hnew hsize ((count_eq_one_iff_once hne).mpr (Or.inr hover))
    exact hover.not_startsOnce ((hall _ _ _ _ _ hcalls).succeeds reply hok)
  · intro hcond W env written cache args hcalls
    have hsucceeds : ∀ reply, (toolSkillPatch W env written cache args).1 = .ok reply →
        StartsOnce old (rawFrontmatter original).2 := by
      intro reply hok
      obtain ⟨hne, hnew, hsize, hcount⟩ := hcalls.once hok
      rcases hcond with hsame | hlarge | hover
      · exact absurd hsame hnew
      · omega
      · exact ((count_eq_one_iff_once hne).mp hcount).resolve_right hover
    refine ⟨hsucceeds, fun hno => ?_⟩
    cases hres : (toolSkillPatch W env written cache args).1 with
    | ok reply => exact absurd (hsucceeds reply hres) hno
    | error e => exact ⟨⟨e, rfl⟩, toolSkillPatch_error hres⟩

/-- `bb` stands at two positions of `bbb`, and the call replaces the first. -/
theorem patched_ambiguous :
    ¬ ∀ W env written cache args size original old new,
      CallsFor W cache args size original old new →
      Unambiguous W env written cache args original old := by
  intro hall
  have hbody : rawFrontmatter "---\nname: s\n---\nbbb".toList =
      (["name: s".toList], "bbb".toList) := by decide
  have hcount : count "bb".toList (rawFrontmatter "---\nname: s\n---\nbbb".toList).2 = 1 := by
    rw [hbody]
    decide
  obtain ⟨hcalls, reply, hok⟩ := patched_oneSkill (show "bb".toList ≠ [] by decide)
    (show "bb".toList ≠ [] by decide)
    (show 19 ≤ maxFileBytes by decide) hcount
  obtain ⟨i, -, honly⟩ := (hall _ _ _ _ _ _ _ _ _ hcalls).succeeds reply hok
  rw [hbody] at honly
  have hzero := honly 0 (by decide)
  have hone := honly 1 (by decide)
  omega

end

end OracleSkills.Server
