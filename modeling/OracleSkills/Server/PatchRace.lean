import OracleSkills.Concurrency.Replace
import OracleSkills.Server.Patch

/-!
# Two calls of `skill_patch` on one file

Two server processes may patch one skill at the same time. Each call reads the
`SKILL.md`, checks and computes (`patch`), writes its text to a temporary file "via an
unpredictable, O_EXCL temp file in the same dir", and swaps it in: "`os.replace` is
the atomic swap". Nothing keeps the other process from reading in between.

So in every interleaving the file is the whole text that one of the calls wrote, and
carries the hash of its body (`last_patch`). But only where one call reads after the
other has renamed are both edits in the body (`both_edited`); where they overlap, one
of them is lost (`not_both_edited`).
-/

namespace OracleSkills.Server

open Python Frontmatter Writer Concurrency

/-- Calls of `skill_patch` on one skill by server processes `ι`. -/
structure Calls (ι : Type*) where
  env : ι → PatchEnv
  args : ι → PatchArgs

namespace Calls

variable {ι : Type*} (K : Calls ι)

/-- The steps of the calls: what a call computes is `patch`, and what it renames is the text of
the patched file. -/
def steps : Replacement ι Text Unit Patched where
  compute i file _ := (patch (K.env i) (K.args i) file).toOption
  put r := r.text

/-- `old_string`. -/
def old (i : ι) : Text := (K.args i).oldString.getD []

/-- `new_string`. -/
def new (i : ι) : Text := (K.args i).newString.getD []

variable {K}

theorem succeeds_of_compute {i : ι} {file : Text} {x : Unit} {r : Patched}
    (h : K.steps.compute i file x = some r) :
    Succeeds (K.env i) (K.args i) file r (K.old i) (K.new i) := by
  have hok : patch (K.env i) (K.args i) file = .ok r := by
    change (patch (K.env i) (K.args i) file).toOption = some r at h
    cases hp : patch (K.env i) (K.args i) file with
    | error e => rw [hp] at h; cases h
    | ok r' => rw [hp] at h; cases h; rfl
  obtain ⟨old, new, hs⟩ := succeeds_of_patch hok
  have ho : K.old i = old := by rw [Calls.old, hs.args_eq.1]; rfl
  have hn : K.new i = new := by rw [Calls.new, hs.args_eq.2]; rfl
  rw [ho, hn]
  exact hs

variable [DecidableEq ι] {file : Text} {tr : List (ι × Replacement.Event Unit)}
  {s : Sys ι Text (Replacement.Phase Text Patched)}

/-- A call that returned `patched: true` is a patch of the text it read that succeeded. -/
theorem succeeds_of_done (h : K.steps.protocol.run (Replacement.init file) tr = some s) {i : ι}
    {v : Text} {r : Patched}
    (hi : s.loc i = .done v r) : Succeeds (K.env i) (K.args i) v r (K.old i) (K.new i) := by
  obtain ⟨x, hx⟩ := (Replacement.inv_run h).computed i v r (by rw [hi]; exact ⟨rfl, rfl⟩)
  exact succeeds_of_compute hx

/-- In every interleaving, once a call has returned, the file is the whole text that one
of the calls wrote, which carries the hash of its body. -/
theorem last_patch (h : K.steps.protocol.run (Replacement.init file) tr = some s) {p : ι}
    {vp : Text} {rp : Patched} (hp : s.loc p = .done vp rp) :
    ∃ w v r, s.loc w = .done v r ∧ s.shared = patchText r.lines r.body ∧
      r.body = replaceFirst (K.old w) (K.new w) (rawFrontmatter v).2 ∧
      Stamped r.lines ((K.env w).bodyHash r.body) := by
  rcases (Replacement.inv_run h).shared with ⟨-, hnone⟩ | ⟨w, v, r, hw, hput⟩
  · exact absurd hp (hnone p vp rp)
  · have hs := succeeds_of_done h hw
    exact ⟨w, v, r, hw, hput.trans hs.text_eq, hs.body_eq, hs.stamped⟩

/-! ### Edits of one body -/

/-- Two texts stand at places of the body that do not overlap. -/
def Apart (old old' body : Text) : Prop :=
  ∃ x y z, body = x ++ old ++ y ++ old' ++ z ∨ body = x ++ old' ++ y ++ old ++ z

/-- The body `b` is `body` with both texts replaced, each at a place of its own. -/
def BothEdited (old new old' new' body b : Text) : Prop :=
  ∃ x y z, body = x ++ old ++ y ++ old' ++ z ∧ b = x ++ new ++ y ++ new' ++ z ∨
    body = x ++ old' ++ y ++ old ++ z ∧ b = x ++ new' ++ y ++ new ++ z

/-- One replacement after the other makes both, if what the second replaces stands at one
place of the body that the first leaves. -/
theorem bothEdited_of_replaceFirst {old old' body : Text} (hapart : Apart old old' body)
    (hold : OccursOnce old body)
    (new new' : Text) (hold' : OccursOnce old' (replaceFirst old new body)) :
    BothEdited old new old' new' body (replaceFirst old' new' (replaceFirst old new body)) := by
  obtain ⟨x, y, z, rfl | rfl⟩ := hapart
  · refine ⟨x, y, z, Or.inl ⟨rfl, ?_⟩⟩
    have hfirst : replaceFirst old new (x ++ old ++ y ++ old' ++ z) = x ++ new ++
        (y ++ old' ++ z) := by
      have h := replaceFirst_of_occursOnce (a := x) (b := y ++ old' ++ z) (by simpa using hold) new
      simpa using h
    rw [hfirst] at hold' ⊢
    have h := replaceFirst_of_occursOnce (a := x ++ new ++ y) (b := z) (by simpa using hold') new'
    simpa using h
  · refine ⟨x, y, z, Or.inr ⟨rfl, ?_⟩⟩
    have hfirst : replaceFirst old new (x ++ old' ++ y ++ old ++ z) = x ++ old' ++ y ++ new ++ z :=
      replaceFirst_of_occursOnce hold new
    rw [hfirst] at hold' ⊢
    have h := replaceFirst_of_occursOnce (a := x) (b := y ++ new ++ z) (by simpa using hold') new'
    simpa using h

/-- The body of the second call, where it reads after the first has renamed. -/
theorem body_of_readAfter {p q : ι} (hall : ∀ i, i = p ∨ i = q)
    (h : K.steps.protocol.run (Replacement.init file) tr = some s) {vp vq : Text} {rp rq : Patched}
    (hp : s.loc p = .done vp rp) (hq : s.loc q = .done vq rq)
    (hafter : Replacement.ReadAfter K.steps file tr q p)
    (hplain : Plain (replaceFirst (K.old p) (K.new p) (rawFrontmatter file).2)) :
    s.shared = patchText rq.lines rq.body ∧
      rq.body = replaceFirst (K.old q) (K.new q)
          (replaceFirst (K.old p) (K.new p) (rawFrontmatter file).2) := by
  obtain ⟨rfl, hvq, hs⟩ := Replacement.results_of_readAfter hall h hp hq hafter
  have hsp := succeeds_of_done h hp
  have hsq := succeeds_of_done h hq
  have hread : rawFrontmatter vq = (rp.lines, rp.body) := by
    rw [hvq]
    exact hsp.read_back (hsp.body_eq ▸ hplain)
  refine ⟨hs.trans hsq.text_eq, ?_⟩
  rw [hsq.body_eq, hread, hsp.body_eq]

/-- **Two patches of one file**: when both calls have returned, the file is the whole text
that one of them wrote, which is an edit of what that call read and carries the hash of its
body. If one call reads after the other has renamed, the body the first leaves is read
back as it is, and what the second replaces stands at one place of it, then both edits are
in the final body. -/
theorem patched_twice (K : Calls ι) {p q : ι} (hall : ∀ i, i = p ∨ i = q) (file : Text)
    (tr : List (ι × Replacement.Event Unit)) (s : Sys ι Text (Replacement.Phase Text Patched))
    (h : K.steps.protocol.run (Replacement.init file) tr = some s) {vp vq : Text} {rp rq : Patched}
    (hp : s.loc p = .done vp rp) (hq : s.loc q = .done vq rq) :
    (∃ w v r, s.loc w = .done v r ∧ s.shared = patchText r.lines r.body ∧
      r.body = replaceFirst (K.old w) (K.new w) (rawFrontmatter v).2 ∧
      Stamped r.lines ((K.env w).bodyHash r.body)) ∧
    (Replacement.ReadAfter K.steps file tr q p →
      OccursOnce (K.old p) (rawFrontmatter file).2 →
        Apart (K.old p) (K.old q) (rawFrontmatter file).2 →
      Plain (replaceFirst (K.old p) (K.new p) (rawFrontmatter file).2) →
      OccursOnce (K.old q) (replaceFirst (K.old p) (K.new p) (rawFrontmatter file).2) →
      ∃ lines body, s.shared = patchText lines body ∧
        BothEdited (K.old p) (K.new p) (K.old q) (K.new q) (rawFrontmatter file).2 body ∧
        Stamped lines ((K.env q).bodyHash body)) := by
  refine ⟨last_patch h hp, fun hafter honce hapart hplain honce' => ?_⟩
  obtain ⟨hfile, hbody⟩ := body_of_readAfter hall h hp hq hafter hplain
  refine ⟨rq.lines, rq.body, hfile, ?_, (succeeds_of_done h hq).stamped⟩
  rw [hbody]
  exact bothEdited_of_replaceFirst hapart honce _ _ honce'

/-! ### A sample -/

/-- The SHA-256 digests of the bodies of the sample. -/
def digestOf (body : Text) : Digest :=
  if body = "1 two".toList then
    ⟨"49740b6ce1adfb5df1dfd02b2cd70d0c6467ec3e3380e356771d83055180c1ab".toList, by decide, List.all_eq_true.mp (by decide)⟩
  else if body = "one 2".toList then
    ⟨"ebfb30a69e7b7b1098d5123ac1912eeffca0627e138bd3f24d5fa40baa184663".toList, by decide, List.all_eq_true.mp (by decide)⟩
  else ⟨"f71998fe363b9c29116c80b5eecf33a2fedca3b6159724384485804b71651029".toList, by decide, List.all_eq_true.mp (by decide)⟩

/-- Process `false` replaces `one` by `1`, process `true` replaces `two` by `2`. -/
def sample : Calls Bool where
  env _ := ⟨none, sampleEnv.now, [], digestOf⟩
  args i :=
    bif i then ⟨"x".toList, some "two".toList, some "2".toList, []⟩
    else ⟨"x".toList, some "one".toList, some "1".toList, []⟩

/-- The file they patch. -/
def sampleFile : Text := "---\nname: x\n---\none two\n".toList

/-- The file as process `i` writes it when it reads `file`. -/
def sampleEdit (i : Bool) (file : Text) : Patched :=
  edited (sample.env i) (sample.args i) (sample.old i) (sample.new i) file

theorem sample_compute {i : Bool} {file : Text} (hlen : utf8Length file ≤ maxFileBytes)
    (hcount : count (sample.old i) (rawFrontmatter file).2 = 1) :
    sample.steps.compute i file () = some (sampleEdit i file) := by
  have hok : patch (sample.env i) (sample.args i) file = .ok (sampleEdit i file) :=
    patch_of_noYaml rfl (by cases i <;> rfl) hlen hcount
  show (patch (sample.env i) (sample.args i) file).toOption = _
  rw [hok]
  rfl

theorem sample_first (i : Bool) :
    sample.steps.compute i sampleFile () = some (sampleEdit i sampleFile) :=
  sample_compute (by decide) (by cases i <;> decide)

theorem sample_second (i j : Bool) (hij : i ≠ j) :
    sample.steps.compute j (sampleEdit i sampleFile).text () =
        some (sampleEdit j (sampleEdit i sampleFile).text) := by
  have hread : rawFrontmatter (sampleEdit i sampleFile).text =
      ((sampleEdit i sampleFile).lines, (sampleEdit i sampleFile).body) :=
    (succeeds_of_compute (sample_first i)).read_back (by cases i <;> decide)
  apply sample_compute
  · cases i <;> decide +kernel
  · rw [hread]
    revert hij
    cases i <;> cases j <;> decide

/-- Process `true` calls when process `false` has returned. -/
def sampleTrace : List (Bool × Replacement.Event Unit) :=
  ((false, .read) :: Replacement.finish false ()) ++ (true, .read) :: Replacement.finish true ()

/-- The end of that run. -/
def sampleEnd : Sys Bool Text (Replacement.Phase Text Patched) :=
  let first := sampleEdit false sampleFile
  let second := sampleEdit true first.text
  ⟨second.text, fun i => bif i then .done first.text second else .done sampleFile first⟩

/-- The state after the first call. -/
def sampleMid : Sys Bool Text (Replacement.Phase Text Patched) :=
  ⟨(sampleEdit false sampleFile).text,
    Function.update (fun _ => .start) false (.done sampleFile (sampleEdit false sampleFile))⟩

theorem sampleMid_run :
    sample.steps.protocol.run (Replacement.init sampleFile)
      ((false, .read) :: Replacement.finish false ()) =
      some sampleMid := by
  have h := Replacement.run_read_finish (K := sample.steps) (s := Replacement.init sampleFile)
    (i := false) rfl
    (sample_first false)
  exact h

theorem sampleTrace_run :
    sample.steps.protocol.run (Replacement.init sampleFile) sampleTrace = some sampleEnd := by
  have h := Replacement.run_read_finish (K := sample.steps) (s := sampleMid) (i := true) rfl
    (sample_second false true (by decide))
  rw [sampleTrace, Protocol.run_append, sampleMid_run, Option.bind_some]
  refine h.trans (congrArg some ?_)
  rw [sampleEnd, Sys.mk.injEq]
  refine ⟨rfl, funext fun i => ?_⟩
  cases i <;> rfl

theorem patched_twice_sample :
    ∃ lines body, sampleEnd.shared = patchText lines body ∧
      BothEdited "one".toList "1".toList "two".toList "2".toList "one two".toList body ∧
      Stamped lines ((sample.env true).bodyHash body) :=
  (patched_twice sample (p := false) (q := true) (by decide) sampleFile sampleTrace sampleEnd
    sampleTrace_run rfl rfl).2
    ⟨_, _, _, rfl, sampleMid_run, _, _, rfl⟩
    (occursOnce_of_positions (n := 0) (by decide) (by decide))
    ⟨[], " ".toList, [], Or.inl (by decide)⟩
    (by decide)
    (occursOnce_of_positions (n := 2) (by decide) (by decide))

/-- Both processes read before one of them renames. -/
def overlapTrace : List (Bool × Replacement.Event Unit) :=
  [(false, .read), (true, .read)] ++ (Replacement.finish false () ++ Replacement.finish true ())

/-- The end of that run. -/
def overlapEnd : Sys Bool Text (Replacement.Phase Text Patched) :=
  ⟨(sampleEdit true sampleFile).text, fun i => .done sampleFile (sampleEdit i sampleFile)⟩

theorem overlapTrace_run :
    sample.steps.protocol.run (Replacement.init sampleFile) overlapTrace = some overlapEnd := by
  have hread : sample.steps.protocol.run (Replacement.init sampleFile)
      [(false, .read), (true, .read)] =
      some ⟨sampleFile, fun _ => .loaded sampleFile⟩ := by
    apply congrArg some
    rw [Sys.mk.injEq]
    refine ⟨rfl, funext fun i => ?_⟩
    cases i <;> rfl
  rw [overlapTrace, Protocol.run_append, hread, Option.bind_some, Protocol.run_append,
    Replacement.run_finish rfl (sample_first false), Option.bind_some,
    Replacement.run_finish rfl (sample_first true), Option.some.injEq, overlapEnd, Sys.mk.injEq]
  refine ⟨rfl, funext fun i => ?_⟩
  cases i <;> rfl

/-- Both calls return `patched: true`, and the edit of the first is lost. -/
theorem not_both_edited :
    ¬ ∀ (K : Calls Bool) (file : Text) (tr : List (Bool × Replacement.Event Unit))
      (s : Sys Bool Text (Replacement.Phase Text Patched)) (v₀ v₁ : Text) (r₀ r₁ : Patched),
      K.steps.protocol.run (Replacement.init file) tr = some s → s.loc false = .done v₀ r₀ →
        s.loc true = .done v₁ r₁ →
      OccursOnce (K.old false) (rawFrontmatter file).2 →
        OccursOnce (K.old true) (rawFrontmatter file).2 →
      Apart (K.old false) (K.old true) (rawFrontmatter file).2 →
      K.new false <:+: (rawFrontmatter s.shared).2 ∧ K.new true <:+: (rawFrontmatter s.shared).2 ∧
        Stamped (rawFrontmatter s.shared).1
            ((K.env true).bodyHash (rawFrontmatter s.shared).2) := by
  intro hall
  have h := hall sample sampleFile overlapTrace overlapEnd _ _ _ _ overlapTrace_run rfl rfl
    (occursOnce_of_positions (n := 0) (by decide) (by decide))
      (occursOnce_of_positions (n := 4) (by decide) (by decide))
    ⟨[], " ".toList, [], Or.inl (by decide)⟩
  have hread : rawFrontmatter overlapEnd.shared =
      ((sampleEdit true sampleFile).lines, (sampleEdit true sampleFile).body) :=
    (succeeds_of_compute (sample_first true)).read_back (by decide)
  rw [hread] at h
  exact absurd h.1 (by decide)

end Calls

end OracleSkills.Server
