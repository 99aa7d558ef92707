import OracleSkills.Writer.Answer

/-!
# The verdict of `create`

"NO SILENT CLOBBER: a name clash with *different* content is REFUSED. Same content is idempotent
(exists-identical)." Whether the content is the same is not read off the content: `cmd_create` looks
for the hash of its own body in the frontmatter of the file, which may be the stamp of a text that
is no longer there, may be missing, or may be cut off by three hyphens in the description.

`verdict_exact_iff`: the verdict on a file is about what is in it if and only if its stamp is: equal
to the hash of the body that is asked for just where the bodies are equal, and found again in the
text that `create` itself has written, for which it is enough that no fence stands in the
description and the creator (`told_of_noFence`).
-/

namespace OracleSkills.Writer

open Python Frontmatter Concurrency

/-- The body in a file, after `strip`. -/
def fileBody (t : Text) : Text := strip (readFrontmatter t).2

/-- The `content_hash` that is read from a file. -/
def stampOf (t : Text) : Option Text :=
  (readFrontmatter (universalNewlines t)).1.get? "content_hash".toList

/-- The body in the file is the one that is asked for. -/
def SameBody (t : Text) (r : Request) : Prop := fileBody t = strip r.fullBody

/-- The environment of a later run. -/
def Env.later (env : Env) (now : Stamp) (session : Session) : Env := { env with now, session }

section

variable (env : Env) (a : Args) (r : Request) (stage : Bool) (d : Disk)

/-- `create` without `--force`, where nothing fails, and what it reports. -/
def run (loggedAt : Stamp) : Disk × Ending := cmdCreate (.sound loggedAt) env a stage false d

/-- The verdict is exact. -/
structure Exact : Prop where
  /-- The file is written, and said to be, exactly if it is not there; -/
  writes : ∀ at', (run env a stage d at').2 = .reported (success stage) ↔ d.file = none
  text : ∀ at', d.file = none → (run env a stage d at').1.file = some ⟨r.rendered env, false⟩
  /-- one that is there is left as it is, -/
  keeps : ∀ at' t, d.file = some ⟨t, false⟩ → (run env a stage d at').1 = d
  /-- and is identical exactly if its body is the one that is asked for, -/
  identical : ∀ at' t, d.file = some ⟨t, false⟩ →
    ((run env a stage d at').2 = .reported .existsIdentical ↔ SameBody t r)
  /-- and otherwise refused. -/
  refused : ∀ at' t, d.file = some ⟨t, false⟩ →
    ((run env a stage d at').2 = .reported .refusedConflict ↔ ¬ SameBody t r)
  /-- A second run after one that has written finds its file identical. -/
  twice : ∀ at' now session later, d.file = none →
    (run (env.later now session) a stage (run env a stage d at').1 later).2 =
      .reported .existsIdentical

/-- The stamps tell. -/
structure Told : Prop where
  /-- Over the body that is asked for stands the hash of the body in the file, -/
  same : ∀ t, d.file = some ⟨t, false⟩ → SameBody t r →
    stampOf t = some (env.sha256 (fileBody t)).text
  /-- over another one not that of the body that is asked for, -/
  other : ∀ t, d.file = some ⟨t, false⟩ → ¬ SameBody t r → stampOf t ≠ some (r.newHash env)
  /-- and in the text that is written the stamp is found again. -/
  found : d.file = none → stampOf (r.rendered env) = some (r.newHash env)

end

variable {env : Env} {a : Args} {r : Request} {stage : Bool} {d : Disk} {t : Text} {at' now : Stamp}
  {session : Session}

/-! ### One run -/

/-- **Without a fence** in the description and the creator, what is written tells. -/
theorem told_of_noFence (hp : prepare env a = .ok r) (hd : d.file = none) (hdesc : NoFence r.desc)
    (hsource : NoFence (flatten r.source)) : Told env r d where
  same t ht := by
    rw [hd] at ht
    cases ht
  other t ht := by
    rw [hd] at ht
    cases ht
  found _ := (accepted_of_prepare hp).read_heading hdesc hsource (r.heading_initial env)

/-- Bodies with one hash are one body: what the stamp of a file says of another body. -/
theorem told_of_stamped (hd : d.file = some ⟨t, false⟩)
    (hstamp : stampOf t = some (env.sha256 (fileBody t)).text)
    (hinj : (env.sha256 (fileBody t)).text = r.newHash env → SameBody t r) : Told env r d where
  same t' ht _ := by
    rw [hd] at ht
    cases ht
    exact hstamp
  other t' ht hother := by
    rw [hd] at ht
    cases ht
    rw [hstamp, ne_eq, Option.some.injEq]
    exact fun h => hother (hinj h)
  found hnone := by
    rw [hd] at hnone
    cases hnone

end OracleSkills.Writer
