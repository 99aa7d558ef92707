import OracleSkills.Frontmatter.Scalar

/-!
# `auto_skill.py create`: what is written

`cmd_create` repairs its arguments ("repair inputs rather than bouncing them"),
refuses what is still not valid, and renders the `SKILL.md` to write. This module
has the repairs (`kebab`, `fitDesc`), the checks (`prepare`), and the text
(`render`, `Request.rendered`). What the writer does with the text is in
`OracleSkills.Writer.Race`.

The clock, the session id, SHA-256, `str.lower` and `repr` are the writer's
environment `Env`. A timestamp, a digest and a session id are kept with what is
known of their characters: `isoformat()` gives digits and `-:.+T`, `hexdigest()`
gives 64 lower-case hexadecimal digits, and Claude Code sets `CLAUDE_SESSION_ID` to
a UUID, so that its first eight characters are on one line and hold no fence.

What is *not* formalized: `argparse`. The arguments are those that it hands over.
-/

namespace OracleSkills.Writer

open Python Frontmatter

/-! ### The environment -/

/-- A lower-case hexadecimal digit. -/
def isHex (c : Char) : Bool := 48 ≤ c.toNat && c.toNat ≤ 57 || 97 ≤ c.toNat && c.toNat ≤ 102

/-- A character of an ISO timestamp. -/
def isStampChar (c : Char) : Bool := 48 ≤ c.toNat && c.toNat ≤ 57 || "-:.+T".toList.contains c

/-- The result of `hashlib.sha256(..).hexdigest()`. -/
structure Digest where
  text : Text
  length_eq : text.length = 64
  hex : ∀ c ∈ text, isHex c = true

/-- The result of `datetime.isoformat()`. -/
structure Stamp where
  text : Text
  chars : ∀ c ∈ text, isStampChar c = true
  noFence : NoFence text

/-- `(os.environ.get('CLAUDE_SESSION_ID') or '')[:8]`. -/
structure Session where
  text : Text
  oneLine : OneLine text
  noFence : NoFence text

/-- What `cmd_create` reads besides its arguments. -/
structure Env where
  /-- `_now_iso()`. -/
  now : Stamp
  /-- The first eight characters of the session id. -/
  session : Session
  /-- `$AUTO_SKILL_SOURCE`, empty when it is not set. -/
  autoSkillSource : Text
  /-- SHA-256 of the UTF-8 encoding of a text, in hexadecimal. -/
  sha256 : Text → Digest
  /-- `str.lower`. -/
  lower : Text → Text
  /-- `repr` of a text. -/
  repr : Text → Text

/-! ### Repairs -/

/-- `[a-z0-9]`. -/
def isSlug (c : Char) : Bool := 97 ≤ c.toNat && c.toNat ≤ 122 || 48 ≤ c.toNat && c.toNat ≤ 57

/-- `_kebab`: "every non-alphanumeric run becomes a single separator". -/
def kebab (lower : Text → Text) (s : Text) : Text :=
  stripBy (· = '-') (collapse (fun c => !isSlug c) '-' (lower (strip s)))

/-- `MAX_DESC`. -/
def maxDesc : ℕ := 200

/-- `_fit_desc`: the description, and its length before it was cut if it was. -/
def fitDesc (desc : Text) : Text × Option ℕ :=
  let d := strip (collapse isSpace ' ' desc)
  if d.length ≤ maxDesc then (d, none)
  else
    let c := d.take (maxDesc - 1)
    -- `sp > MAX_DESC * 0.6`: "keep a word boundary unless that loses too much"
    let c := match rfind ' ' c with
      | some sp => if 120 < sp then c.take sp else c
      | none => c
    (c.rdropWhile (" ,;:.-".toList.contains ·) ++ ['…'], some d.length)

/-- The trigger's repair: `re.sub(r"[\s_]+", "-", trig_given.lower())`. -/
def fitTrigger (lower : Text → Text) (trigger : Text) : Text :=
  collapse (fun c => isSpace c || c = '_') '-' (lower (strip trigger))

/-! ### Checks -/

/-- A pattern that ends in `$`: it may also match before a line feed that ends the text. -/
def matchDollar (p : Text → Bool) (t : Text) : Bool := p t || t.getLast? = some '\n' && p t.dropLast

/-- `^[a-z0-9][a-z0-9-]{lo,hi}` of a whole text. -/
def slugPattern (lo hi : ℕ) : Text → Bool
  | [] => false
  | c :: r => isSlug c && lo ≤ r.length && r.length ≤ hi && r.all fun c => isSlug c || c = '-'

/-- `NAME_RE.match(t)`. -/
def nameRe (t : Text) : Bool := matchDollar (slugPattern 1 48) t

/-- `CAT_RE.match(t)`. -/
def catRe (t : Text) : Bool := matchDollar (slugPattern 0 32) t

/-- `VALID_TRIGGERS`. -/
def validTriggers : List Text :=
  ["complex-task".toList, "error-recovery".toList, "user-correction".toList,
    "reusable-workflow".toList, "manual".toList, []]

/-- `INSTALLER`. -/
def installer : Text := "auto-skill".toList

/-- What reading `--body-file` gives. -/
inductive BodyFile where
  /-- The text of the file. -/
  | text (t : Text)
  /-- An `OSError`, as `str(e)`. -/
  | osError (e : Text)
  /-- Bytes that are no UTF-8: a `UnicodeDecodeError`, which nothing catches. -/
  | undecodable

/-- The arguments of `create` that decide what is written. -/
structure Args where
  name : Text
  desc : Text
  body : Text := []
  /-- `--body-file`, `none` when it is not given. -/
  bodyFile : Option BodyFile := none
  trigger : Text := []
  source : Text := []
  category : Text := []

/-- A repair that `cmd_create` reports. -/
inductive Repair where
  /-- `{"given": given, "used": used}`. -/
  | changed (given used : Text)
  /-- `{"given_chars": chars, "max": MAX_DESC, "used": used}`. -/
  | clipped (chars : ℕ) (used : Text)

/-- How `cmd_create` ends without writing. -/
inductive Stop where
  /-- `{"status": "invalid", ...}`, exit code 2. The `given_name` field is there when
  the name is what is wrong. -/
  | invalid (name : Text) (givenName : Option Text) (message : Text)
  /-- An exception that nothing catches. -/
  | crash

/-- Accepted arguments, repaired. -/
structure Request where
  name : Text
  desc : Text
  trigger : Text
  source : Text
  category : Text
  body : Text
  repairs : Dict Text Repair

/-- `repairs[field] = {"given": .., "used": ..}` when the repair changed something. -/
def Repair.note (field given used : Text) (repairs : Dict Text Repair) : Dict Text Repair :=
  if used ≠ given then repairs.set field (.changed given used) else repairs

/-- `(a.source or os.environ.get("AUTO_SKILL_SOURCE") or "").strip()`: "WHO created it
is mandatory". -/
def sourceOf (env : Env) (a : Args) : Text :=
  strip (if a.source = [] then env.autoSkillSource else a.source)

/-- `cmd_create` up to the point where it renders: the repaired arguments, or how it
stops. -/
def prepare (env : Env) (a : Args) : Except Stop Request :=
  let nameGiven := strip a.name
  let name := kebab env.lower nameGiven
  let repairs := Repair.note "name".toList nameGiven name []
  let (desc, descOrig) := fitDesc a.desc
  let repairs := match descOrig with
    | some n => repairs.set "description".toList (.clipped n desc)
    | none => repairs
  let trigGiven := strip a.trigger
  let trigger := fitTrigger env.lower a.trigger
  let repairs := Repair.note "trigger".toList trigGiven trigger repairs
  if ¬ nameRe name then
    .error (.invalid name (some nameGiven)
      ("name must be kebab-case ^[a-z0-9][a-z0-9-]\x7b1,48\x7d$ (normalized ".toList ++
        env.repr nameGiven ++
        " to ".toList ++ env.repr name ++ ", still invalid)".toList))
  else if desc = [] then .error (.invalid name none "description is required".toList)
  else if trigger ∉ validTriggers then
    .error (.invalid name none
      ("trigger must be one of ['', 'complex-task', 'error-recovery', 'manual', 'reusable-workflow', ".toList ++
        "'user-correction'] (normalized ".toList ++ env.repr trigGiven ++ " to ".toList ++
          env.repr trigger ++
        ")".toList))
  else
    let source := sourceOf env a
    if source = [] then
      .error (.invalid name none
        "creator id required — pass --source <oracle-id> or set AUTO_SKILL_SOURCE".toList)
    else
      let catGiven := strip a.category
      let category := kebab env.lower catGiven
      let repairs := Repair.note "category".toList catGiven category repairs
      if category ≠ [] ∧ ¬ catRe category then
        .error (.invalid name none
          "category must be a single kebab segment ^[a-z0-9][a-z0-9-]\x7b0,32\x7d$".toList)
      else
        match a.bodyFile with
        | some (.osError e) => .error (.invalid name none e)
        | some .undecodable => .error .crash
        | some (.text t) => .ok ⟨name, desc, trigger, source, category, t, repairs⟩
        | none => .ok ⟨name, desc, trigger, source, category, a.body, repairs⟩

/-! ### The text -/

/-- `_body_hash`. -/
def bodyHash (env : Env) (body : Text) : Digest := env.sha256 (strip body)

/-- `body.strip() or f"# /{name}\n\n{desc}\n\n## Steps\n\n1. <fill in the procedure>\n"`. -/
def bodyOrDefault (name desc body : Text) : Text :=
  if strip body ≠ [] then strip body
  else "# /".toList ++ name ++ "\n\n".toList ++ desc ++
    "\n\n## Steps\n\n1. <fill in the procedure>\n".toList

/-- The frontmatter of a new skill, as keys and written values. -/
def header (env : Env) (name desc trigger source category : Text) (hash : Digest) : List
    (Text × Text) :=
  [("name".toList, name),
    ("description".toList, yamlScalar desc),
    ("installer".toList, installer),
    ("created_at".toList, env.now.text),
    ("created_session".toList, env.session.text),
    ("trigger".toList, yamlScalar trigger),
    ("created_by".toList, yamlScalar source),
    ("category".toList, yamlScalar category),
    ("content_hash".toList, hash.text)]

/-- `_render`: "assemble a stamped SKILL.md string. content_hash covers the body only". -/
def render (env : Env) (name desc body trigger source category : Text) : Text :=
  let body := bodyOrDefault name desc body
  let fm := [fence] ++ (header env name desc trigger source category (bodyHash env body)).map
    (fun kv => field kv.1 kv.2)
    ++ [fence, []]
  join ['\n'] fm ++ rstrip body ++ ['\n']

/-- The text `cmd_create` writes. -/
def Request.rendered (env : Env) (r : Request) : Text :=
  render env r.name r.desc r.body r.trigger r.source r.category

/-- The body `cmd_create` writes: the given one, stripped, or the default one. -/
def Request.fullBody (r : Request) : Text := bodyOrDefault r.name r.desc r.body

/-- `new_hash` in `cmd_create`. -/
def Request.newHash (env : Env) (r : Request) : Text := (bodyHash env r.fullBody).text

/-- The frontmatter fields of a request. -/
def Request.header (env : Env) (r : Request) : List (Text × Text) :=
  Writer.header env r.name r.desc r.trigger r.source r.category (bodyHash env r.fullBody)

/-- The frontmatter lines of a request. -/
def Request.lines (env : Env) (r : Request) : List Text :=
  (r.header env).map fun kv => field kv.1 kv.2

/-- **The rendered text, line by line**: a fence, the frontmatter lines, a fence, the body. -/
theorem Request.rendered_eq (env : Env) (r : Request) :
    r.rendered env =
      fence ++ '\n' ::
          (unlines (r.lines env) ++ (fence ++ '\n' :: (rstrip r.fullBody ++ ['\n']))) := by
  have hj : [fence] ++ r.lines env ++ [fence, []] = ([fence] ++ r.lines env ++ [fence]) ++
      [[]] := by simp
  show join ['\n'] ([fence] ++ r.lines env ++ [fence, []]) ++ rstrip r.fullBody ++ ['\n'] = _
  rw [hj, join_concat_nil, unlines_append, unlines_append]
  simp

/-! ### What the checks establish -/

/-- What is known of an accepted request. -/
structure Accepted (env : Env) (a : Args) (r : Request) : Prop where
  name_eq : r.name = kebab env.lower (strip a.name)
  nameRe : nameRe r.name = true
  desc_eq : r.desc = (fitDesc a.desc).1
  desc_ne : r.desc ≠ []
  trigger_mem : r.trigger ∈ validTriggers
  source_eq : r.source = sourceOf env a
  source_ne : r.source ≠ []
  category_eq : r.category = kebab env.lower (strip a.category)
  catRe : r.category = [] ∨ catRe r.category = true

theorem accepted_of_prepare {env : Env} {a : Args} {r : Request} (h : prepare env a = .ok r) :
    Accepted env a r := by
  simp only [prepare] at h
  split_ifs at h with hn hd ht hs hc
  have hcat : kebab env.lower (strip a.category) = [] ∨
      Writer.catRe (kebab env.lower (strip a.category)) = true := by
    by_cases hnil : kebab env.lower (strip a.category) = []
    · exact Or.inl hnil
    · exact Or.inr (by by_contra hre; exact hc ⟨hnil, hre⟩)
  split at h
  · cases h
  · cases h
  · cases h
    exact ⟨rfl, hn, rfl, hd, ht, rfl, hs, rfl, hcat⟩
  · cases h
    exact ⟨rfl, hn, rfl, hd, ht, rfl, hs, rfl, hcat⟩

end OracleSkills.Writer
