import OracleSkills.Concurrency.Service
import OracleSkills.Server.ReadBack
import OracleSkills.Server.SafeJoin
import OracleSkills.Server.Shown
import OracleSkills.Server.Survives

/-!
# Sessions

Every session has a server of its own, a process that remembers the entries it has parsed, and all
of them work on the same files. `sessions_refine` says what their calls come to: a store of skills,
which is one for all. `skills_list` lists its catalog, with any arguments and whatever servers are
registered, `skill_view` shows the body of a skill, and `skill_patch` replaces in it a text that is
counted once; what it leaves is what is read back line by line. Whoever patches, the others see it
from then on, and what they remember is never an entry of the past.

The files may show no time of modification and size with two contents, and what is written must be
parsed into the entry of before, and be no file of another skill.

What is *not* formalized here: `skill_view` with a `file_path`, and of its answer without one all
but the `content`.
-/

namespace OracleSkills.Server

open Python Frontmatter Writer Concurrency
open Server.Rpc (Json)

/-! ### The servers -/

/-- `skill_view` without a `file_path`, by its `content`. -/
def skillView (W : World) (cache : Cache) (name : Text) : Except Raised Text × Cache :=
  match skillViewDir W cache name with
  | (.error e, cache') => (.error e, cache')
  | (.ok dir, cache') => (viewFile W.yaml (W.file (skillMd dir)), cache')

theorem toolSkillView_skill (W : World) (D : Disk) (cache : Cache) (name : Text) :
    toolSkillView W D cache name [] =
        ((skillView W cache name).1.map .skill, (skillView W cache name).2) := by
  rw [toolSkillView, skillView]
  generalize skillViewDir W cache name = y
  obtain ⟨r, kept⟩ := y
  cases r with
  | error e => rfl
  | ok dir => exact if_neg fun h => h rfl

/-- A call of a tool: a listing, on a machine with these servers registered, a skill that is read,
or one that is patched. -/
inductive ToolCall where
  | list (H : Host) (registered : List Text) (args : Dict Text Json)
  | view (name : Text)
  | patch (env : PatchEnv) (args : PatchArgs) (written : Option Write)

/-- Its answer. -/
inductive ToolReply where
  | listed (r : Except Raised Listing)
  | viewed (r : Except Raised Text)
  | patched (r : Except Raised PatchReply)

universe u

/-- Servers over the same files, and what each of them remembers. -/
structure Servers (ι : Type u) where
  world : World
  memo : ι → Cache

variable {ι : Type u} [DecidableEq ι]

/-- A call to one of them. -/
def servers : Service (Servers ι) (ι × ToolCall) ToolReply where
  serve s x :=
    match x.2 with
    | .list H registered args =>
      let r := toolSkillsList s.world (s.memo x.1) H registered args
      (.listed r.1, ⟨s.world, Function.update s.memo x.1 r.2⟩)
    | .view name =>
      let r := skillView s.world (s.memo x.1) name
      (.viewed r.1, ⟨s.world, Function.update s.memo x.1 r.2⟩)
    | .patch env args written =>
      let r := toolSkillPatch s.world env written (s.memo x.1) args
      (.patched r.1, ⟨r.2.1, Function.update s.memo x.1 r.2.2⟩)

/-! ### The store -/

/-- A store of skills: the catalog, and the body of each. -/
structure Store where
  catalog : List Entry
  body : Text → Option Text

/-- The body of a skill is replaced. -/
def Store.put (t : Store) (name body : Text) : Store :=
  { t with body := Function.update t.body name (some body) }

/-- The call names a skill of the store, and a text that is counted once in its body. -/
structure Store.Edits (t : Store) (args : PatchArgs) (old new body : Text) : Prop where
  check : args.check = .ok (old, new)
  found : t.body (strip args.name) = some body
  once : count old body = 1

/-- A body as it is read back, line by line. -/
def reread (body : Text) : Text := bodyOf (splitlines (terminated body))

/-- What `skill_patch` answers where it has left a body. -/
def replyOf (env : PatchEnv) (args : PatchArgs) (body : Text) : PatchReply :=
  ⟨strip args.name, true, env.bodyHash body, editor env args, body.length⟩

/-- What the store answers to a call, and the store after it. It may have its own reasons to refuse
a patch, as PyYAML has. -/
inductive Allows (reasons : Prop) (t : Store) : ToolCall → ToolReply → Store → Prop where
  | listed {H : Host} {registered : List Text} {args : Dict Text Json} :
      Allows reasons t (.list H registered args)
        (.listed (skillsList H registered t.catalog args)) t
  | viewed {name body : Text} :
      t.body (strip name) = some body → Allows reasons t (.view name) (.viewed (.ok body)) t
  | notFound {name : Text} {e : Raised} :
      t.body (strip name) = none → Allows reasons t (.view name) (.viewed (.error e)) t
  | patched {env : PatchEnv} {args : PatchArgs} {x : Write} {old new body : Text} :
      t.Edits args old new body →
        Allows reasons t (.patch env args (some x))
          (.patched (.ok (replyOf env args (replaceFirst old new body))))
          (t.put (strip args.name) (reread (replaceFirst old new body)))
  | refused {env : PatchEnv} {args : PatchArgs} {written : Option Write} {e : Raised} :
      (reasons ∨ written = none ∨ ∀ old new body, ¬ t.Edits args old new body) →
        Allows reasons t (.patch env args written) (.patched (.error e)) t

/-- One store for all. -/
def oneStore (reasons : Prop) : Contract Store (ι × ToolCall) ToolReply where
  allows t x := Allows reasons t x.2

/-! ### What is asked of the files -/

/-- What can change of a world. -/
def World.files (W : World) : Files := ⟨W.glob, W.stat, W.file⟩

/-- The text can be read, it is parsed into the entry of before, as it always is without PyYAML, and
it is written to no file of another skill. -/
structure Lasting (W : World) (e : Entry) (x : Write) (text : Text) (fm : Dict Text Value) :
    Prop where
  size : utf8Length text ≤ maxFileBytes
  same : W.yaml ≠ none → parseFm W e.path fm = .ok (.ok e)
  apart : ∀ y ∈ iterSkillDirs W, y.2.path ∈ x.aliases → y.2 = e.path

/-- What the call writes is lasting, if it writes. -/
def Careful (s : Servers ι) (x : ι × ToolCall) : Prop :=
  match x.2 with
  | .patch env args written =>
    ∀ reply W' cache', toolSkillPatch s.world env written (s.memo x.1) args =
      (.ok reply, W', cache') →
      ∀ e w text fm, CallsOn s.world env written (s.memo x.1) args e w text fm →
        Lasting s.world e w text fm
  | _ => True

/-- The store that an index shows. -/
def storeOf (W : World) (idx : Index) : Store where
  catalog := idx.entries
  body n := (idx.entries.find? fun e => decide (e.name = n)).bind fun e =>
    (W.file e.path.path).map fun x => (rawFrontmatter x.2).2

/-! ### The files of an index -/

section

variable {W W' : World} {idx idx' : Index} {cache cache' : Cache} {e e' d : Entry} {f : SkillMd}
  {fm : Dict Text Value} {text body : Text} {x : Write} {status : Option Text}

/-- A file with an entry has been read, and split. -/
theorem exists_file_of_parse (h : parse W f = .ok (.ok e)) :
    ∃ size text split, W.file f.path = some (size, text) ∧ size ≤ maxFileBytes ∧
        splitFrontmatterEx W.yaml text = .ok split := by
  rw [parse] at h
  cases hst : W.stat f.path with
  | none =>
    rw [hst] at h
    cases h
  | some st =>
    rw [hst] at h
    simp only [parseFresh] at h
    cases hr : readTextCapped (W.file f.path) with
    | error e =>
      rw [hr] at h
      cases e <;> cases h
    | ok text =>
      rw [hr] at h
      obtain ⟨split, hsplit, -⟩ := bind_eq_ok.mp h
      obtain ⟨size, hfile, hsize⟩ := readTextCapped_ok hr
      exact ⟨size, text, split, hfile, hsize, hsplit⟩

/-- An entry of the index is that of its file, which was found. -/
theorem IndexSound.parse_mem (h : IndexSound W idx) (he : e ∈ idx.entries) :
    parse W e.path = .ok (.ok e) ∧ ∃ y ∈ iterSkillDirs W, y.2 = e.path := by
  obtain ⟨pre, y, post, hdirs, hy, -⟩ := (h.first e).mp he
  have hpath := path_of_parse hy
  exact ⟨hpath ▸ hy, y, by simp [hdirs], hpath.symm⟩

/-- Two entries of one file are one. -/
theorem IndexSound.path_inj (h : IndexSound W idx) (hd : d ∈ idx.entries) (he : e ∈ idx.entries)
    (hpath : d.path = e.path) : d = e := by
  have hparse := (h.parse_mem hd).1
  rw [hpath, (h.parse_mem he).1, Except.ok.injEq, Except.ok.injEq] at hparse
  exact hparse.symm

theorem IndexSound.find?_eq (h : IndexSound W idx) (he : e ∈ idx.entries) :
    idx.entries.find? (fun d => decide (d.name = e.name)) = some e :=
      FirstWins.find?_of_nodup h.nodup he

/-- The body of a skill in the index. -/
theorem IndexSound.body_eq (h : IndexSound W idx) (he : e ∈ idx.entries) :
    ∃ size text, W.file e.path.path = some (size, text) ∧ size ≤ maxFileBytes ∧
      (storeOf W idx).body e.name = some (rawFrontmatter text).2 := by
  obtain ⟨size, text, -, hfile, hsize, -⟩ := exists_file_of_parse (h.parse_mem he).1
  refine ⟨size, text, hfile, hsize, ?_⟩
  simp only [storeOf, h.find?_eq he, Option.bind_some, hfile, Option.map_some]

/-- A name that the store does not have is that of no entry. -/
theorem IndexSound.body_eq_none (h : IndexSound W idx) {n : Text} :
    (storeOf W idx).body n = none ↔ ∀ e ∈ idx.entries, n ≠ e.name := by
  constructor
  · rintro hnone e he rfl
    obtain ⟨_, _, _, _, hbody⟩ := h.body_eq he
    rw [hnone] at hbody
    cases hbody
  · intro hne
    have hfind : (idx.entries.find? fun e => decide (e.name = n)) = none := by
      rw [List.find?_eq_none]
      exact fun e he => by simpa using (hne e he).symm
    simp only [storeOf, hfind]
    rfl

/-! ### The files after a write -/

/-- What a file is parsed into after a write, if what is written is parsed into the entry of before:
into the same. -/
theorem parse_after (he : parse W e.path = .ok (.ok e)) (hsize : utf8Length text ≤ maxFileBytes)
    (hsplit : splitFrontmatterEx W.yaml text = .ok (fm, body, status))
    (hsame : parseFm W e.path fm = .ok (.ok e))
    (hapart : ∀ y ∈ iterSkillDirs W, y.2.path ∈ x.aliases → y.2 = e.path) {y : Text × SkillMd}
    (hy : y ∈ iterSkillDirs W) :
    parse (W.write e.path.path text x) y.2 = parse W y.2 := by
  by_cases hpath : y.2 = e.path
  · rw [hpath, parse_write_of_mem (List.mem_cons_self ..) hsize hsplit, hsame, he]
  · refine parse_write_of_not_mem ?_
    rw [List.mem_cons, not_or]
    exact ⟨fun heq => hpath (SkillMd.path_injective heq), fun hmem => hpath (hapart y hy hmem)⟩

/-- Files that are parsed alike make up one index. -/
theorem buildFresh_congr {fs : List (Text × SkillMd)} (h : ∀ y ∈ fs, parse W' y.2 = parse W y.2)
    (idx : Index) :
    buildFresh W' fs idx = buildFresh W fs idx := by
  induction fs generalizing idx with
  | nil => rfl
  | cons y fs ih =>
    obtain ⟨root, f⟩ := y
    obtain ⟨hy, h⟩ := List.forall_mem_cons.mp h
    rw [buildFresh, buildFresh, hy]
    cases parse W f with
    | error e => rfl
    | ok r => exact ih h _

/-- An index that is built is that of its files. -/
theorem indexSound_of_buildFresh (hb : buildFresh W (iterSkillDirs W) ⟨[], [], []⟩ = .ok idx) :
    IndexSound W idx := by
  obtain ⟨rs, hrs⟩ := buildFresh_ok_iff.mp ⟨idx, hb⟩
  obtain ⟨idx', hb', hs⟩ := indexSound_of_parsed hrs
  rw [hb, Except.ok.injEq] at hb'
  exact hb' ▸ hs

/-- **The index after a write** is the index before. -/
theorem IndexSound.after_write
    (hs : IndexSound W idx) (hb : buildFresh W (iterSkillDirs W) ⟨[], [], []⟩ = .ok idx)
    (he : e ∈ idx.entries) (hsize : utf8Length text ≤ maxFileBytes)
    (hsplit : splitFrontmatterEx W.yaml text = .ok (fm, body, status))
    (hsame : parseFm W e.path fm = .ok (.ok e))
    (hapart : ∀ y ∈ iterSkillDirs W, y.2.path ∈ x.aliases → y.2 = e.path) :
    buildFresh (W.write e.path.path text x) (iterSkillDirs W) ⟨[], [], []⟩ = .ok idx := by
  rw [buildFresh_congr fun y hy => parse_after (hs.parse_mem he).1 hsize hsplit hsame hapart hy, hb]

/-- **The store after a write** has the body that was written. -/
theorem storeOf_after_write (hs : IndexSound W idx) (he : e ∈ idx.entries)
    (hapart : ∀ y ∈ iterSkillDirs W, y.2.path ∈ x.aliases → y.2 = e.path) :
    storeOf (W.write e.path.path text x) idx =
        (storeOf W idx).put e.name (rawFrontmatter text).2 := by
  have hfile : ∀ d ∈ idx.entries, d.name ≠ e.name →
      (W.write e.path.path text x).file d.path.path = W.file d.path.path := by
    intro d hd hname
    obtain ⟨-, y, hy, hpath⟩ := hs.parse_mem hd
    refine if_neg ?_
    rw [List.mem_cons, not_or]
    refine ⟨fun heq => hname (hs.path_inj hd he (SkillMd.path_injective heq) ▸ rfl),
      fun hmem => hname ?_⟩
    rw [hs.path_inj hd he (hpath ▸ hapart y hy (hpath ▸ hmem))]
  have hbodies : (storeOf (W.write e.path.path text x) idx).body =
      Function.update (storeOf W idx).body e.name (some (rawFrontmatter text).2) := by
    funext n
    by_cases hn : ∃ d ∈ idx.entries, n = d.name
    · obtain ⟨d, hd, rfl⟩ := hn
      simp only [storeOf, hs.find?_eq hd, Option.bind_some]
      by_cases hname : d.name = e.name
      · obtain rfl : d = e := by
          have hfind := hs.find?_eq hd
          rwa [hname, hs.find?_eq he, Option.some.injEq, eq_comm] at hfind
        rw [Function.update_self, write_file, Option.map_some]
      · rw [Function.update_of_ne hname, hfile d hd hname]
        simp only [hs.find?_eq hd, Option.bind_some]
    · have hall : ∀ d ∈ idx.entries, n ≠ d.name := fun d hd heq => hn ⟨d, hd, heq⟩
      have hfind : (idx.entries.find? fun d => decide (d.name = n)) = none :=
        List.find?_eq_none.mpr fun d hd => by simpa using (hall d hd).symm
      rw [Function.update_of_ne (hall e he)]
      simp only [storeOf, hfind, Option.bind_none]
  rw [Store.put, ← hbodies]
  rfl

/-! ### What each tool answers -/

theorem skillDirOf_cache (W : World) (cache : Cache) (name : Text) :
    (skillDirOf W cache name).2 = (buildIndex W cache).2 := by
  rw [skillDirOf, resolveSkillDir]
  generalize buildIndex W cache = y
  obtain ⟨r, kept⟩ := y
  cases r with
  | error e => rfl
  | ok idx => cases hfind : idx.entries.find? fun e => decide (e.name =
    name) <;> simp only [hfind] <;> rfl

theorem toolSkillsList_cache (W : World) (cache : Cache) (H : Host) (registered : List Text)
    (args : Dict Text Json) :
    (toolSkillsList W cache H registered args).2 = cache ∨
      (toolSkillsList W cache H registered args).2 = (buildIndex W cache).2 := by
  rw [toolSkillsList]
  cases categoryOf args with
  | error e => exact .inl rfl
  | ok category =>
    right
    generalize buildIndex W cache = y
    obtain ⟨r, kept⟩ := y
    cases r <;> rfl

/-- What a call remembers: what it has remembered, or that with what it has parsed. -/
theorem skillView_cache (W : World) (cache : Cache) (name : Text) :
    (skillView W cache name).2 = cache ∨ (skillView W cache name).2 = (buildIndex W cache).2 := by
  have hdir : (skillView W cache name).2 = (skillViewDir W cache name).2 := by
    rw [skillView]
    generalize skillViewDir W cache name = y
    obtain ⟨r, kept⟩ := y
    cases r <;> rfl
  rw [hdir]
  by_cases hname : strip name = []
  · left
    rw [skillViewDir, if_pos hname]
  · right
    rw [skillViewDir_eq hname, skillDirOf_cache]

theorem toolSkillPatch_cache (W : World) (env : PatchEnv) (written : Option Write) (cache : Cache)
    (args : PatchArgs) :
    (toolSkillPatch W env written cache args).2.2 = cache ∨
      (toolSkillPatch W env written cache args).2.2 = (buildIndex W cache).2 := by
  have hdir : (toolSkillPatch W env written cache args).2.2 = (skillPatchDir W cache args).2 := by
    rw [toolSkillPatch]
    generalize skillPatchDir W cache args = y
    obtain ⟨r, kept⟩ := y
    cases r with
    | error e => rfl
    | ok dir =>
      simp only
      cases patchFile { env with yaml := W.yaml } args (W.file (skillMd dir)) with
      | error e => rfl
      | ok r => cases written <;> rfl
  rw [hdir]
  cases hcheck : args.check with
  | error e =>
    left
    rw [skillPatchDir, hcheck]
  | ok x =>
    right
    rw [skillPatchDir_eq ⟨x, hcheck⟩, skillDirOf_cache]

/-- `skills_list` lists the catalog of the store. -/
theorem toolSkillsList_shown (hb : (buildIndex W cache).1 = .ok idx) (H : Host)
    (registered : List Text) (args : Dict Text Json) :
    (toolSkillsList W cache H registered args).1 =
        skillsList H registered (storeOf W idx).catalog args := by
  rw [toolSkillsList]
  cases hcategory : categoryOf args with
  | error e =>
    rw [skillsList, hcategory]
    rfl
  | ok category =>
    generalize buildIndex W cache = y at hb
    obtain ⟨r, kept⟩ := y
    cases hb
    rfl

/-- `skill_view` gives the body in the store. -/
theorem skillView_eq (hs : IndexSound W idx) (hb : (buildIndex W cache).1 = .ok idx) (name : Text) :
    (∀ body, (storeOf W idx).body (strip name) = some body →
      (skillView W cache name).1 = .ok body) ∧
      ((storeOf W idx).body (strip name) = none → ∃ e, (skillView W cache name).1 = .error e) := by
  have herror : (∃ e, (skillViewDir W cache name).1 = .error e) →
      ∃ e, (skillView W cache name).1 = .error e := by
    rintro ⟨e, he⟩
    rw [skillView]
    generalize skillViewDir W cache name = y at he
    obtain ⟨r, kept⟩ := y
    simp only at he
    subst he
    exact ⟨e, rfl⟩
  refine ⟨fun body hbody => ?_, fun hnone => ?_⟩
  · obtain ⟨e, he, hname⟩ : ∃ e ∈ idx.entries, strip name = e.name := by
      by_contra hno
      rw [hs.body_eq_none.mpr fun e he heq => hno ⟨e, he, heq⟩] at hbody
      cases hbody
    obtain ⟨size, text, ⟨fm, body', status⟩, hfile, hsize, hsplit⟩ :=
      exists_file_of_parse (hs.parse_mem he).1
    obtain ⟨size', text', hfile', -, hbody'⟩ := hs.body_eq he
    rw [hfile, Option.some.injEq, Prod.mk.injEq] at hfile'
    obtain ⟨rfl, rfl⟩ := hfile'
    rw [hname, hbody', Option.some.injEq] at hbody
    have hview : viewFile W.yaml (W.file (skillMd e.path.dir)) = .ok body := by
      have hread : readTextCapped (some (size, text)) = .ok text := if_neg (by omega)
      rw [viewFile, show W.file (skillMd e.path.dir) = _ from hfile, hread]
      show (splitFrontmatterEx W.yaml text >>= fun x => .ok x.2.1) = _
      rw [hsplit, ← hbody, ← splitFrontmatterEx_body hsplit]
      rfl
    have hdir : (skillViewDir W cache name).1 = .ok e.path.dir := by
      rw [skillViewDir_eq (hname ▸ hs.named e he), hname]
      exact skillDirOf_of_mem hb hs.nodup he
    rw [skillView]
    generalize skillViewDir W cache name = y at hdir
    obtain ⟨r, kept⟩ := y
    simp only at hdir
    subst hdir
    exact hview
  · apply herror
    by_cases hname : strip name = []
    · rw [skillViewDir, if_pos hname]
      exact ⟨_, rfl⟩
    · rw [skillViewDir_eq hname]
      exact ⟨_, skillDirOf_of_not_mem hb (hs.body_eq_none.mp hnone)⟩

/-- Without PyYAML there is no other reason to refuse a patch. -/
theorem toolSkillPatch_accepts (hyaml : W.yaml = none) (hs : IndexSound W idx)
    (hb : (buildIndex W cache).1 = .ok idx) (env : PatchEnv)
    {args : PatchArgs} {old new : Text} (h : (storeOf W idx).Edits args old new body) :
    ∃ reply, (toolSkillPatch W env (some x) cache args).1 = .ok reply := by
  obtain ⟨e, he, hname⟩ : ∃ e ∈ idx.entries, strip args.name = e.name := by
    by_contra hno
    have hnone := hs.body_eq_none.mpr fun e he heq => hno ⟨e, he, heq⟩
    rw [h.found] at hnone
    cases hnone
  obtain ⟨size, text, hfile, hsize, hbody⟩ := hs.body_eq he
  have hfound := h.found
  rw [hname, hbody, Option.some.injEq] at hfound
  have hpatch : patchFile { env with yaml := W.yaml } args (W.file (skillMd e.path.dir)) =
      .ok (edited { env with yaml := W.yaml } args old new text) := by
    rw [show W.file (skillMd e.path.dir) = _ from hfile]
    exact patchFile_of_noYaml hyaml h.check hsize (hfound ▸ h.once)
  have hdir : (skillPatchDir W cache args).1 = .ok e.path.dir := by
    rw [skillPatchDir_eq ⟨_, h.check⟩, hname]
    exact skillDirOf_of_mem hb hs.nodup he
  rw [toolSkillPatch]
  generalize skillPatchDir W cache args = y at hdir
  obtain ⟨r, kept⟩ := y
  simp only at hdir
  subst hdir
  simp only [hpatch]
  exact ⟨_, rfl⟩

/-- **A patch that succeeds** is one of the store. -/
theorem toolSkillPatch_edits (hs : IndexSound W idx)
    (hfresh : buildFresh W (iterSkillDirs W) ⟨[], [], []⟩ = .ok idx)
    (hb : (buildIndex W cache).1 = .ok idx) {env : PatchEnv} {written : Option Write}
    {args : PatchArgs} {reply : PatchReply}
    (h : toolSkillPatch W env written cache args = (.ok reply, W', cache'))
    (hlasting : ∀ e w text fm, CallsOn W env written cache args e w text fm →
      Lasting W e w text fm) :
    ∃ old new body x, (storeOf W idx).Edits args old new body ∧ written = some x ∧
      reply = replyOf env args (replaceFirst old new body) ∧
        buildFresh W' (iterSkillDirs W') ⟨[], [], []⟩ = .ok idx ∧
      storeOf W' idx = (storeOf W idx).put (strip args.name)
          (reread (replaceFirst old new body)) := by
  obtain ⟨dir, x, r, old, new, original, hdir, hwritten, hacc, rfl, -, rfl⟩ :=
    toolSkillPatch_patches h
  obtain ⟨size, hread, -⟩ := hacc.read
  obtain ⟨-, -, -, fm, body, status, -, hsplit, -⟩ := hacc.clean
  rw [skillPatchDir_eq ⟨_, hacc.check⟩] at hdir
  obtain ⟨idx', hb', -, e, he, hname, rfl⟩ := exists_entry_of_skillDirOf hdir
  obtain rfl : idx = idx' := Except.ok.inj (hb.symm.trans hb')
  have htext : r.text = (edited env args old new original).text := by
    rw [hacc.eq]
    rfl
  have hlast := hlasting e x r.text fm
    ⟨⟨idx, hb, he⟩, hname, hwritten,
      ⟨old, new, size, original, hacc.succeeds.args_eq.1, hacc.succeeds.args_eq.2, hread, htext⟩,
      body, status, hsplit⟩
  have hparse := (hs.parse_mem he).1
  have hsame : parseFm W e.path fm = .ok (.ok e) := by
    by_cases hyaml : W.yaml = none
    · obtain ⟨hstat, -⟩ := exists_of_parse hparse
      obtain ⟨size', text, -, hfile, hsize, -⟩ := exists_file_of_parse hparse
      obtain ⟨rfl, rfl⟩ : size = size' ∧ original = text := by
        have hsome := hread.symm.trans hfile
        rwa [Option.some.injEq, Prod.mk.injEq] at hsome
      rw [hyaml] at hsplit
      rw [← split_noYaml hsplit, parseFm_congr hacc.stampsOnly.pairs,
        ← parse_noYaml hyaml hstat hfile hsize]
      exact hparse
    · exact hlast.same hyaml
  have hfresh' := hs.after_write hfresh he hlast.size hsplit hsame hlast.apart
  obtain ⟨size', text, hfile, -, hbody⟩ := hs.body_eq he
  obtain ⟨rfl, rfl⟩ : size = size' ∧ original = text := by
    have hsome := hread.symm.trans hfile
    rwa [Option.some.injEq, Prod.mk.injEq] at hsome
  refine ⟨old, new, (rawFrontmatter original).2, x, ⟨hacc.check, hname ▸ hbody, hacc.once⟩,
    hwritten, ?_, hfresh', ?_⟩
  · rw [← hacc.succeeds.body_eq, hacc.eq]
    rfl
  · have hput : storeOf (W.write e.path.path r.text x) idx =
        (storeOf W idx).put e.name (rawFrontmatter r.text).2 :=
      storeOf_after_write hs he hlast.apart
    rw [hacc.succeeds.read_lines, hacc.succeeds.body_eq, hname] at hput
    exact hput

end

/-! ### The simulation -/

universe v

section

variable {κ : Type v} {W : World} {H : κ → Files} {idx : Index} {s : Servers ι} {t : Store}

/-- The files are at one point of their history, each server remembers what is true of it, and the
index of the files shows the store. -/
structure Serves (W : World) (H : κ → Files) (idx : Index) (s : Servers ι) (t : Store) : Prop where
  among : ∃ i, s.world = W.among (H i)
  recalls : ∀ p, Recalls W H (s.memo p)
  index : buildFresh s.world (iterSkillDirs s.world) ⟨[], [], []⟩ = .ok idx
  shows : t = storeOf s.world idx

omit [DecidableEq ι] in
/-- Each server builds this index, and goes on remembering what is true. -/
theorem Serves.buildIndex_eq (h : Serves W H idx s t) (hH : Faithful H) (p : ι) :
    (buildIndex s.world (s.memo p)).1 = .ok idx ∧
        Recalls W H (buildIndex s.world (s.memo p)).2 := by
  have hb := h.index
  obtain ⟨i, hi⟩ := h.among
  rw [hi] at hb ⊢
  obtain ⟨hbuild, hrecalls⟩ := (h.recalls p).buildIndex_eq hH i
  exact ⟨hbuild.trans hb, hrecalls⟩

theorem recalls_update {memo : ι → Cache} (h : ∀ p, Recalls W H (memo p)) {p : ι} {cache : Cache}
    (hcache : Recalls W H cache) :
    ∀ q, Recalls W H (Function.update memo p cache q) := by
  intro q
  rw [Function.update_apply]
  split_ifs
  · exact hcache
  · exact h q

/-- **Every answer is one of the store.** -/
theorem Serves.step (h : Serves W H idx s t) (hH : Faithful H) (x : ι × ToolCall)
    (hcareful : Careful s x) (hfiles : ∃ i, (servers.serve s x).2.world.files = H i) :
    ∃ t', (oneStore (W.yaml ≠ none)).allows t x (servers.serve s x).1 t' ∧
        Serves W H idx (servers.serve s x).2 t' := by
  obtain ⟨p, call⟩ := x
  obtain ⟨hb, hrecalls⟩ := h.buildIndex_eq hH p
  have hs := indexSound_of_buildFresh h.index
  have hfresh := h.index
  obtain rfl := h.shows
  cases call with
  | list registry registered args =>
    refine ⟨storeOf s.world idx, ?_, h.among, recalls_update h.recalls ?_, hfresh, rfl⟩
    · show Allows _ _ _ (.listed (toolSkillsList s.world (s.memo p) registry registered args).1) _
      rw [toolSkillsList_shown hb]
      exact .listed
    · rcases toolSkillsList_cache s.world (s.memo p) registry registered args with
        hc | hc <;> rw [hc]
      · exact h.recalls p
      · exact hrecalls
  | view name =>
    obtain ⟨hfound, hnone⟩ := skillView_eq hs hb name
    refine ⟨storeOf s.world idx, ?_, h.among, recalls_update h.recalls ?_, hfresh, rfl⟩
    · show Allows _ _ _ (.viewed (skillView s.world (s.memo p) name).1) _
      cases hbody : (storeOf s.world idx).body (strip name) with
      | none =>
        obtain ⟨e, he⟩ := hnone hbody
        rw [he]
        exact .notFound hbody
      | some body =>
        rw [hfound body hbody]
        exact .viewed hbody
    · rcases skillView_cache s.world (s.memo p) name with hc | hc <;> rw [hc]
      · exact h.recalls p
      · exact hrecalls
  | patch env args written =>
    have hcache : Recalls W H (toolSkillPatch s.world env written (s.memo p) args).2.2 := by
      rcases toolSkillPatch_cache s.world env written (s.memo p) args with hc | hc <;> rw [hc]
      · exact h.recalls p
      · exact hrecalls
    show ∃ t', Allows _ _ _ (.patched (toolSkillPatch s.world env written (s.memo p) args).1) t' ∧
      Serves W H idx ⟨(toolSkillPatch s.world env written (s.memo p) args).2.1,
        Function.update s.memo p _⟩ t'
    obtain ⟨i, hi⟩ := h.among
    obtain ⟨j, hj⟩ := hfiles
    have hyaml : s.world.yaml = W.yaml := by
      rw [hi]
      rfl
    cases hreply : (toolSkillPatch s.world env written (s.memo p) args).1 with
    | error e =>
      refine ⟨storeOf s.world idx, .refused ?_, ?_⟩
      · by_cases hnone : W.yaml = none
        · cases written with
          | none => exact .inr (.inl rfl)
          | some x =>
            refine .inr (.inr fun old new body hedits => ?_)
            obtain ⟨reply, hok⟩ :=
              toolSkillPatch_accepts (x := x) (hyaml.trans hnone) hs hb env hedits
            rw [hreply] at hok
            cases hok
        · exact .inl hnone
      · rw [toolSkillPatch_error hreply]
        exact ⟨h.among, recalls_update h.recalls hcache, hfresh, rfl⟩
    | ok reply =>
      obtain ⟨⟨r, W', cache'⟩, hcall⟩ : ∃ y, toolSkillPatch s.world env written (s.memo p) args =
          y := ⟨_, rfl⟩
      obtain rfl : r = .ok reply := (congrArg Prod.fst hcall).symm.trans hreply
      obtain ⟨old, new, body, x, hedits, rfl, rfl, hfresh', hstore⟩ :=
        toolSkillPatch_edits hs hfresh hb hcall (hcareful reply W' cache' hcall)
      refine ⟨_, .patched hedits, ?_⟩
      have hfiles : W'.files = H j := by
        rw [← hj]
        show W'.files = (toolSkillPatch s.world env (some x) (s.memo p) args).2.1.files
        rw [hcall]
      have hamong : W' = W.among (H j) := by
        obtain ⟨_, _, _, -, -, -, -, rfl⟩ := toolSkillPatch_ok hcall
        rw [← hfiles, hi]
        rfl
      rw [hcall] at hcache ⊢
      exact ⟨⟨j, hamong⟩, recalls_update h.recalls hcache, hfresh', hstore.symm⟩

end

/-- Servers that have just been started. -/
def started (W : World) : Servers ι := ⟨W, fun _ => []⟩

/-- **Sessions refine one store**: whatever calls come to servers that have just been started, to
whichever of them, if the files show no time and size with two contents, and what is written is
lasting, then the answers are those of one store, which is the one that the index shows in the end,
and this index is that of the beginning. Without PyYAML a patch is refused only if it is none of the
store, or the write fails. -/
theorem sessions_refine (W : World) (idx : Index) (hb : (buildIndex W []).1 = .ok idx)
    (calls : List (ι × ToolCall))
    (hfaithful : Faithful fun n : ℕ => (servers.after (started W) (calls.take n)).world.files)
    (hcareful : servers.Along Careful (started W) calls) :
    (buildIndex (servers.after (started W) calls).world []).1 = .ok idx ∧
      (oneStore (W.yaml ≠ none)).Run (storeOf W idx) calls (servers.answers (started W) calls)
        (storeOf (servers.after (started W) calls).world idx) := by
  have hfresh : buildFresh W (iterSkillDirs W) ⟨[], [], []⟩ = .ok idx :=
    (buildIndex_eq cacheOk_nil).1.symm.trans hb
  have hstart : Serves W (fun n : ℕ => (servers.after (started W) (calls.take n)).world.files) idx
      (started W : Servers ι)
      (storeOf W idx) := ⟨⟨0, rfl⟩, fun _ => recalls_nil, hfresh, rfl⟩
  have hpoints : servers.Along (fun s x => ∃ n : ℕ, (servers.serve s x).2.world.files =
      (servers.after (started W) (calls.take n)).world.files) (started W) calls :=
    Service.along_of_after (fun s : Servers ι => ∃ n : ℕ,
      s.world.files = (servers.after (started W) (calls.take n)).world.files) fun n => ⟨n, rfl⟩
  obtain ⟨t', hrun, hend⟩ :=
    Service.Along.simulates (fun s t x h hc hf => h.step hfaithful x hc hf) hstart hcareful hpoints
  obtain rfl := hend.shows
  exact ⟨(buildIndex_eq cacheOk_nil).1.trans hend.index, hrun⟩

/-! ### Two sessions -/

/-- The index of one skill. -/
def oneIndex : Index :=
  ⟨[⟨"s".toList, none, none, none, [], rewrittenSkill⟩], [], [("s".toList, "skills".toList)]⟩

/-- One session patches the skill, and another one lists it and reads it. -/
def sampleCalls : List (Bool × ToolCall) :=
  [(false, .patch (patchEnv fun _ => digestB) (patchArgs ['a'] ['b']) (some ⟨1, []⟩)),
    (true, .list bareHost [] []), (true, .view "s".toList)]

theorem buildIndex_oneIndex : (buildIndex (oneSkill 17 bodyA) []).1 = .ok oneIndex := by
  have hdirs : iterSkillDirs (oneSkill 17 bodyA) = [("skills".toList, rewrittenSkill)] := by
    simp [iterSkillDirs, oneSkill, World.among, rewrittenWorld]
  have hparse : parse (oneSkill 17 bodyA) rewrittenSkill =
      .ok (.ok ⟨"s".toList, none, none, none, [], rewrittenSkill⟩) := rfl
  rw [(buildIndex_eq cacheOk_nil).1, hdirs, buildFresh, hparse]
  rfl

/-- What the patch leaves. -/
theorem toolSkillPatch_sample :
    (toolSkillPatch (oneSkill 17 bodyA) (patchEnv fun _ => digestB) (some ⟨1, []⟩) []
      (patchArgs ['a'] ['b'])).2.1 =
      (oneSkill 17 bodyA).write (skillMd rewrittenSkill.dir)
        (edited (patchEnv fun _ => digestB) (patchArgs ['a'] ['b']) ['a'] ['b'] bodyA).text
            ⟨1, []⟩ := by
  have hcheck : (patchArgs ['a'] ['b']).check = .ok (['a'], ['b']) :=
    check_patchArgs (by decide) (by decide)
  have hdir : (skillPatchDir (oneSkill 17 bodyA) [] (patchArgs ['a'] ['b'])).1 =
      .ok rewrittenSkill.dir := by
    rw [skillPatchDir_eq ⟨_, hcheck⟩]
    exact skillDirOf_of_mem buildIndex_oneIndex (by simp [oneIndex]) (List.mem_singleton_self _)
  have hpatch : patchFile { patchEnv (fun _ => digestB) with yaml := (oneSkill 17 bodyA).yaml }
      (patchArgs ['a'] ['b'])
      ((oneSkill 17 bodyA).file (skillMd rewrittenSkill.dir)) =
          .ok (edited (patchEnv fun _ => digestB) (patchArgs ['a'] ['b']) ['a'] ['b'] bodyA) :=
    patchFile_of_noYaml rfl hcheck (by decide) (by decide)
  rw [toolSkillPatch]
  generalize skillPatchDir (oneSkill 17 bodyA) [] (patchArgs ['a'] ['b']) = y at hdir
  obtain ⟨r, kept⟩ := y
  simp only at hdir
  subst hdir
  simp only [hpatch]

theorem faithful_sampleCalls :
    Faithful fun n : ℕ =>
        (servers.after (started (oneSkill 17 bodyA)) (sampleCalls.take n)).world.files := by
  have hfiles :
      ∀ n : ℕ, (servers.after (started (oneSkill 17 bodyA)) (sampleCalls.take n)).world.files =
      beforeAfter (oneSkill 17 bodyA) ((oneSkill 17 bodyA).write (skillMd rewrittenSkill.dir)
        (edited (patchEnv fun _ => digestB) (patchArgs ['a'] ['b']) ['a'] ['b'] bodyA).text ⟨1, []⟩)
            (decide (0 < n)) := by
    intro n
    rw [← toolSkillPatch_sample]
    match n with
    | 0 => rfl
    | 1 => rfl
    | 2 => rfl
    | n + 3 => simp [sampleCalls, Service.after, servers, started, beforeAfter, World.files]
  intro i j path st hi hj
  simp only [hfiles] at hi hj ⊢
  exact faithful_oneSkill bodyA _ _ _ path st hi hj

theorem careful_sampleCalls : servers.Along Careful (started (oneSkill 17 bodyA)) sampleCalls := by
  refine ⟨fun reply W' cache' _ e x text fm hcalls => ?_, trivial, trivial, trivial⟩
  obtain ⟨idx, hb, he⟩ := hcalls.listed
  obtain rfl : oneIndex = idx := Except.ok.inj (buildIndex_oneIndex.symm.trans hb)
  obtain rfl := List.mem_singleton.mp he
  obtain rfl : ⟨1, []⟩ = x := Option.some.inj hcalls.written
  obtain ⟨old, new, size, original, hold, hnew, hfile, htext⟩ := hcalls.writes
  cases hold
  cases hnew
  cases hfile
  refine ⟨?_, fun hyaml => absurd rfl hyaml, fun y _ hmem => absurd hmem List.not_mem_nil⟩
  rw [htext]
  decide +kernel

/-- The second session reads what the first one has written. -/
theorem sessions_refine_sample :
    (buildIndex (servers.after (started (oneSkill 17 bodyA)) sampleCalls).world []).1 =
      .ok oneIndex ∧
      (oneStore ((oneSkill 17 bodyA).yaml ≠ none)).Run
        (storeOf (oneSkill 17 bodyA) oneIndex) sampleCalls
        (servers.answers (started (oneSkill 17 bodyA)) sampleCalls)
        (storeOf (servers.after (started (oneSkill 17 bodyA)) sampleCalls).world oneIndex) :=
  sessions_refine _ _ buildIndex_oneIndex _ faithful_sampleCalls careful_sampleCalls

end OracleSkills.Server
