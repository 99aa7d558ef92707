import OracleSkills.Python.Paths
import OracleSkills.Server.Lineage
import OracleSkills.Writer.Answer

/-!
# The skills of one oracle through their history

An oracle's skills directory is written by `create`, with and without `--force`, and by
`skill_patch`; `auto_skill.py list` shows what is in it that the tool has made, and
`auto_skill.py validate` checks a file.

`list_exact` is about every history of an empty directory: whatever was refused, forced or patched
on the way, the list has one row for each name, with what the last accepted `create` of this name
was given; and a file validates just if its body is not blank, which a patch can make it.

The free text of the creations is clean, and so are the names of the editors (`Deed.Plain`): a
fence in them would cut the frontmatter off.
-/

namespace OracleSkills.Server

open Python Frontmatter Writer

/-! ### `list` and `validate` -/

/-- The `SKILL.md` of each directory in an oracle's skills. -/
abbrev Shelf := Dict Text Text

/-- A row of the list. -/
structure Row where
  name : Text
  description : Text
  createdAt : Text
  trigger : Text
  category : Text
  createdBy : Text
  path : Text
  deriving DecidableEq

/-- What `cmd_list` shows of a directory: nothing for a hidden one, and for one that the tool has
not made. -/
def listEntry (skillsDir entry text : Text) : Option Row :=
  if ['.'].isPrefixOf entry then none
  else
    let fm := (readFrontmatter (universalNewlines text)).1
    if fm.get? "installer".toList = some installer then
      some
        { name := fm.getD "name".toList entry
          description := fm.getD "description".toList []
          createdAt := fm.getD "created_at".toList []
          trigger := fm.getD "trigger".toList []
          category := fm.getD "category".toList []
          createdBy := fm.getD "created_by".toList []
          path := joinPath (joinPath skillsDir entry) "SKILL.md".toList }
    else none

/-- `cmd_list`. -/
def cmdList (skillsDir : Text) (s : Shelf) : List Row :=
  (s.keys.mergeSort leText).filterMap fun entry => (s.get? entry).bind (listEntry skillsDir entry)

/-- `cmd_validate`: the errors, none for a valid file. -/
def cmdValidate (text : Text) : List Text :=
  let (fm, body) := readFrontmatter (universalNewlines text)
  let name := fm.getD "name".toList []
  (if fm = [] then ["no YAML frontmatter block".toList] else []) ++
    (if name = [] then ["frontmatter missing 'name'".toList]
      else if ¬ nameRe name then ["name '".toList ++ name ++ "' is not valid kebab-case".toList]
      else []) ++
    (if fm.getD "description".toList [] = [] then
      ["frontmatter missing 'description'".toList] else []) ++
    if strip body = [] then ["empty skill body".toList] else []

/-! ### A history -/

/-- What is done to a skills directory. -/
inductive Deed where
  /-- `create`, with or without `--force`. -/
  | create (env : Env) (a : Args) (force : Bool)
  /-- `skill_patch`, of the skill in the directory of this name. -/
  | patch (penv : PatchEnv) (args : PatchArgs)

/-- The run of `create` on the file of its name. -/
def createOn (s : Shelf) (env : Env) (a : Args) (force : Bool) (r : Request) :
    Writer.Disk × Ending :=
  cmdCreate (.sound env.now) env a false force ⟨(s.get? r.name).map fun t => ⟨t, false⟩, []⟩

/-- What a deed leaves, where nothing fails. -/
def Deed.act (s : Shelf) : Deed → Shelf
  | .create env a force =>
    match prepare env a with
    | .error _ => s
    | .ok r =>
      match (createOn s env a force r).1.file with
      | none => s
      | some f => s.set r.name f.text
  | .patch penv args =>
    match s.get? (strip args.name) with
    | none => s
    | some t =>
      match Server.patch penv args t with
      | .error _ => s
      | .ok p => s.set (strip args.name) p.text

/-- The request that a deed has reported as `created`. -/
def Deed.author (s : Shelf) : Deed → Option (Env × Request)
  | .create env a force =>
    match prepare env a with
    | .error _ => none
    | .ok r => if (createOn s env a force r).2 = .reported .created then some (env, r) else none
  | .patch _ _ => none

/-- The last request for each name that was reported as `created`. -/
abbrev Authors := Dict Text (Env × Request)

/-- The directory after the deeds, and the authors. -/
def history : List Deed → Shelf × Authors → Shelf × Authors
  | [], x => x
  | d :: ds, (s, m) =>
    history ds (d.act s, match d.author s with
      | none => m
      | some (env, r) => m.set r.name (env, r))

/-- The free text of a creation is clean, and so is the name of an editor. -/
def Deed.Plain : Deed → Prop
  | .create env a _ => ∀ r, prepare env a = .ok r → Clean r
  | .patch penv args => NoFence (flatten (editor penv args))

/-- The row of a request. -/
def rowOf (skillsDir : Text) (env : Env) (r : Request) : Row :=
  { name := r.name, description := r.desc, createdAt := env.now.text, trigger := r.trigger,
    category := r.category,
    createdBy := flatten r.source, path := joinPath (joinPath skillsDir r.name) "SKILL.md".toList }

/-! ### What a deed does -/

variable {s : Shelf} {m : Authors} {env : Env} {a : Args} {r : Request} {force : Bool} {t n : Text}
  {hash : Digest} {d : Deed} {ds : List Deed} {skillsDir : Text}

/-- `create` writes its text and says so, or leaves the file as it is and says something else. -/
theorem createOn_cases (s : Shelf) (force : Bool) (hp : prepare env a = .ok r) :
    ((createOn s env a force r).2 = .reported .created ∧
      (createOn s env a force r).1.file = some ⟨r.rendered env, false⟩) ∨
      ((createOn s env a force r).2 ≠ .reported .created ∧ ∃ t, s.get? r.name = some t ∧
        (createOn s env a force r).1.file = some ⟨t, false⟩) := by
  have hfill : fill (.sound env.now) env false r ⟨(s.get? r.name).map fun t => ⟨t, false⟩, []⟩ =
      (⟨some ⟨r.rendered env, false⟩, []⟩, .reported .created) := fill_of_fills fills_sound
  unfold createOn
  rw [cmdCreate, hp]
  cases hget : s.get? r.name with
  | none =>
    rw [hget] at hfill
    exact .inl ⟨congrArg Prod.snd hfill, congrArg (fun x => x.1.file) hfill⟩
  | some t =>
    rw [hget] at hfill
    have hno : ¬ (¬ (Host.sound env.now).reads = true ∨
        (⟨t, false⟩ : Writer.File).torn = true) := by simp [Host.sound]
    have hrec : reconcile (.sound env.now) env false force r ⟨some ⟨t, false⟩, []⟩ ⟨t, false⟩ =
        if (readFrontmatter (universalNewlines t)).1.get? "content_hash".toList =
            some (r.newHash env) then
          (⟨some ⟨t, false⟩, []⟩, .reported .existsIdentical)
        else if ¬ force then (⟨some ⟨t, false⟩, []⟩, .reported .refusedConflict)
        else fill (.sound env.now) env false r ⟨some ⟨t, false⟩, []⟩ := by
      unfold reconcile
      rw [if_neg hno]
      rfl
    show (reconcile (.sound env.now) env false force r ⟨some ⟨t, false⟩, []⟩ ⟨t, false⟩).2 = _ ∧
      (reconcile (.sound env.now) env false force r ⟨some ⟨t, false⟩, []⟩ ⟨t, false⟩).1.file = _ ∨
      (reconcile (.sound env.now) env false force r ⟨some ⟨t, false⟩, []⟩ ⟨t, false⟩).2 ≠ _ ∧
        ∃ t', some t = some t' ∧
        (reconcile (.sound env.now) env false force r ⟨some ⟨t, false⟩, []⟩ ⟨t, false⟩).1.file = _
    rw [hrec]
    by_cases hsame : (readFrontmatter (universalNewlines t)).1.get? "content_hash".toList =
      some (r.newHash env)
    · rw [if_pos hsame]
      exact .inr ⟨by simp, t, rfl, rfl⟩
    · rw [if_neg hsame]
      cases force with
      | false => exact .inr ⟨by simp, t, rfl, rfl⟩
      | true => exact .inl ⟨congrArg Prod.snd hfill, congrArg (fun x => x.1.file) hfill⟩

/-! ### The invariant -/

/-- What each file of the directory is: a text that has come of the last creation of its name. -/
structure Kept (s : Shelf) (m : Authors) : Prop where
  keys : s.keys = m.keys
  author : ∀ n env r, m.get? n = some (env, r) → n = r.name ∧
    (∃ a, prepare env a = .ok r) ∧ Clean r ∧
    ∃ t hash, s.get? n = some t ∧ Lineage env r t hash

theorem kept_nil : Kept [] [] where
  keys := rfl
  author _ _ _ h := nomatch h

/-- A creation that is reported takes the place of what was there. -/
theorem Kept.create (h : Kept s m) (hp : prepare env a = .ok r) (hc : Clean r) :
    Kept (s.set r.name (r.rendered env)) (m.set r.name (env, r)) where
  keys := Dict.keys_set_congr h.keys _ _ _
  author n env' r' hget := by
    rcases Dict.get?_of_get?_set hget with ⟨rfl, heq⟩ | hold
    · obtain ⟨rfl, rfl⟩ := Prod.mk.inj heq
      exact ⟨rfl, ⟨a, hp⟩, hc, _, _, Dict.get?_set_self .., Lineage.created⟩
    · by_cases hn : n = r.name
      · subst hn
        rw [Dict.get?_set_self, Option.some.injEq, Prod.mk.injEq] at hget
        obtain ⟨rfl, rfl⟩ := hget
        exact ⟨rfl, ⟨a, hp⟩, hc, _, _, Dict.get?_set_self .., Lineage.created⟩
      · obtain ⟨hname, haccepted, hclean, t, hash, ht, hlineage⟩ := h.author n env' r' hold
        exact ⟨hname, haccepted, hclean, t, hash, by rw [Dict.get?_set_of_ne _ hn, ht], hlineage⟩

/-- A patch goes on from the file that is there. -/
theorem Kept.patch {penv : PatchEnv} {args : PatchArgs} {p : Patched} (h : Kept s m)
    (hget : s.get? n = some t)
    (hp : Server.patch penv args t = .ok p) (hclean : NoFence (flatten (editor penv args))) :
    Kept (s.set n p.text) m where
  keys := by
    have hmem : n ∈ s.keys := by
      by_contra hnot
      rw [Dict.get?_eq_none_iff.mpr hnot] at hget
      cases hget
    rw [Dict.keys_set_of_mem _ hmem, h.keys]
  author n' env r hm := by
    obtain ⟨hname, haccepted, hc, t', hash, ht', hlineage⟩ := h.author n' env r hm
    by_cases hn : n' = n
    · subst hn
      obtain rfl : t' = t := Option.some.inj (ht'.symm.trans hget)
      exact ⟨hname, haccepted, hc, _, _, Dict.get?_set_self .., hlineage.patched hp hclean⟩
    · exact ⟨hname, haccepted, hc, t', hash, by rw [Dict.get?_set_of_ne _ hn, ht'], hlineage⟩

/-- **A deed** keeps the invariant. -/
theorem Kept.act (h : Kept s m) (hd : d.Plain) : Kept (d.act s) (match d.author s with
    | none => m
    | some (env, r) => m.set r.name (env, r)) := by
  cases d with
  | create env a force =>
    cases hp : prepare env a with
    | error e => simpa [Deed.act, Deed.author, hp] using h
    | ok r =>
      rcases createOn_cases s force hp with ⟨hreport, hfile⟩ | ⟨hreport, t, hget, hfile⟩
      · simpa [Deed.act, Deed.author, hp, hreport, hfile] using h.create hp (hd r hp)
      · simpa [Deed.act, Deed.author, hp, hreport, hfile, Dict.set_of_get? hget] using h
  | patch penv args =>
    cases hget : s.get? (strip args.name) with
    | none => simpa [Deed.act, Deed.author, hget] using h
    | some t =>
      cases hp : Server.patch penv args t with
      | error e => simpa [Deed.act, Deed.author, hget, hp] using h
      | ok p => simpa [Deed.act, Deed.author, hget, hp] using h.patch hget hp hd

/-- **A history** keeps it. -/
theorem Kept.history (h : Kept s m) (hds : ∀ d ∈ ds, d.Plain) :
    Kept (history ds (s, m)).1 (history ds (s, m)).2 := by
  induction ds generalizing s m with
  | nil => exact h
  | cons d ds ih =>
    obtain ⟨hd, hds⟩ := List.forall_mem_cons.mp hds
    exact ih (h.act hd) hds

/-! ### What is listed -/

/-- The rows of the authors, by name. -/
def rows (skillsDir : Text) (m : Authors) : List Row :=
  (m.keys.mergeSort leText).filterMap fun n => (m.get? n).map fun x => rowOf skillsDir x.1 x.2

theorem name_not_hidden (hacc : Writer.Accepted env a r) : ['.'].isPrefixOf r.name = false := by
  cases hname : r.name with
  | nil => rfl
  | cons c cs =>
    have hc := hacc.name_slug c (by simp [hname])
    have hne : '.' ≠ c := by
      rintro rfl
      exact absurd hc (by decide)
    simp [List.isPrefixOf, hne]

/-- What stands under a key that no patch stamps. -/
theorem Keeps.getD {fm : Dict Text Text} (h : Keeps env r hash fm) {key : Text}
    (hkey : key ∉ stampKeys) (v : Text) :
    fm.getD key v = (r.fm env).getD key v := by
  rw [Dict.getD, Dict.getD, ← get?_others fm hkey, h.others, get?_others _ hkey]

/-- **The row of a file** is that of its author. -/
theorem listEntry_eq (hacc : Writer.Accepted env a r) (hc : Clean r) (h : Lineage env r t hash) :
    listEntry skillsDir r.name t = some (rowOf skillsDir env r) := by
  have hkeeps := h.keeps hacc hc
  have hinstaller : (readFrontmatter (universalNewlines t)).1.get? "installer".toList =
      some installer := by
    rw [← get?_others _ (show "installer".toList ∉ stampKeys by decide), hkeeps.others,
      get?_others _ (by decide)]
    rfl
  rw [listEntry, name_not_hidden hacc, if_neg Bool.false_ne_true, if_pos hinstaller]
  simp only [hkeeps.getD (show "name".toList ∉ stampKeys by decide),
    hkeeps.getD (show "description".toList ∉ stampKeys by decide),
    hkeeps.getD (show "created_at".toList ∉ stampKeys by decide),
      hkeeps.getD (show "trigger".toList ∉ stampKeys by decide),
    hkeeps.getD (show "category".toList ∉ stampKeys by decide),
      hkeeps.getD (show "created_by".toList ∉ stampKeys by decide)]
  rfl

/-- **A file validates** if its body is not blank. -/
theorem cmdValidate_eq (hacc : Writer.Accepted env a r) (hc : Clean r) (h : Lineage env r t hash) :
    cmdValidate t = if strip (readFrontmatter (universalNewlines t)).2 = [] then
        ["empty skill body".toList] else [] := by
  have hkeeps := h.keeps hacc hc
  have hfm : (readFrontmatter (universalNewlines t)).1 ≠ [] := by
    intro hnil
    have hhash := hkeeps.hash
    rw [hnil] at hhash
    cases hhash
  have hname : (readFrontmatter (universalNewlines t)).1.getD "name".toList [] = r.name :=
    hkeeps.getD (by decide) []
  have hdesc : (readFrontmatter (universalNewlines t)).1.getD "description".toList [] = r.desc :=
    hkeeps.getD (by decide) []
  have hne : r.name ≠ [] := by
    intro hnil
    have hre := hacc.nameRe
    rw [hnil] at hre
    cases hre
  simp only [cmdValidate, hname, hdesc]
  rw [if_neg hfm, if_neg hne, if_neg (not_not.mpr hacc.nameRe), if_neg hacc.desc_ne]
  rfl

theorem Kept.cmdList_eq (h : Kept s m) : cmdList skillsDir s = rows skillsDir m := by
  rw [cmdList, rows, h.keys]
  refine List.filterMap_congr fun n hn => ?_
  have hmem : n ∈ m.keys := List.mem_mergeSort.mp hn
  cases hget : m.get? n with
  | none => exact absurd hmem (Dict.get?_eq_none_iff.mp hget)
  | some x =>
    obtain ⟨env, r⟩ := x
    obtain ⟨rfl, ⟨a, hp⟩, hc, t, hash, ht, hlineage⟩ := h.author n env r hget
    rw [ht, Option.bind_some, listEntry_eq (accepted_of_prepare hp) hc hlineage]
    rfl

/-- **What an oracle has made is what it lists**: after any deeds in an empty directory, accepted or
refused, forced, and patched in between, the list has one row for each name, with what the last
creation of this name was given, and nothing else; and a file of it validates exactly if its body is
not blank, which is the one error it can have. -/
theorem list_exact (skillsDir : Text) (ds : List Deed) (hds : ∀ d ∈ ds, d.Plain) :
    cmdList skillsDir (history ds ([], [])).1 = rows skillsDir (history ds ([], [])).2 ∧
      ∀ n t, (history ds ([], [])).1.get? n = some t →
        cmdValidate t = if strip (readFrontmatter (universalNewlines t)).2 = [] then
            ["empty skill body".toList] else [] := by
  have h := kept_nil.history hds
  refine ⟨h.cmdList_eq, fun n t ht => ?_⟩
  have hmem : n ∈ (history ds ([], [])).2.keys := by
    rw [← h.keys]
    by_contra hnot
    rw [Dict.get?_eq_none_iff.mpr hnot] at ht
    cases ht
  cases hget : (history ds ([], [])).2.get? n with
  | none => exact absurd hmem (Dict.get?_eq_none_iff.mp hget)
  | some x =>
    obtain ⟨env, r⟩ := x
    obtain ⟨-, ⟨a, hp⟩, hc, t', hash, ht', hlineage⟩ := h.author n env r hget
    obtain rfl : t' = t := Option.some.inj (ht'.symm.trans ht)
    exact cmdValidate_eq (accepted_of_prepare hp) hc hlineage

/-- A skill that is made, refused a second time, and emptied by a patch. -/
def sampleDeeds : List Deed :=
  [.create sampleEnv
      { name := "deploy-x".toList, desc := "Deploy x: steps".toList, body := "b".toList,
        source := "bob".toList } false,
    .patch (patchEnv fun _ => digestB)
      { name := "deploy-x".toList, oldString := some ['b'], newString := some [] },
    .create sampleEnv
      { name := "Deploy X".toList, desc := "Other".toList, source := "bob".toList } true]

theorem sampleDeeds_plain : ∀ d ∈ sampleDeeds, d.Plain := by
  intro d hd
  simp only [sampleDeeds, List.mem_cons, List.not_mem_nil, or_false] at hd
  rcases hd with rfl | rfl | rfl
  · intro r hr
    cases hr
    exact ⟨by decide, by decide, by decide⟩
  · show NoFence _
    decide +kernel
  · intro r hr
    cases hr
    exact ⟨by decide, by decide, by decide⟩

theorem list_exact_sample :
    cmdList "/s".toList (history sampleDeeds ([], [])).1 =
      rows "/s".toList (history sampleDeeds ([], [])).2 ∧
      ∀ n t, (history sampleDeeds ([], [])).1.get? n = some t →
        cmdValidate t = if strip (readFrontmatter (universalNewlines t)).2 = [] then
            ["empty skill body".toList] else [] :=
  list_exact "/s".toList sampleDeeds sampleDeeds_plain

end OracleSkills.Server
