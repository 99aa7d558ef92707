import Mathlib.Data.List.Forall2
import OracleSkills.Server.Index

/-!
# The index is sound, and the tools agree on it

`build_index` keeps a memo of parsed entries. A cache that holds only what parsing would give
(`CacheOk`) changes nothing (`parseEntry_eq`, `buildIndex_eq`), so that the index can be read
off from the list of parses: its entries are the first ones of their names
(`buildFresh_entries`, with `FirstWins`), and every `SKILL.md` that was found is an entry or an
exclusion with a reason (`buildFresh_lands`).
-/

namespace OracleSkills.Server

open Python Frontmatter

variable {W : World}

/-! ### The cache changes nothing -/

/-- `_parse_entry` without a cache. -/
def parse (W : World) (f : SkillMd) : Except Raised (Except Text Entry) :=
  match W.stat f.path with
  | none => .ok (.error "SKILL.md could not be stat'd".toList)
  | some _ => parseFresh W f

/-- The cache holds what parsing gives. -/
def CacheOk (W : World) (cache : Cache) : Prop :=
  ∀ k e, cache.get? k = some e → ∀ f : SkillMd, f.path = k.1 → parseFresh W f = .ok (.ok e)

theorem cacheOk_nil : CacheOk W [] := fun _ _ h => nomatch h

/-- What stands behind the last slash of a path, and before it. -/
theorem append_slash_inj {a a' b b' : Text} (hb : '/' ∉ b) (hb' : '/' ∉ b')
    (h : a ++ '/' :: b = a' ++ '/' :: b') :
    a = a' ∧ b = b' := by
  have hr := congrArg List.reverse h
  simp only [List.reverse_append, List.reverse_cons, List.append_assoc, List.singleton_append] at hr
  have hcut := cut_singleton (y := a.reverse) (x := b.reverse) (c := '/') (by simpa using hb)
  rw [hr, cut_singleton (by simpa using hb'), Option.some.injEq, Prod.mk.injEq, List.reverse_inj,
    List.reverse_inj] at hcut
  exact ⟨hcut.2.symm, hcut.1.symm⟩

theorem SkillMd.path_injective {f g : SkillMd} (h : f.path = g.path) : f = g := by
  have hdir : f.dir = g.dir := List.append_cancel_right h
  obtain ⟨hp, hb⟩ := append_slash_inj f.base_plain g.base_plain hdir
  cases f
  cases g
  cases hp
  cases hb
  rfl

theorem CacheOk.set {cache : Cache} (h : CacheOk W cache) {f : SkillMd} {e : Entry}
    (hf : parseFresh W f = .ok (.ok e))
    (st : ℕ × ℕ) : CacheOk W (Dict.set (f.path, st) e cache) := by
  intro k d hk g hg
  rcases Dict.get?_of_get?_set hk with ⟨rfl, rfl⟩ | hk
  · rw [SkillMd.path_injective hg]
    exact hf
  · exact h k d hk g hg

/-- A parse through the cache is a parse. -/
theorem parseEntry_eq {cache : Cache} (h : CacheOk W cache) (f : SkillMd) :
    (parseEntry W cache f).1 = parse W f ∧ CacheOk W (parseEntry W cache f).2 := by
  rw [parseEntry, parse]
  cases W.stat f.path with
  | none => exact ⟨rfl, h⟩
  | some st =>
    simp only
    cases hc : cache.get? (f.path, st) with
    | some hit => exact ⟨(h _ _ hc f rfl).symm, h⟩
    | none =>
      simp only
      cases hf : parseFresh W f with
      | error e => exact ⟨rfl, h⟩
      | ok r =>
        cases r with
        | error m => exact ⟨rfl, h⟩
        | ok e =>
          refine ⟨rfl, CacheOk.set ?_ hf st⟩
          split_ifs
          · exact cacheOk_nil
          · exact h

/-- The loop of `build_index` without a cache. -/
def buildFresh (W : World) : List (Text × SkillMd) → Index → Except Raised Index
  | [], idx => .ok idx
  | (root, f) :: fs, idx =>
    match parse W f with
    | .error e => .error e
    | .ok r => buildFresh W fs (idx.add root f r)

theorem buildLoop_eq (fs : List (Text × SkillMd)) (idx : Index) {cache : Cache}
    (h : CacheOk W cache) :
    (buildLoop W fs idx cache).1 = buildFresh W fs idx ∧
        CacheOk W (buildLoop W fs idx cache).2 := by
  induction fs generalizing idx cache with
  | nil => exact ⟨rfl, h⟩
  | cons x fs ih =>
    obtain ⟨root, f⟩ := x
    obtain ⟨heq, hok⟩ := parseEntry_eq h f
    rw [buildLoop, buildFresh, ← heq]
    generalize parseEntry W cache f = y at hok
    obtain ⟨r, cache'⟩ := y
    cases r with
    | error e => exact ⟨rfl, hok⟩
    | ok r => exact ih (idx.add root f r) hok

/-! ### What the loop makes of the parses -/

/-- All the files can be parsed, with these results. -/
def Parsed (W : World) (fs : List (Text × SkillMd)) (rs : List (Except Text Entry)) : Prop :=
  List.Forall₂ (fun x r => parse W x.2 = .ok r) fs rs

/-- If all the files can be parsed, the loop builds an index, and its entries are the first
ones of their names. -/
theorem buildFresh_entries {fs : List (Text × SkillMd)} {rs : List (Except Text Entry)}
    (h : Parsed W fs rs)
    (idx : Index) {seen : List Text} (hseen : ∀ n, n ∈ seen ↔ n ∈ idx.seen.keys) :
    ∃ idx', buildFresh W fs idx = .ok idx' ∧
        idx'.entries = idx.entries ++ FirstWins.chosen Entry.name seen rs := by
  induction h generalizing idx seen with
  | nil => exact ⟨idx, rfl, by simp [FirstWins.chosen]⟩
  | @cons x r fs rs hx _ ih =>
    obtain ⟨root, f⟩ := x
    rw [buildFresh, hx]
    simp only
    cases r with
    | error m => exact ih _ hseen
    | ok e =>
      rw [Index.add, FirstWins.chosen]
      cases hget : idx.seen.get? e.name with
      | some prevRoot =>
        have hmem : e.name ∈ seen := by
          rw [hseen]
          by_contra hno
          rw [Dict.get?_eq_none_iff.mpr hno] at hget
          cases hget
        rw [if_pos hmem]
        exact ih _ hseen
      | none =>
        have hno : e.name ∉ idx.seen.keys := Dict.get?_eq_none_iff.mp hget
        rw [if_neg (by rwa [hseen])]
        have hseen' : ∀ n, n ∈ e.name :: seen ↔ n ∈ (idx.seen.set e.name root).keys := fun n => by
          simp only [Dict.set_of_not_mem _ hno, Dict.keys, List.map_append, List.map_cons,
            List.map_nil, List.mem_append, List.mem_cons, List.not_mem_nil, or_false, hseen]
          exact or_comm
        obtain ⟨idx', hb, he⟩ :=
          ih { idx with entries := idx.entries ++ [e], seen := idx.seen.set e.name root } hseen'
        exact ⟨idx', hb, by rw [he]; simp⟩

/-- What a `SKILL.md` that was found becomes: an entry, or an exclusion, which names its root
and has a reason. -/
def Outcome (W : World) (x : Text × SkillMd) : Entry ⊕ Excluded → Prop
  | .inl e => parse W x.2 = .ok (.ok e)
  | .inr y => y.root = x.1 ∧ y.reason ≠ [] ∧
      (y.skill = x.2.base ∧ parse W x.2 = .ok (.error y.reason) ∨ ∃ e, y.skill = e.name ∧
        parse W x.2 = .ok (.ok e))

theorem platform_reason_ne {a b : Text} :
    "platform gate: declares ".toList ++ a ++ ", host is ".toList ++ b ≠ [] := by
  simp

/-- Every reason for an exclusion says something. -/
theorem reason_ne {f : SkillMd} {m : Text} (h : parse W f = .ok (.error m)) : m ≠ [] := by
  rw [parse] at h
  cases hst : W.stat f.path with
  | none =>
    rw [hst] at h
    cases h
    decide
  | some st =>
    rw [hst] at h
    simp only [parseFresh] at h
    cases hr : readTextCapped (W.file f.path) with
    | error e =>
      rw [hr] at h
      cases e with
      | other w => cases h
      | valueError m' =>
        cases h
        rw [readTextCapped.eq_def] at hr
        split at hr
        · cases hr
          decide
        · split_ifs at hr
          cases hr
          simp
    | ok text =>
      rw [hr] at h
      obtain ⟨⟨fm, body, status⟩, -, h⟩ := bind_eq_ok.mp h
      rw [parseFm] at h
      obtain ⟨name, -, h⟩ := bind_eq_ok.mp h
      split_ifs at h with hname
      · cases h
        decide
      · obtain ⟨desc, -, h⟩ := bind_eq_ok.mp h
        obtain ⟨plats, -, h⟩ := bind_eq_ok.mp h
        split_ifs at h
        · cases h
          exact platform_reason_ne
        · obtain ⟨category, -, h⟩ := bind_eq_ok.mp h
          obtain ⟨trigger, -, h⟩ := bind_eq_ok.mp h
          cases h

/-- Every file lands in exactly one of the two lists. -/
theorem buildFresh_lands {fs : List (Text × SkillMd)} {rs : List (Except Text Entry)}
    (h : Parsed W fs rs) (idx : Index) :
    ∃ idx' outs, buildFresh W fs idx = .ok idx' ∧ List.Forall₂ (Outcome W) fs outs ∧
      idx'.entries = idx.entries ++ outs.filterMap Sum.getLeft? ∧
      idx'.excluded = idx.excluded ++ outs.filterMap Sum.getRight? := by
  induction h generalizing idx with
  | nil => exact ⟨idx, [], rfl, List.Forall₂.nil, by simp, by simp⟩
  | @cons x r fs rs hx _ ih =>
    obtain ⟨root, f⟩ := x
    rw [buildFresh, hx]
    simp only
    -- what this file becomes, and what the loop does with the rest
    obtain ⟨out, hout, hent, hexc⟩ : ∃ out, Outcome W (root, f) out ∧
        (idx.add root f r).entries = idx.entries ++ [out].filterMap Sum.getLeft? ∧
        (idx.add root f r).excluded = idx.excluded ++ [out].filterMap Sum.getRight? := by
      cases r with
      | error m =>
        exact ⟨.inr ⟨f.base, root, m⟩,
          ⟨rfl, reason_ne hx, Or.inl ⟨rfl, hx⟩⟩, by simp [Index.add], by simp [Index.add]⟩
      | ok e =>
        rw [Index.add]
        cases idx.seen.get? e.name with
        | some prevRoot =>
          exact ⟨.inr ⟨e.name, root,
            "shadowed: name already provided by higher-precedence root ".toList ++ prevRoot⟩,
            ⟨rfl, by simp, Or.inr ⟨e, rfl, hx⟩⟩, by simp, by simp⟩
        | none => exact ⟨.inl e, hx, by simp, by simp⟩
    obtain ⟨idx', outs, hb, houts, he, hx'⟩ := ih (idx.add root f r)
    refine ⟨idx', out :: outs, hb, List.Forall₂.cons hout houts, ?_, ?_⟩
    · rw [he, hent, List.append_assoc, ← List.filterMap_append, List.singleton_append]
    · rw [hx', hexc, List.append_assoc, ← List.filterMap_append, List.singleton_append]

/-! ### When a file can be parsed -/

/-- `str()` does not raise on the value of a key, where it is applied. -/
def Shown (fm : Dict Text Value) (key : Text) : Prop :=
  ∀ v, fm.get? key = some v → v.truth = true → ∃ t, v.toStr = .ok t

/-- `str()` raises nowhere that `_parse_entry` applies it: on the name; with a name, on the
description and the platforms; and past the platform gate on the category and the trigger. -/
def ShowsFm (W : World) (f : SkillMd) (fm : Dict Text Value) : Prop :=
  Shown fm "name".toList ∧
    (skillName fm f.base ≠ .ok [] →
      Shown fm "description".toList ∧
        (∀ p ∈ asList (fm.get? "platforms".toList), ∃ t, p.toStr = .ok t) ∧
        ((∀ plats, platforms W (asList (fm.get? "platforms".toList)) = .ok plats →
            plats = [] ∨ osTag W.platform ∈ plats) →
          Shown fm "category".toList ∧ Shown fm "trigger".toList))

/-- The frontmatter of a `SKILL.md` that can be read shows: it can be split (a YAML error has a
message, and `str()` does not raise on a key), and `str()` does not raise on its values. -/
def Shows (W : World) (f : SkillMd) : Prop :=
  W.stat f.path ≠ none → ∀ text, readTextCapped (W.file f.path) = .ok text →
    ∃ fm body status, splitFrontmatterEx W.yaml text = .ok (fm, body, status) ∧ ShowsFm W f fm

theorem strOr_ok_iff {fm : Dict Text Value} {key default : Text} :
    (∃ t, strOr fm key default = .ok t) ↔ Shown fm key := by
  rw [strOr, Shown]
  cases fm.get? key with
  | none => simp
  | some v =>
    simp only [Option.some.injEq, forall_eq']
    split_ifs with ht
    · cases v.toStr <;> simp [ht, Functor.map, Except.map]
    · simp [ht]

theorem optText_ok_iff {fm : Dict Text Value} {key : Text} :
    (∃ t, optText fm key = .ok t) ↔ Shown fm key := by
  rw [← strOr_ok_iff, optText]
  cases strOr fm key [] <;> simp [Functor.map, Except.map]

theorem platforms_ok_iff {ps : List Value} :
    (∃ ts, platforms W ps = .ok ts) ↔ ∀ p ∈ ps, ∃ t, p.toStr = .ok t := by
  induction ps with
  | nil => simp [platforms]
  | cons p ps ih =>
    rw [List.forall_mem_cons, ← ih, platforms]
    constructor
    · rintro ⟨ts, h⟩
      obtain ⟨t, ht, h⟩ := bind_eq_ok.mp h
      obtain ⟨us, hu, -⟩ := bind_eq_ok.mp h
      exact ⟨⟨t, ht⟩, us, hu⟩
    · rintro ⟨⟨t, ht⟩, us, hu⟩
      exact ⟨_, bind_eq_ok.mpr ⟨t, ht, bind_eq_ok.mpr ⟨us, hu, rfl⟩⟩⟩

/-- The frontmatter is parsed into an entry or a reason exactly if it shows. -/
theorem parseFm_ok_iff {f : SkillMd} {fm : Dict Text Value} :
    (∃ r, parseFm W f fm = .ok r) ↔ ShowsFm W f fm := by
  constructor
  · rintro ⟨r, h⟩
    obtain ⟨name, hname, h⟩ := bind_eq_ok.mp h
    refine ⟨strOr_ok_iff.mp ⟨name, hname⟩, fun hne => ?_⟩
    have hnil : name ≠ [] := by
      rintro rfl
      exact hne hname
    rw [if_neg hnil] at h
    obtain ⟨desc, hdesc, h⟩ := bind_eq_ok.mp h
    obtain ⟨plats, hplats, h⟩ := bind_eq_ok.mp h
    refine ⟨optText_ok_iff.mp ⟨desc, hdesc⟩, platforms_ok_iff.mp ⟨plats, hplats⟩, fun hgate => ?_⟩
    rw [if_neg fun hp => (hgate plats hplats).elim hp.1 hp.2] at h
    obtain ⟨category, hcategory, h⟩ := bind_eq_ok.mp h
    obtain ⟨trigger, htrigger, -⟩ := bind_eq_ok.mp h
    exact ⟨optText_ok_iff.mp ⟨category, hcategory⟩, optText_ok_iff.mp ⟨trigger, htrigger⟩⟩
  · rintro ⟨hname, hrest⟩
    obtain ⟨name, hname⟩ : ∃ name, skillName fm f.base = .ok name := strOr_ok_iff.mpr hname
    by_cases hnil : name = []
    · exact ⟨_, bind_eq_ok.mpr ⟨name, hname, by rw [if_pos hnil]⟩⟩
    · obtain ⟨hdesc, hplats, hgate⟩ := hrest fun he => by
        rw [hname, Except.ok.injEq] at he
        exact hnil he
      obtain ⟨desc, hdesc⟩ := optText_ok_iff.mpr hdesc
      obtain ⟨plats, hplats⟩ := platforms_ok_iff.mpr hplats
      by_cases hp : plats ≠ [] ∧ osTag W.platform ∉ plats
      · exact ⟨_, bind_eq_ok.mpr ⟨name, hname, by
          rw [if_neg hnil]
          exact bind_eq_ok.mpr ⟨desc, hdesc, bind_eq_ok.mpr ⟨plats, hplats, by rw [if_pos hp]⟩⟩⟩⟩
      · obtain ⟨hcategory, htrigger⟩ := hgate fun ps hps => by
          rw [hplats, Except.ok.injEq] at hps
          subst hps
          by_contra hno
          rw [not_or] at hno
          exact hp hno
        obtain ⟨category, hcategory⟩ := optText_ok_iff.mpr hcategory
        obtain ⟨trigger, htrigger⟩ := optText_ok_iff.mpr htrigger
        refine ⟨.ok ⟨name, desc, category, trigger, asDict (fm.get? "requires".toList), f⟩,
          bind_eq_ok.mpr ⟨name, hname, ?_⟩⟩
        rw [if_neg hnil]
        refine bind_eq_ok.mpr ⟨desc, hdesc, bind_eq_ok.mpr ⟨plats, hplats, ?_⟩⟩
        rw [if_neg hp]
        exact bind_eq_ok.mpr ⟨category, hcategory, bind_eq_ok.mpr ⟨trigger, htrigger, rfl⟩⟩

theorem readTextCapped_error {file : Option (ℕ × Text)} {e : Raised}
    (h : readTextCapped file = .error e) :
    ∃ m, e = .valueError m := by
  rw [readTextCapped.eq_def] at h
  split at h
  · cases h
    exact ⟨_, rfl⟩
  · split_ifs at h
    cases h
    exact ⟨_, rfl⟩

/-- A file is parsed exactly if it shows. -/
theorem parse_ok_iff {f : SkillMd} : (∃ r, parse W f = .ok r) ↔ Shows W f := by
  rw [parse, Shows]
  cases W.stat f.path with
  | none => simp
  | some st =>
    simp only [ne_eq, reduceCtorEq, not_false_eq_true, forall_const, parseFresh]
    cases hr : readTextCapped (W.file f.path) with
    | error e =>
      obtain ⟨m, rfl⟩ := readTextCapped_error hr
      simp
    | ok text =>
      simp only [Except.ok.injEq, forall_eq']
      constructor
      · rintro ⟨r, h⟩
        obtain ⟨⟨fm, body, status⟩, hs, h⟩ := bind_eq_ok.mp h
        exact ⟨fm, body, status, hs, parseFm_ok_iff.mp ⟨r, h⟩⟩
      · rintro ⟨fm, body, status, hs, hfm⟩
        obtain ⟨r, h⟩ := parseFm_ok_iff.mpr hfm
        exact ⟨r, bind_eq_ok.mpr ⟨_, hs, h⟩⟩

/-- The loop builds an index exactly if every file is parsed. -/
theorem buildFresh_ok_iff {fs : List (Text × SkillMd)} {idx : Index} :
    (∃ idx', buildFresh W fs idx = .ok idx') ↔ ∃ rs, Parsed W fs rs := by
  constructor
  · induction fs generalizing idx with
    | nil => exact fun _ => ⟨[], List.Forall₂.nil⟩
    | cons x fs ih =>
      rintro ⟨idx', h⟩
      obtain ⟨root, f⟩ := x
      rw [buildFresh] at h
      cases hp : parse W f with
      | error e =>
        rw [hp] at h
        cases h
      | ok r =>
        rw [hp] at h
        obtain ⟨rs, hrs⟩ := ih ⟨idx', h⟩
        exact ⟨r :: rs, List.Forall₂.cons hp hrs⟩
  · rintro ⟨rs, h⟩
    obtain ⟨idx', hb, -⟩ := buildFresh_entries h idx fun n => Iff.rfl
    exact ⟨idx', hb⟩

theorem parsed_iff {fs : List (Text × SkillMd)} :
    (∃ rs, Parsed W fs rs) ↔ ∀ x ∈ fs, ∃ r, parse W x.2 = .ok r := by
  induction fs with
  | nil => exact ⟨fun _ x hx => absurd hx List.not_mem_nil, fun _ => ⟨[], List.Forall₂.nil⟩⟩
  | cons x fs ih =>
    rw [List.forall_mem_cons, ← ih]
    constructor
    · rintro ⟨rs, h⟩
      cases h with
      | cons hx hrs => exact ⟨⟨_, hx⟩, _, hrs⟩
    · rintro ⟨⟨r, hx⟩, rs, hrs⟩
      exact ⟨r :: rs, List.Forall₂.cons hx hrs⟩

/-! ### The index and the tools -/

/-- What the index should be. -/
structure IndexSound (W : World) (idx : Index) : Prop where
  /-- The names are all different, -/
  nodup : (idx.entries.map Entry.name).Nodup
  /-- and not empty. -/
  named : ∀ e ∈ idx.entries, e.name ≠ []
  /-- The entries are the first valid ones of their names, in the order of the files. -/
  first : ∀ e, e ∈ idx.entries ↔ ∃ pre x post, iterSkillDirs W = pre ++ x :: post ∧
    parse W x.2 = .ok (.ok e) ∧
    ∀ y ∈ pre, ∀ d, parse W y.2 = .ok (.ok d) → d.name ≠ e.name
  /-- Every file that was found is an entry or an exclusion with a reason. -/
  lands : ∃ outs, List.Forall₂ (Outcome W) (iterSkillDirs W) outs ∧
    idx.entries = outs.filterMap Sum.getLeft? ∧
    idx.excluded = outs.filterMap Sum.getRight?

/-- A tool call is answered that the skill was not found. -/
def NotFound (W : World) (name : Text) (r : Except Raised Text) : Prop :=
  r = .error (.valueError ("skill not found: ".toList ++ W.repr name))

/-- The tools agree on the index: what is listed is an entry of it, a name that is an entry's
leads to that entry's directory, and any other name is not found. -/
structure ToolsAgree (W : World) (idx : Index) (cache : Cache) : Prop where
  list : ∀ category, ∃ shown, (skillsListAll W cache category).1 = .ok shown ∧
    ∀ e ∈ shown, e ∈ idx.entries
  listAll : ∃ shown, (skillsListAll W cache []).1 = .ok shown ∧ shown.Perm idx.entries
  view : ∀ e ∈ idx.entries, ∀ arg, strip arg = e.name →
    (skillViewDir W cache arg).1 = .ok e.path.dir
  patch : ∀ e ∈ idx.entries, ∀ args : PatchArgs, (∃ x, args.check = .ok x) →
    strip args.name = e.name →
    (skillPatchDir W cache args).1 = .ok e.path.dir
  viewOther : ∀ arg, strip arg ≠ [] → (∀ e ∈ idx.entries, strip arg ≠ e.name) →
    NotFound W (strip arg) (skillViewDir W cache arg).1
  patchOther : ∀ args : PatchArgs, (∃ x, args.check = .ok x) →
    (∀ e ∈ idx.entries, strip args.name ≠ e.name) →
    NotFound W (strip args.name) (skillPatchDir W cache args).1

/-- With any cache that the builds so far may have left, `build_index` gives one and the same
index, which is sound, and the tools agree on it. -/
def IndexAgrees (W : World) : Prop :=
  ∃ idx, IndexSound W idx ∧ ∀ cache, CacheOk W cache →
    (buildIndex W cache).1 = .ok idx ∧ CacheOk W (buildIndex W cache).2 ∧ ToolsAgree W idx cache

theorem strip_skillName {fm : Dict Text Value} {base t : Text} (h : skillName fm base = .ok t) :
    strip t = t := by
  rw [skillName, strOr] at h
  have hstrip : ∃ u, t = strip u := by
    cases hg : fm.get? "name".toList with
    | none => rw [hg] at h; cases h; exact ⟨_, rfl⟩
    | some v =>
      rw [hg] at h
      simp only at h
      split_ifs at h
      · cases hv : v.toStr with
        | error e => rw [hv] at h; cases h
        | ok u => rw [hv] at h; cases h; exact ⟨_, rfl⟩
      · cases h
        exact ⟨_, rfl⟩
  obtain ⟨u, rfl⟩ := hstrip
  exact stripped_strip u

/-- What an entry has of the frontmatter and the file that it is made of. -/
theorem parseFm_entry {f : SkillMd} {fm : Dict Text Value} {e : Entry}
    (h : parseFm W f fm = .ok (.ok e)) :
    skillName fm f.base = .ok e.name ∧ e.name ≠ [] ∧ e.path = f := by
  obtain ⟨name, hname, h⟩ := bind_eq_ok.mp h
  split_ifs at h with hnil
  · cases h
  · obtain ⟨desc, -, h⟩ := bind_eq_ok.mp h
    obtain ⟨plats, -, h⟩ := bind_eq_ok.mp h
    split_ifs at h
    · cases h
    · obtain ⟨category, -, h⟩ := bind_eq_ok.mp h
      obtain ⟨trigger, -, h⟩ := bind_eq_ok.mp h
      cases h
      exact ⟨hname, hnil, rfl⟩

/-- A file with an entry has been read. -/
theorem exists_of_parse {f : SkillMd} {e : Entry} (h : parse W f = .ok (.ok e)) :
    W.stat f.path ≠ none ∧ ∃ text fm, readTextCapped (W.file f.path) = .ok text ∧
        parseFm W f fm = .ok (.ok e) := by
  rw [parse] at h
  cases hst : W.stat f.path with
  | none => rw [hst] at h; cases h
  | some st =>
    rw [hst] at h
    simp only [parseFresh] at h
    cases hr : readTextCapped (W.file f.path) with
    | error x =>
      rw [hr] at h
      cases x <;> cases h
    | ok text =>
      rw [hr] at h
      obtain ⟨⟨fm, body, status⟩, -, h⟩ := bind_eq_ok.mp h
      exact ⟨by simp, text, fm, rfl, h⟩

theorem path_of_parse {f : SkillMd} {e : Entry} (h : parse W f = .ok (.ok e)) : e.path = f := by
  obtain ⟨-, text, fm, -, h⟩ := exists_of_parse h
  exact (parseFm_entry h).2.2

/-- The name of a parsed entry is not empty, and stripped. -/
theorem name_of_parse {f : SkillMd} {e : Entry} (h : parse W f = .ok (.ok e)) :
    e.name ≠ [] ∧ strip e.name = e.name := by
  obtain ⟨-, text, fm, -, hparse⟩ := exists_of_parse h
  obtain ⟨hname, hne, -⟩ := parseFm_entry hparse
  exact ⟨hne, strip_skillName hname⟩

/-- Lists that are related item by item are split together. -/
theorem forall₂_split {α β : Type*} {R : α → β → Prop} :
    ∀ {pre : List β} {b : β} {post : List β} {l : List α},
    List.Forall₂ R l (pre ++ b :: post) →
      ∃ pre' a post', l = pre' ++ a :: post' ∧ List.Forall₂ R pre' pre ∧ R a b ∧
        List.Forall₂ R post' post
  | [], b, post, l, h => by
    cases h with
    | cons hab hrest => exact ⟨[], _, _, rfl, List.Forall₂.nil, hab, hrest⟩
  | c :: pre, b, post, l, h => by
    cases h with
    | cons hac hrest =>
      obtain ⟨pre', a, post', rfl, hpre, hab, hpost⟩ := forall₂_split hrest
      exact ⟨_ :: pre', a, post', rfl, List.Forall₂.cons hac hpre, hab, hpost⟩

theorem forall₂_mem {α β : Type*} {R : α → β → Prop} {l : List α} {m : List β}
    (h : List.Forall₂ R l m) {a : α} (ha : a ∈ l) : ∃ b ∈ m, R a b := by
  induction h with
  | nil => cases ha
  | cons hab _ ih =>
    rcases List.mem_cons.mp ha with rfl | ha
    · exact ⟨_, List.mem_cons_self .., hab⟩
    · obtain ⟨b, hb, hr⟩ := ih ha
      exact ⟨b, List.mem_cons_of_mem _ hb, hr⟩

/-- The first candidate of a name among the parses is the first file of that name. -/
theorem first_iff {fs : List (Text × SkillMd)} {rs : List (Except Text Entry)} (h : Parsed W fs rs)
    (e : Entry) :
    (∃ pre post, rs = pre ++ .ok e :: post ∧ e.name ∉ ([] : List Text) ∧ ∀ b, .ok b ∈ pre →
      b.name ≠ e.name) ↔
      ∃ pre x post, fs = pre ++ x :: post ∧ parse W x.2 = .ok (.ok e) ∧
        ∀ y ∈ pre, ∀ d, parse W y.2 = .ok (.ok d) → d.name ≠ e.name := by
  constructor
  · rintro ⟨pre, post, rfl, -, hpre⟩
    obtain ⟨pre', x, post', rfl, hpre', hx, -⟩ := forall₂_split h
    refine ⟨pre', x, post', rfl, hx, fun y hy d hd => hpre d ?_⟩
    obtain ⟨r, hr, hyr⟩ := forall₂_mem hpre' hy
    rw [hd, Except.ok.injEq] at hyr
    exact hyr ▸ hr
  · rintro ⟨pre, x, post, rfl, hx, hpre⟩
    have hflip : List.Forall₂ (flip fun x r => parse W x.2 = .ok r) rs (pre ++ x :: post) :=
      List.Forall₂.flip h
    obtain ⟨pre', r, post', rfl, hpre', hr, -⟩ := forall₂_split hflip
    have hre : r = .ok e := by
      have hr' : parse W x.2 = .ok r := hr
      rw [hx, Except.ok.injEq] at hr'
      exact hr'.symm
    subst hre
    refine ⟨pre', post', rfl, List.not_mem_nil, fun b hb => ?_⟩
    obtain ⟨y, hy, hyb⟩ := forall₂_mem hpre' hb
    exact hpre y hy b hyb

/-- Where every file is parsed, the index is sound. -/
theorem indexSound_of_parsed {rs : List (Except Text Entry)} (h : Parsed W (iterSkillDirs W) rs) :
    ∃ idx, buildFresh W (iterSkillDirs W) ⟨[], [], []⟩ = .ok idx ∧ IndexSound W idx := by
  have hseen : ∀ n, n ∈ ([] : List Text) ↔ n ∈ (⟨[], [], []⟩ : Index).seen.keys := fun n => Iff.rfl
  obtain ⟨idx, hb, hent⟩ := buildFresh_entries h ⟨[], [], []⟩ hseen
  obtain ⟨idx', outs, hb', houts, he, hx⟩ := buildFresh_lands h ⟨[], [], []⟩
  rw [hb, Except.ok.injEq] at hb'
  subst hb'
  rw [List.nil_append] at hent he hx
  have hfirst : ∀ e, e ∈ idx.entries ↔ ∃ pre x post, iterSkillDirs W = pre ++ x :: post ∧
      parse W x.2 = .ok (.ok e) ∧ ∀ y ∈ pre, ∀ d, parse W y.2 = .ok (.ok d) → d.name ≠ e.name := by
    intro e
    rw [hent, FirstWins.mem_chosen_iff]
    exact first_iff h e
  refine ⟨idx, hb, ?_, fun e hmem => ?_, hfirst, outs, houts, he, hx⟩
  · rw [hent]
    exact FirstWins.nodup_chosen
  · obtain ⟨pre, x, post, -, hp, -⟩ := (hfirst e).mp hmem
    exact (name_of_parse hp).1

/-- A build through a cache is a build. -/
theorem buildIndex_eq {cache : Cache} (h : CacheOk W cache) :
    (buildIndex W cache).1 = buildFresh W (iterSkillDirs W) ⟨[], [], []⟩ ∧
        CacheOk W (buildIndex W cache).2 :=
  buildLoop_eq _ _ h

section

variable {idx : Index} {cache : Cache}

/-- The tools look names up in the index that a build gives. -/
theorem resolveSkillDir_eq (h : (buildIndex W cache).1 = .ok idx) (name : Text) :
    (resolveSkillDir W cache name).1 =
        .ok ((idx.entries.find? fun e => decide (e.name = name)).map fun e => e.path.dir) := by
  rw [resolveSkillDir]
  generalize buildIndex W cache = y at h
  obtain ⟨r, cache'⟩ := y
  simp only at h
  subst h
  rfl

/-- The name of an entry leads to its directory. -/
theorem skillDirOf_of_mem (h : (buildIndex W cache).1 = .ok idx)
    (hnodup : (idx.entries.map Entry.name).Nodup) {e : Entry}
    (he : e ∈ idx.entries) : (skillDirOf W cache e.name).1 = .ok e.path.dir := by
  have hr := resolveSkillDir_eq h e.name
  rw [FirstWins.find?_of_nodup hnodup he] at hr
  rw [skillDirOf]
  generalize resolveSkillDir W cache e.name = y at hr
  obtain ⟨r, cache'⟩ := y
  simp only at hr
  subst hr
  rfl

/-- A name that is resolved is that of an entry. -/
theorem exists_entry_of_skillDirOf {cache' : Cache} {name dir : Text}
    (h : skillDirOf W cache name = (.ok dir, cache')) :
    ∃ idx, (buildIndex W cache).1 = .ok idx ∧ cache' = (buildIndex W cache).2 ∧
      ∃ e ∈ idx.entries, e.name = name ∧ e.path.dir = dir := by
  rw [skillDirOf, resolveSkillDir] at h
  generalize buildIndex W cache = y at h ⊢
  obtain ⟨r, kept⟩ := y
  cases r with
  | error x => cases h
  | ok idx =>
    cases hfind : idx.entries.find? fun e => decide (e.name = name) with
    | none =>
      simp only [hfind] at h
      cases h
    | some e =>
      simp only [hfind] at h
      cases h
      exact ⟨idx, rfl, rfl, e,
        List.mem_of_find?_eq_some hfind, by simpa using List.find?_some hfind, rfl⟩

/-- Another name is not found. -/
theorem skillDirOf_of_not_mem (h : (buildIndex W cache).1 = .ok idx) {name : Text}
    (hname : ∀ e ∈ idx.entries, name ≠ e.name) : NotFound W name (skillDirOf W cache name).1 := by
  have hr := resolveSkillDir_eq h name
  have hfind : (idx.entries.find? fun e => decide (e.name = name)) = none := by
    rw [List.find?_eq_none]
    exact fun e he => by simpa using (hname e he).symm
  rw [hfind] at hr
  rw [NotFound, skillDirOf]
  generalize resolveSkillDir W cache name = y at hr
  obtain ⟨r, cache'⟩ := y
  simp only at hr
  subst hr
  rfl

/-- `skills_list` lists entries of the index. -/
theorem skillsListAll_eq (h : (buildIndex W cache).1 = .ok idx) (category : Text) :
    ∃ shown, (skillsListAll W cache category).1 = .ok shown ∧ (∀ e ∈ shown, e ∈ idx.entries) ∧
      (strip category = [] → shown.Perm idx.entries) := by
  rw [skillsListAll]
  generalize buildIndex W cache = y at h
  obtain ⟨r, cache'⟩ := y
  simp only at h
  subst h
  refine ⟨_, rfl, fun e he => ?_, fun hc => ?_⟩
  · rw [List.mem_mergeSort] at he
    split_ifs at he
    · exact List.mem_of_mem_filter he
    · exact he
  · rw [if_neg (by simpa using hc)]
    exact List.mergeSort_perm _ _

theorem skillPatchDir_eq {args : PatchArgs} (h : ∃ x, args.check = .ok x) :
    skillPatchDir W cache args = skillDirOf W cache (strip args.name) := by
  obtain ⟨x, h⟩ := h
  rw [skillPatchDir, h]

theorem skillViewDir_eq {arg : Text} (h : strip arg ≠ []) :
    skillViewDir W cache arg = skillDirOf W cache (strip arg) :=
  if_neg h

theorem toolsAgree_of_build (h : (buildIndex W cache).1 = .ok idx) (hs : IndexSound W idx) :
    ToolsAgree W idx cache where
  list category := by
    obtain ⟨shown, hshown, hmem, -⟩ := skillsListAll_eq h category
    exact ⟨shown, hshown, hmem⟩
  listAll := by
    obtain ⟨shown, hshown, -, hperm⟩ := skillsListAll_eq h []
    exact ⟨shown, hshown, hperm rfl⟩
  view e he arg harg := by
    rw [skillViewDir_eq (harg ▸ hs.named e he), harg]
    exact skillDirOf_of_mem h hs.nodup he
  patch e he args hargs hname := by
    rw [skillPatchDir_eq hargs, hname]
    exact skillDirOf_of_mem h hs.nodup he
  viewOther arg harg hname := by
    rw [skillViewDir_eq harg]
    exact skillDirOf_of_not_mem h hname
  patchOther args hargs hname := by
    rw [skillPatchDir_eq hargs]
    exact skillDirOf_of_not_mem h hname

end

theorem mem_iterSkillDirs {x : Text × SkillMd} :
    x ∈ iterSkillDirs W ↔ x.1 ∈ W.roots ∧ x.2 ∈ W.glob x.1 := by
  obtain ⟨root, f⟩ := x
  rw [iterSkillDirs, List.mem_flatMap]
  constructor
  · rintro ⟨root', hroot, hf⟩
    obtain ⟨g, hg, heq⟩ := List.mem_map.mp hf
    cases heq
    exact ⟨hroot, List.mem_mergeSort.mp hg⟩
  · rintro ⟨hroot, hf⟩
    exact ⟨root, hroot, List.mem_map.mpr ⟨f, List.mem_mergeSort.mpr hf, rfl⟩⟩

/-- The index agrees exactly if every file is parsed. -/
theorem indexAgrees_iff_parsed : IndexAgrees W ↔ ∃ rs, Parsed W (iterSkillDirs W) rs := by
  constructor
  · rintro ⟨idx, -, h⟩
    have hb := (h [] cacheOk_nil).1
    rw [(buildIndex_eq cacheOk_nil).1] at hb
    exact buildFresh_ok_iff.mp ⟨idx, hb⟩
  · rintro ⟨rs, h⟩
    obtain ⟨idx, hb, hs⟩ := indexSound_of_parsed h
    refine ⟨idx, hs, fun cache hcache => ?_⟩
    obtain ⟨heq, hok⟩ := buildIndex_eq hcache
    have hbuild : (buildIndex W cache).1 = .ok idx := heq.trans hb
    exact ⟨hbuild, hok, toolsAgree_of_build hbuild hs⟩

/-- **The index is sound, and the tools agree on it**, if and only if the frontmatter of every
`SKILL.md` below the roots shows. -/
theorem index_agrees_iff (W : World) :
    IndexAgrees W ↔ ∀ root ∈ W.roots, ∀ f ∈ W.glob root, Shows W f := by
  rw [indexAgrees_iff_parsed, parsed_iff]
  constructor
  · exact fun h root hroot f hf => parse_ok_iff.mp (h (root, f) (mem_iterSkillDirs.mpr ⟨hroot, hf⟩))
  · intro h x hx
    obtain ⟨hroot, hf⟩ := mem_iterSkillDirs.mp hx
    exact parse_ok_iff.mpr (h x.1 hroot x.2 hf)

/-! ### A name that cannot be shown -/

/-- `name: 0x`. -/
def hexKey : Text := ['n', 'a', 'm', 'e', ':', ' ', '0', 'x']

/-- A hexadecimal integer of `n + 1` digits. -/
def hexLine (n : ℕ) : Text := hexKey ++ List.replicate n 'F' ++ ['F']

/-- What PyYAML reads from a line with more digits than `str()` converts. -/
def longInt : Value :=
  .obj true "int".toList (.error (.valueError
    "Exceeds the limit (4300 digits) for integer string conversion; use sys.set_int_max_str_digits() to increase the limit".toList))

/-- A `SKILL.md` in a directory `hex`. -/
def hexSkill : SkillMd := ⟨"skills".toList, "hex".toList, by decide, by decide⟩

/-- A root with nothing in it but a `SKILL.md` whose only key is on `line`, a long integer. -/
def hexWorld (line : Text) : World where
  roots := ["skills".toList]
  glob _ := [hexSkill]
  stat _ := some (0, line.length + 9)
  file _ := some (line.length + 9, fence ++ '\n' :: (unlines [line] ++ (fence ++ '\n' :: [])))
  yaml := some fun _ => .ok (.dict [(.str "name".toList, longInt)] longInt.toStr)
  lower t := t
  repr t := t
  platform := "linux".toList

theorem hexLine_plain (n : ℕ) : OneLine (hexLine n) ∧ Stripped (hexLine n) := by
  have hkey : OneLine hexKey := by decide
  have hdigits : OneLine (List.replicate n 'F') := fun c hc => by
    rw [List.eq_of_mem_replicate hc]
    decide
  refine ⟨(hkey.append hdigits).append (by decide),
    stripped_of_ends (fun c hc => ?_) fun c hc => ?_⟩
  · rw [hexLine, hexKey, List.cons_append, List.cons_append, List.head?_cons,
      Option.some.injEq] at hc
    subst hc
    decide
  · rw [hexLine, List.getLast?_concat, Option.some.injEq] at hc
    subst hc
    decide

/-- A file of 4017 characters, and there is no index at all: it is not so that the index agrees,
whatever is below the roots. -/
theorem not_indexAgrees_longInt : ¬ ∀ W, IndexAgrees W := by
  intro h
  obtain ⟨hline, hstrip⟩ := hexLine_plain 3999
  have hlength : (hexLine 3999).length = 4008 := by
    rw [hexLine, List.length_append, List.length_append, List.length_replicate]
    rfl
  have hne : hexLine 3999 ≠ fence := fun he => by
    rw [he] at hlength
    exact absurd hlength (by decide)
  -- what else the line is made of does not matter
  generalize hexLine 3999 = line at hline hstrip hlength hne
  obtain ⟨rs, hrs⟩ := indexAgrees_iff_parsed.mp (h (hexWorld line))
  have hfound : ("skills".toList, hexSkill) ∈ iterSkillDirs (hexWorld line) :=
    mem_iterSkillDirs.mpr ⟨List.mem_singleton.mpr rfl, List.mem_singleton.mpr rfl⟩
  have hread : readTextCapped ((hexWorld line).file hexSkill.path) =
      .ok (fence ++ '\n' :: (unlines [line] ++ (fence ++ '\n' :: []))) := by
    have hcap : ¬ maxFileBytes < line.length + 9 := by
      rw [hlength]
      decide
    exact if_neg hcap
  obtain ⟨fm, body, status, hsplit, hname, -⟩ := parse_ok_iff.mp (parsed_iff.mp ⟨rs, hrs⟩ _ hfound)
    (Option.some_ne_none _) _ hread
  have hlines : ∀ l ∈ [line], OneLine l ∧ strip l ≠ fence := by
    rw [List.forall_mem_singleton]
    exact ⟨hline, by rwa [hstrip]⟩
  have hfm : fm = [("name".toList, longInt)] := by
    rw [splitFrontmatterEx, blockLines_unlines hlines, if_neg (by simp [fence])] at hsplit
    cases hsplit
    rfl
  obtain ⟨t, ht⟩ := hname longInt (by rw [hfm]; rfl) rfl
  cases ht

end OracleSkills.Server
