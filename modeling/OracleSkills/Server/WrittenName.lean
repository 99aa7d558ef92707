import OracleSkills.Python.Lines
import OracleSkills.Server.IndexSound
import OracleSkills.Server.Patch
import OracleSkills.Yaml.Plain

/-!
# The name that a skill is written under

`_render` quotes every free text, "instead of depending on which characters appear", but writes the
name as it is. The server has PyYAML read it, which resolves a plain scalar: `yes` is a boolean,
`012` is ten. `_skill_name` takes `str(fm.get("name") or dir_name)`, where the directory has the
name that was written.

`written_listed_iff` says when a skill that `create` has written is listed under the name it was
written under. Where PyYAML takes the frontmatter, that is where the name `Keeps`; where it does
not, the flat reader finds the name as it is, unless the creator id breaks into lines of its own
(`flatKeeps_of_oneLine`).
-/

namespace OracleSkills.Server

open Python Frontmatter Writer

/-! ### What PyYAML gives -/

/-- The value of a plain scalar. -/
def ofResolved (x : Yaml.Resolved) : Value :=
  match x with
  | .null => .none
  | .bool b => .obj b "bool".toList (.ok x.shown)
  | .int n => .obj (n ≠ 0) "int".toList (.ok x.shown)
  | .date _ => .obj true "date".toList (.ok x.shown)
  | .str t => .str t

/-- The rules of YAML 1.1 for a scalar: one that is quoted is a string, and a plain one of letters,
digits and hyphens is what it is resolved to. -/
structure Scalar11 (written : Text) (v : Value) : Prop where
  quoted : ∀ t, written = yamlScalar t → ∃ u, v = .str u
  plain : SlugText written → written ≠ [] → written.head? ≠ some '-' →
    ∃ x, Yaml.resolve written = some x ∧ v = ofResolved x

/-- PyYAML gives a mapping of the fields, each by these rules, or raises an exception, which has a
message. -/
structure Yaml11 (load : Text → Except Text Value) (block : Text) (fields : List (Text × Text)) :
    Prop where
  message : ∀ e, load block = .error e → splitlines e ≠ []
  mapping : ∀ v, load block = .ok v → ∃ kvs shown, v = .dict kvs shown ∧
    List.Forall₂ (fun kv x => x.1 = .str kv.1 ∧ Scalar11 kv.2 x.2) fields kvs

/-- PyYAML is there and takes the block. -/
def Takes (W : World) (block : Text) : Prop := ∃ load v, W.yaml = some load ∧ load block = .ok v

/-! ### What is claimed, and when it holds -/

/-- The file `f` is what `create` has written, in the directory of that name. -/
structure Wrote (W : World) (env : Env) (r : Request) (f : SkillMd) : Prop where
  dir : f.base = r.name
  stat : W.stat f.path ≠ none
  file : W.file f.path = some (utf8Length (r.rendered env), r.rendered env)
  yaml : ∀ load lines rest, W.yaml = some load → blockLines (r.rendered env) = some (lines, rest) →
    Yaml11 load (join ['\n'] lines) (r.header env)

/-- The skill is in the index under that name, and the tools find it by it. -/
structure Listed (W : World) (cache : Cache) (f : SkillMd) (name : Text) : Prop where
  listed : ∃ idx, (buildIndex W cache).1 = .ok idx ∧ ∃ e ∈ idx.entries, e.path = f ∧ e.name = name
  resolves : (skillDirOf W cache name).1 = .ok f.dir

/-- What the flat reader has found gives the name, or none, and no other platform. -/
structure FlatKeeps (W : World) (fm : Dict Text Text) (name : Text) : Prop where
  name : ∀ t, fm.get? "name".toList = some t → t = [] ∨ strip t = name
  platform : ∀ t, fm.get? "platforms".toList = some t →
    platformAlias (W.lower (strip t)) = osTag W.platform

/-- The lines that the creator id breaks into, after the first and up to a fence: `_yaml_scalar`
flattens line feeds and carriage returns, the other line ends of `str.splitlines` stay. -/
def sourceLines (r : Request) : List Text :=
  (splitlines (yamlScalar r.source)).tail.takeWhile fun l => strip l ≠ fence

/-- The frontmatter gives the name back. -/
def Named (W : World) (env : Env) (r : Request) : Prop :=
  ∀ lines rest, blockLines (r.rendered env) = some (lines, rest) →
    (Takes W (join ['\n'] lines) → Yaml.Keeps r.name) ∧
    (¬ Takes W (join ['\n'] lines) → FlatKeeps W ((sourceLines r).foldl fallbackLine []) r.name)

/-- The file can be read and gives the name back, every other one can be parsed, and none before it
has the name. -/
structure Undisputed (W : World) (env : Env) (r : Request) (f : SkillMd) : Prop where
  size : utf8Length (r.rendered env) ≤ maxFileBytes
  named : Named W env r
  others : ∀ x ∈ iterSkillDirs W, x.2 ≠ f → Shows W x.2
  first : ∃ pre root post, iterSkillDirs W = pre ++ (root, f) :: post ∧
    ∀ y ∈ pre, ∀ d, parse W y.2 = .ok (.ok d) → d.name ≠ r.name

section

variable {W : World} {cache : Cache} {env : Env} {a : Args} {r : Request} {f : SkillMd}
  {fm : Dict Text Value} {name : Text}

/-! ### The index -/

/-- **A file is listed** under a name exactly if every file is parsed, and it is the first that is
parsed to that name. -/
theorem listed_iff (hcache : CacheOk W cache) : Listed W cache f name ↔
    (∀ x ∈ iterSkillDirs W, ∃ r, parse W x.2 = .ok r) ∧
      (∃ e, parse W f = .ok (.ok e) ∧ e.name = name) ∧
      ∃ pre root post, iterSkillDirs W = pre ++ (root, f) :: post ∧
        ∀ y ∈ pre, ∀ d, parse W y.2 = .ok (.ok d) → d.name ≠ name := by
  constructor
  · rintro ⟨⟨idx, hb, e, he, rfl, rfl⟩, -⟩
    rw [(buildIndex_eq hcache).1] at hb
    obtain ⟨rs, hrs⟩ := buildFresh_ok_iff.mp ⟨idx, hb⟩
    obtain ⟨idx', hb', hs⟩ := indexSound_of_parsed hrs
    obtain rfl : idx = idx' := Except.ok.inj (hb.symm.trans hb')
    obtain ⟨pre, ⟨root, g⟩, post, hdirs, hp, hpre⟩ := (hs.first e).mp he
    obtain rfl : e.path = g := path_of_parse hp
    exact ⟨parsed_iff.mp ⟨rs, hrs⟩, ⟨e, hp, rfl⟩, pre, root, post, hdirs, hpre⟩
  · rintro ⟨hall, ⟨e, hp, rfl⟩, pre, root, post, hdirs, hpre⟩
    obtain ⟨rs, hrs⟩ := parsed_iff.mpr hall
    obtain ⟨idx, hb, hs⟩ := indexSound_of_parsed hrs
    have hbuild : (buildIndex W cache).1 = .ok idx := (buildIndex_eq hcache).1.trans hb
    have he : e ∈ idx.entries := (hs.first e).mpr ⟨pre, (root, f), post, hdirs, hp, hpre⟩
    have hpath : e.path = f := path_of_parse hp
    refine ⟨⟨idx, hbuild, e, he, hpath, rfl⟩, ?_⟩
    rw [← hpath]
    exact skillDirOf_of_mem hbuild hs.nodup he

/-- A frontmatter makes an entry of that name exactly if it shows, gives the name, and passes the
platform gate. -/
theorem parseFm_named_iff (hne : name ≠ []) (hshows : ShowsFm W f fm) :
    (∃ e, parseFm W f fm = .ok (.ok e) ∧ e.name = name) ↔
    skillName fm f.base = .ok name ∧
      ∀ plats, platforms W (asList (fm.get? "platforms".toList)) = .ok plats → plats = [] ∨
          osTag W.platform ∈ plats := by
  obtain ⟨x, hx⟩ := parseFm_ok_iff.mpr hshows
  constructor
  · rintro ⟨e, he, rfl⟩
    obtain ⟨hname, -, -⟩ := parseFm_entry he
    refine ⟨hname, fun plats hplats => ?_⟩
    obtain ⟨name, hname', h⟩ := bind_eq_ok.mp he
    obtain rfl : name = e.name := Except.ok.inj (hname'.symm.trans hname)
    rw [if_neg hne] at h
    obtain ⟨desc, -, h⟩ := bind_eq_ok.mp h
    obtain ⟨plats', hplats', h⟩ := bind_eq_ok.mp h
    obtain rfl : plats' = plats := Except.ok.inj (hplats'.symm.trans hplats)
    split_ifs at h with hgate
    · cases h
    · rw [not_and_or, not_not, not_not] at hgate
      exact hgate
  · rintro ⟨hname, hgate⟩
    cases x with
    | ok e => exact ⟨e, hx, Except.ok.inj ((parseFm_entry hx).1.symm.trans hname)⟩
    | error m =>
      obtain ⟨name', hname', h⟩ := bind_eq_ok.mp hx
      obtain rfl : name' = name := Except.ok.inj (hname'.symm.trans hname)
      rw [if_neg hne] at h
      obtain ⟨desc, -, h⟩ := bind_eq_ok.mp h
      obtain ⟨plats, hplats, h⟩ := bind_eq_ok.mp h
      rw [if_neg fun hp => (hgate plats hplats).elim hp.1 hp.2] at h
      obtain ⟨category, -, h⟩ := bind_eq_ok.mp h
      obtain ⟨trigger, -, h⟩ := bind_eq_ok.mp h
      cases h

/-! ### The flat reader -/

theorem shown_of_str {key : Text} (h : ∀ v, fm.get? key = some v → ∃ t, v = .str t) :
    Shown fm key := by
  intro v hv _
  obtain ⟨t, rfl⟩ := h v hv
  exact ⟨t, rfl⟩

theorem get?_ofFlat (flat : Dict Text Text) (key : Text) :
    (ofFlat flat).get? key = (flat.get? key).map .str :=
  Dict.get?_map _ key flat

/-- What the flat reader has found shows. -/
theorem showsFm_ofFlat (flat : Dict Text Text) : ShowsFm W f (ofFlat flat) := by
  have hstr : ∀ key v, (ofFlat flat).get? key = some v → ∃ t, v = .str t := by
    intro key v hv
    rw [get?_ofFlat] at hv
    obtain ⟨t, -, rfl⟩ := Option.map_eq_some_iff.mp hv
    exact ⟨t, rfl⟩
  refine ⟨shown_of_str (hstr _), fun _ => ⟨shown_of_str (hstr _), fun p hp => ?_, fun _ =>
    ⟨shown_of_str (hstr _), shown_of_str (hstr _)⟩⟩⟩
  cases hv : (ofFlat flat).get? "platforms".toList with
  | none =>
    rw [hv] at hp
    cases hp
  | some v =>
    obtain ⟨t, rfl⟩ := hstr _ v hv
    rw [hv] at hp
    obtain rfl : p = .str t := List.mem_singleton.mp hp
    exact ⟨t, rfl⟩

/-- **The flat reader** gives the name of the directory exactly if what it has found keeps it. -/
theorem flat_named_iff (hne : f.base ≠ []) (hstrip : strip f.base = f.base)
    (flat : Dict Text Text) :
    (∃ e, parseFm W f (ofFlat flat) = .ok (.ok e) ∧ e.name = f.base) ↔ FlatKeeps W flat f.base := by
  have hname : skillName (ofFlat flat) f.base = .ok f.base ↔
      ∀ t, flat.get? "name".toList = some t → t = [] ∨ strip t = f.base := by
    rw [skillName, strOr, get?_ofFlat]
    cases flat.get? "name".toList with
    | none => simp [hstrip]
    | some t =>
      by_cases ht : t = []
      · simp [ht, Value.truth, hstrip]
      · simp [ht, Value.truth, Value.toStr, Functor.map, Except.map]
  have hplatform :
      (∀ plats, platforms W (asList ((ofFlat flat).get? "platforms".toList)) = .ok plats →
      plats = [] ∨ osTag W.platform ∈ plats) ↔
      ∀ t, flat.get? "platforms".toList = some t →
          platformAlias (W.lower (strip t)) = osTag W.platform := by
    rw [get?_ofFlat]
    cases flat.get? "platforms".toList with
    | none => simp [asList, platforms]
    | some t =>
      have hone : platforms W (asList ((some t).map Value.str)) =
          .ok [platformAlias (W.lower (strip t))] := rfl
      rw [hone]
      simp [eq_comm]
  rw [parseFm_named_iff hne (showsFm_ofFlat flat), hname, hplatform]
  exact ⟨fun h => ⟨h.1, h.2⟩, fun h => ⟨h.name, h.platform⟩⟩

/-! ### A mapping -/

theorem ofResolved_truth (x : Yaml.Resolved) : (ofResolved x).truth = x.truth := by
  cases x <;> rfl

theorem ofResolved_toStr (x : Yaml.Resolved) : (ofResolved x).toStr = .ok x.shown := by
  cases x <;> rfl

/-- The pairs of a mapping are the fields, with values that are related to what was written. -/
def Reads (R : Text → Value → Prop) (fields : List (Text × Text)) (fm : Dict Text Value) : Prop :=
  List.Forall₂ (fun kv x => x.1 = kv.1 ∧ R kv.2 x.2) fields fm

theorem reads_strKeys {R : Text → Value → Prop} {fields : List (Text × Text)}
    {kvs : List (Value × Value)}
    (h : List.Forall₂ (fun kv x => x.1 = .str kv.1 ∧ R kv.2 x.2) fields kvs)
    (hnodup : (fields.map Prod.fst).Nodup) :
    ∃ fm, strKeys kvs [] = .ok fm ∧ Reads R fields fm := by
  have hgo : ∀ acc : Dict Text Value, (∀ kv ∈ fields, kv.1 ∉ acc.keys) →
      ∃ fm, strKeys kvs acc = .ok (acc ++ fm) ∧ Reads R fields fm := by
    induction h with
    | nil => exact fun acc _ => ⟨[], by simp [strKeys], .nil⟩
    | @cons kv x fields kvs hx _ ih =>
      intro acc hacc
      obtain ⟨k, v⟩ := x
      obtain ⟨rfl, hv⟩ := hx
      rw [List.map_cons, List.nodup_cons] at hnodup
      have hnew : kv.1 ∉ acc.keys := hacc kv (List.mem_cons_self ..)
      obtain ⟨fm, hfm, hreads⟩ := ih hnodup.2 (acc ++ [(kv.1, v)]) fun kv' hkv' hmem => by
        rw [Dict.keys, List.map_append, List.mem_append] at hmem
        rcases hmem with hmem | hmem
        · exact hacc kv' (List.mem_cons_of_mem _ hkv') hmem
        · rw [List.map_singleton, List.mem_singleton] at hmem
          exact hnodup.1 (hmem ▸ List.mem_map_of_mem hkv')
      refine ⟨(kv.1, v) :: fm, bind_eq_ok.mpr ⟨kv.1, rfl, ?_⟩, .cons ⟨rfl, hv⟩ hreads⟩
      rw [Dict.set_of_not_mem _ hnew, hfm, List.append_assoc, List.singleton_append]
  exact hgo [] fun _ _ => List.not_mem_nil

/-- The value of a key is related to what was written for it. -/
theorem Reads.get? {R : Text → Value → Prop} {fields : List (Text × Text)} (h : Reads R fields fm)
    (key : Text) :
    (Dict.get? key fields = none ∧ fm.get? key = none) ∨
      ∃ written v, Dict.get? key fields = some written ∧ fm.get? key = some v ∧ R written v := by
  induction h with
  | nil => exact Or.inl ⟨rfl, rfl⟩
  | @cons kv x fields fm hx _ ih =>
    obtain ⟨k, written⟩ := kv
    obtain ⟨k', v⟩ := x
    obtain ⟨rfl, hv⟩ : k' = k ∧ R written v := hx
    by_cases hk : k' = key
    · exact Or.inr ⟨written, v, by simp [Dict.get?, hk], by simp [Dict.get?, hk], hv⟩
    · simpa [Dict.get?, hk] using ih

/-- A string of letters, digits and hyphens that is resolved is shown without blanks. -/
theorem strip_or {t : Text} {x : Yaml.Resolved} (hstrip : strip t = t)
    (h : Yaml.resolve t = some x) : strip (x.or t) = x.or t := by
  rcases Yaml.Resolved.or_cases h with heq | heq | ⟨n, heq⟩
  · rw [heq, hstrip]
  · rw [heq]
    decide
  · rw [heq]
    refine stripped_of_noSpace fun c hc => ?_
    have hdigit := Nat.isDigit_of_mem_toDigits (by decide) (le_refl 10) hc
    refine (isHex_not_space ?_).1
    simp only [Char.isDigit, Bool.and_eq_true, decide_eq_true_eq, UInt32.le_iff_toNat_le] at hdigit
    simp only [isHex, Bool.or_eq_true, Bool.and_eq_true, decide_eq_true_eq]
    exact Or.inl hdigit

/-- **A mapping** gives the name of the directory exactly if the name keeps. -/
theorem mapped_named_iff (hdir : f.base = r.name) (hslug : SlugText r.name) (hne : r.name ≠ [])
    (hhead : r.name.head? ≠ some '-') (h : Reads Scalar11 (r.header env) fm) :
    ShowsFm W f fm ∧
        ((∃ e, parseFm W f fm = .ok (.ok e) ∧ e.name = r.name) ↔ Yaml.Keeps r.name) := by
  have hstr : ∀ key t, Dict.get? key (r.header env) = some (yamlScalar t) →
      ∀ v, fm.get? key = some v → ∃ u, v = .str u := by
    intro key t hkey v hv
    rcases h.get? key with ⟨hnone, -⟩ | ⟨written, v', hwritten, hv', hscalar⟩
    · rw [hkey] at hnone
      cases hnone
    · rw [hkey, Option.some.injEq] at hwritten
      rw [hv, Option.some.injEq] at hv'
      exact hv' ▸ hscalar.quoted t hwritten.symm
  have hplatforms : fm.get? "platforms".toList = none := by
    rcases h.get? "platforms".toList with ⟨-, hnone⟩ | ⟨written, v, hwritten, -⟩
    · exact hnone
    · cases hwritten
  obtain ⟨x, hresolve, hname⟩ : ∃ x, Yaml.resolve r.name = some x ∧
      fm.get? "name".toList = some (ofResolved x) := by
    rcases h.get? "name".toList with ⟨hnone, -⟩ | ⟨written, v, hwritten, hv, hscalar⟩
    · cases hnone
    · obtain rfl : r.name = written := Option.some.inj hwritten
      obtain ⟨x, hx, rfl⟩ := hscalar.plain hslug hne hhead
      exact ⟨x, hx, hv⟩
  have hshows : ShowsFm W f fm := by
    refine ⟨fun v hv _ => ?_, fun _ => ⟨shown_of_str (hstr _ r.desc rfl), fun p hp => ?_, fun _ =>
      ⟨shown_of_str (hstr _ r.category rfl), shown_of_str (hstr _ r.trigger rfl)⟩⟩⟩
    · rw [hname, Option.some.injEq] at hv
      exact ⟨x.shown, hv ▸ ofResolved_toStr x⟩
    · rw [hplatforms] at hp
      cases hp
  have hstrip : strip r.name = r.name := stripped_of_noSpace hslug.noSpace
  have hskill : skillName fm f.base = .ok (x.or r.name) := by
    rw [skillName, strOr, hname, hdir, ← strip_or hstrip hresolve]
    simp only [ofResolved_truth, ofResolved_toStr, Yaml.Resolved.or]
    split_ifs <;> rfl
  refine ⟨hshows, ?_⟩
  rw [parseFm_named_iff hne hshows, hskill, Except.ok.injEq, Yaml.Resolved.or_eq_iff hne hresolve]
  exact and_iff_left fun plats hplats => by
    rw [hplatforms] at hplats
    exact Or.inl (Except.ok.inj hplats).symm

/-! ### The file -/

/-- A name that is accepted starts with a letter or a digit. -/
theorem exists_name_head (h : Writer.Accepted env a r) :
    ∃ c t, r.name = c :: t ∧ isSlug c = true := by
  have hre : slugPattern 1 48 r.name = true := (h.name_slug.matchDollar_eq _).symm.trans h.nameRe
  cases hname : r.name with
  | nil =>
    rw [hname] at hre
    cases hre
  | cons c t =>
    rw [hname] at hre
    simp only [slugPattern, Bool.and_eq_true] at hre
    exact ⟨c, t, rfl, hre.1.1.1⟩

theorem name_ne (h : Writer.Accepted env a r) : r.name ≠ [] := by
  obtain ⟨c, t, heq, -⟩ := exists_name_head h
  rw [heq]
  exact List.cons_ne_nil _ _

theorem name_head (h : Writer.Accepted env a r) : r.name.head? ≠ some '-' := by
  obtain ⟨c, t, heq, hc⟩ := exists_name_head h
  rw [heq, List.head?_cons, ne_eq, Option.some.injEq]
  rintro rfl
  exact absurd hc (by decide)

/-- A text above the cap is parsed to a reason. -/
theorem parse_of_size (hw : Wrote W env r f)
    (hsize : ¬ utf8Length (r.rendered env) ≤ maxFileBytes) :
    ∃ m, parse W f = .ok (.error m) := by
  obtain ⟨st, hst⟩ := Option.ne_none_iff_exists'.mp hw.stat
  have hread : ∃ m, readTextCapped (W.file f.path) = .error (.valueError m) := by
    rw [hw.file, readTextCapped, if_pos (by omega)]
    exact ⟨_, rfl⟩
  obtain ⟨m, hread⟩ := hread
  refine ⟨m, ?_⟩
  simp only [parse, hst, parseFresh, hread]

/-- Below the cap, it is parsed to what its frontmatter gives. -/
theorem parse_of_split (hw : Wrote W env r f) (hsize : utf8Length (r.rendered env) ≤ maxFileBytes)
    {body : Text} {status : Option Text}
    (hsplit : splitFrontmatterEx W.yaml (r.rendered env) = .ok (fm, body, status)) :
    parse W f = parseFm W f fm := by
  obtain ⟨st, hst⟩ := Option.ne_none_iff_exists'.mp hw.stat
  have hread : readTextCapped (W.file f.path) = .ok (r.rendered env) := by
    rw [hw.file, readTextCapped, if_neg (by omega)]
  simp only [parse, hst, parseFresh, hread, hsplit]
  rfl

/-! ### The lines of the block -/

/-- The lines of fields. -/
def fieldLines (kvs : List (Text × Text)) : List Text := kvs.map fun kv => field kv.1 kv.2

theorem headerKeys_dash : ∀ k ∈ headerKeys, k.head? ≠ some '-' := by decide

theorem blockLine_header {kv : Text × Text} (hkey : kv.1 ∈ headerKeys) (hv : OneLine kv.2) :
    BlockLine (field kv.1 kv.2) :=
  blockLine_field (headerKeys_plain _ hkey) (headerKeys_line _ hkey).1 (headerKeys_dash _ hkey) hv

/-- The written creator id, with the name of its field before it, is cut into lines like the creator
id. -/
theorem splitlines_source (r : Request) (t : Text) : ∃ first, OneLine first ∧
    splitlines (field "created_by".toList (yamlScalar r.source) ++ '\n' :: t) =
      field "created_by".toList first ::
          ((splitlines (yamlScalar r.source)).tail ++ splitlines t) := by
  have hkey : OneLine ("created_by".toList ++ [':', ' ']) := by decide
  have hne : yamlScalar r.source ≠ [] := List.cons_ne_nil _ _
  obtain ⟨first, others, hlines⟩ := List.exists_cons_of_ne_nil (splitlines_ne_nil hne)
  have hfield : field "created_by".toList (yamlScalar r.source) =
      ("created_by".toList ++ [':', ' ']) ++ yamlScalar r.source := by
    simp [field]
  have hlast : ∃ u, field "created_by".toList (yamlScalar r.source) = u ++ ['\''] :=
    ⟨field "created_by".toList ('\'' :: doubleQuotes (flatten r.source)), by simp [field,
      yamlScalar]⟩
  obtain ⟨u, hu⟩ := hlast
  refine ⟨first, oneLine_of_mem_splitlines (hlines ▸ List.mem_cons_self ..), ?_⟩
  rw [splitlines_append_cons_newline, hu, splitlines_concat_newline (by decide), ← hu, hfield,
    splitlines_append_of_oneLine hkey hne, hlines]
  simp [field]

/-- The fields before the creator id, and those behind it, have a line each. -/
theorem blockLine_fieldLines (h : Writer.Accepted env a r) :
    (∀ l ∈ fieldLines ((r.header env).take 6), BlockLine l) ∧
        ∀ l ∈ fieldLines ((r.header env).drop 7), BlockLine l := by
  have hfield : ∀ kv ∈ r.header env, kv.1 ≠ "created_by".toList →
      BlockLine (field kv.1 kv.2) := fun kv hkv hne =>
    blockLine_header (header_key_mem hkv) (h.header_oneLine kv hkv hne)
  have hkeys : ∀ k ∈ headerKeys.take 6 ++ headerKeys.drop 7, k ≠ "created_by".toList := by decide
  constructor
  · intro l hl
    obtain ⟨kv, hkv, rfl⟩ := List.mem_map.mp hl
    exact hfield kv (List.mem_of_mem_take hkv)
      (hkeys _ (List.mem_append_left _ (List.mem_map_of_mem hkv)))
  · intro l hl
    obtain ⟨kv, hkv, rfl⟩ := List.mem_map.mp hl
    exact hfield kv (List.mem_of_mem_drop hkv)
      (hkeys _ (List.mem_append_right _ (List.mem_map_of_mem hkv)))

/-- The lines behind the first fence. -/
theorem tail_splitlines_rendered (h : Writer.Accepted env a r) : ∃ first : Text, OneLine first ∧
    (splitlines (r.rendered env)).tail = fieldLines ((r.header env).take 6) ++
      (field "created_by".toList first ::
      ((splitlines (yamlScalar r.source)).tail ++ (fieldLines ((r.header env).drop 7) ++
        fence :: splitlines (rstrip r.fullBody ++ ['\n'])))) := by
  obtain ⟨hbefore, hafter⟩ := blockLine_fieldLines h
  have hf : OneLine fence := by decide
  have hlines : unlines (r.lines env) = unlines (fieldLines ((r.header env).take 6)) ++
      (field "created_by".toList (yamlScalar r.source) ++ '\n' ::
          unlines (fieldLines ((r.header env).drop 7))) := by
    rw [← unlines_cons, ← unlines_append]
    rfl
  obtain ⟨first, hfirst, hsource⟩ := splitlines_source r
    (unlines (fieldLines ((r.header env).drop 7)) ++
      (fence ++ '\n' :: (rstrip r.fullBody ++ ['\n'])))
  refine ⟨first, hfirst, ?_⟩
  rw [Request.rendered_eq, splitlines_append_newline hf, List.tail_cons, hlines, List.append_assoc,
    List.append_assoc, List.cons_append, splitlines_unlines_append fun l hl => (hbefore l hl).1,
    hsource, splitlines_unlines_append fun l hl => (hafter l hl).1, splitlines_append_newline hf]

/-- **The block** is made of fields, up to the first line of the creator id, of its other lines, and
of further fields. -/
theorem exists_block (h : Writer.Accepted env a r) :
    ∃ (first : Text) (fields : List (Text × Text)) (rest : List Text),
    (∀ kv ∈ fields, kv.1 ∈ headerKeys.tail) ∧
    blockLines (r.rendered env) = some
      (fieldLines ((r.header env).take 6 ++ [("created_by".toList, first)]) ++
      (sourceLines r ++ fieldLines fields), rest) := by
  obtain ⟨hbefore, hafter⟩ := blockLine_fieldLines h
  obtain ⟨first, hfirst, htext⟩ := tail_splitlines_rendered h
  have hkey : "created_by".toList ∈ headerKeys := by decide
  have hfirstLine : BlockLine (field "created_by".toList first) :=
    blockLine_field (headerKeys_plain _ hkey) (headerKeys_line _ hkey).1
      (headerKeys_dash _ hkey) hfirst
  have hfence : ∃ l ∈ (splitlines (r.rendered env)).tail, strip l = fence :=
    ⟨fence, by rw [htext]; simp, by decide⟩
  obtain ⟨rest, hclose⟩ := closeAt_eq hfence
  have hsome : ∀ ls : List Text, (∀ l ∈ ls, BlockLine l) →
      ∀ l ∈ ls, decide (strip l ≠ fence) = true := fun ls hls l hl =>
    decide_eq_true (hls l hl).2
  rw [blockLines, hclose, htext, List.takeWhile_append_of_pos (hsome _ hbefore),
    List.takeWhile_cons, if_pos (decide_eq_true hfirstLine.2), List.takeWhile_append, ← sourceLines]
  have hbefore_eq : fieldLines ((r.header env).take 6 ++ [("created_by".toList, first)]) =
      fieldLines ((r.header env).take 6) ++ [field "created_by".toList first] := by
    rw [fieldLines, List.map_append]
    rfl
  by_cases hall : (sourceLines r).length = (splitlines (yamlScalar r.source)).tail.length
  · -- The creator id has no fence among its lines: the block goes on to the closing one.
    have heq : sourceLines r = (splitlines (yamlScalar r.source)).tail :=
      (List.takeWhile_prefix _).eq_of_length hall
    refine ⟨first, (r.header env).drop 7, rest, ?_, ?_⟩
    · exact fun kv hkv => (by decide : ∀ k ∈ headerKeys.drop 7, k ∈ headerKeys.tail) _
        (List.mem_map_of_mem hkv)
    · rw [if_pos hall, List.takeWhile_append_of_pos (hsome _ hafter), List.takeWhile_cons,
        if_neg (by decide), hbefore_eq, heq]
      simp
  · refine ⟨first, [], rest, fun kv hkv => absurd hkv List.not_mem_nil, ?_⟩
    rw [if_neg hall, hbefore_eq]
    simp [fieldLines]

/-- **What the flat reader finds** of the other keys in the block: what the lines of the creator id
give goes before the name that was written. -/
theorem get?_flatFallback (h : Writer.Accepted env a r) {lines rest : List Text}
    (hblock : blockLines (r.rendered env) = some (lines, rest))
    {key : Text} (hkey : key ∉ headerKeys.tail) : (flatFallback (join ['\n'] lines)).get? key =
      (((sourceLines r).foldl fallbackLine []).get? key).or
          (Dict.get? key [("name".toList, r.name)]) := by
  obtain ⟨first, fields, rest', hfields, hblock'⟩ := exists_block h
  rw [hblock, Option.some.injEq, Prod.mk.injEq] at hblock'
  obtain ⟨rfl, -⟩ := hblock'
  obtain ⟨close, hlines, -, -⟩ := closeAt_spec hblock
  have hone : ∀ l ∈ fieldLines ((r.header env).take 6 ++ [("created_by".toList, first)]) ++ (sourceLines r ++ fieldLines fields),
      OneLine l := fun l hl =>
        oneLine_of_mem_splitlines (List.mem_of_mem_tail (hlines ▸ List.mem_append_left _ hl))
  have hname : fallbackLine [] (field "name".toList r.name) = [("name".toList, r.name)] := by
    have hset : fallbackLine [] (field "name".toList r.name) =
        Dict.set "name".toList (unquote (strip r.name)) [] :=
      readLine_field (headerKeys_plain _ (by decide)) [] r.name
    rw [hset, stripped_of_noSpace h.name_slug.noSpace, h.name_slug.unquote_eq]
    rfl
  have hothers : ∀ kvs : List (Text × Text), (∀ kv ∈ kvs, kv.1 ∈ headerKeys.tail) → ∀ fm,
      ((fieldLines kvs).foldl fallbackLine fm).get? key = fm.get? key := fun kvs hkvs fm =>
    get?_foldl_fields (fun kv hkv => headerKeys_plain _ (List.mem_of_mem_tail (hkvs kv hkv)))
      (fun hmem => by
        obtain ⟨kv, hkv, rfl⟩ := List.mem_map.mp hmem
        exact hkey (hkvs kv hkv)) fm
  have hbefore :
      ((fieldLines ((r.header env).take 6 ++ [("created_by".toList, first)])).foldl fallbackLine
      []).get? key =
      Dict.get? key [("name".toList, r.name)] := by
    have hcons : (r.header env).take 6 ++ [("created_by".toList, first)] =
        ("name".toList, r.name) ::
          (((r.header env).take 6).tail ++ [("created_by".toList, first)]) := rfl
    rw [hcons, fieldLines, List.map_cons, List.foldl_cons, hname]
    refine hothers _ (fun kv hkv => ?_) _
    have hkeys : ∀ k ∈ (headerKeys.take 6).tail ++ ["created_by".toList],
        k ∈ headerKeys.tail := by decide
    refine hkeys _ ?_
    rw [List.mem_append, List.mem_singleton] at hkv
    rcases hkv with hkv | rfl
    · exact List.mem_append_left _ (List.mem_map_of_mem hkv)
    · exact List.mem_append_right _ (List.mem_singleton.mpr rfl)
  rw [flatFallback_join hone, List.foldl_append, List.foldl_append, hothers _ hfields,
    get?_foldl_fallbackLine, hbefore]

/-- It keeps the name exactly if the lines of the creator id do. -/
theorem flatKeeps_block_iff (h : Writer.Accepted env a r) {lines rest : List Text}
    (hblock : blockLines (r.rendered env) = some (lines, rest)) :
    FlatKeeps W (flatFallback (join ['\n'] lines)) r.name ↔
        FlatKeeps W ((sourceLines r).foldl fallbackLine []) r.name := by
  have hstrip : strip r.name = r.name := stripped_of_noSpace h.name_slug.noSpace
  have hname : (flatFallback (join ['\n'] lines)).get? "name".toList =
      (((sourceLines r).foldl fallbackLine []).get? "name".toList).or (some r.name) :=
        get?_flatFallback h hblock (by decide)
  have hplatform : (flatFallback (join ['\n'] lines)).get? "platforms".toList =
      (((sourceLines r).foldl fallbackLine []).get? "platforms".toList).or none :=
        get?_flatFallback h hblock (by decide)
  rw [Option.or_none] at hplatform
  constructor
  · intro hk
    refine ⟨fun t ht => hk.name t ?_, hplatform ▸ hk.platform⟩
    rw [hname, ht, Option.some_or]
  · intro hk
    refine ⟨fun t ht => ?_, hplatform ▸ hk.platform⟩
    rw [hname, Option.or_eq_some_iff] at ht
    rcases ht with ht | ⟨-, ht⟩
    · exact hk.name t ht
    · obtain rfl : r.name = t := Option.some.inj ht
      exact Or.inr hstrip

/-- A creator id on one line keeps it. -/
theorem flatKeeps_of_oneLine (hs : OneLine (flatten r.source)) :
    FlatKeeps W ((sourceLines r).foldl fallbackLine []) r.name := by
  have hnil : sourceLines r = [] := by
    rw [sourceLines, splitlines_oneLine ((oneLine_yamlScalar_iff _).mpr hs) (List.cons_ne_nil _ _)]
    rfl
  rw [hnil]
  exact ⟨fun t ht => absurd ht (by simp [Dict.get?]), fun t ht => absurd ht (by simp [Dict.get?])⟩

/-- What the server reads of the text: the flat fallback where PyYAML does not take the block, else
the mapping. -/
theorem exists_frontmatter (h : Writer.Accepted env a r) (hw : Wrote W env r f) :
    ∃ lines rest fm body status, blockLines (r.rendered env) = some (lines, rest) ∧
      splitFrontmatterEx W.yaml (r.rendered env) = .ok (fm, body, status) ∧
      ((Takes W (join ['\n'] lines) ∧ Reads Scalar11 (r.header env) fm) ∨
        (¬ Takes W (join ['\n'] lines) ∧ fm = ofFlat (flatFallback (join ['\n'] lines)))) := by
  have hp : fence.isPrefixOf (r.rendered env) = true := by
    rw [Request.rendered_eq]
    exact List.isPrefixOf_iff_prefix.mpr (List.prefix_append _ _)
  obtain ⟨lines, rest, hblock⟩ : ∃ lines rest, blockLines (r.rendered env) =
      some (lines, rest) := by
    obtain ⟨_, _, rest, -, hblock⟩ := exists_block h
    exact ⟨_, rest, hblock⟩
  refine ⟨lines, rest, ?_⟩
  simp only [splitFrontmatterEx, if_neg (not_not.mpr hp), hblock]
  cases hyaml : W.yaml with
  | none =>
    refine ⟨_, _, _, trivial, rfl, Or.inr ⟨?_, rfl⟩⟩
    rintro ⟨load, _, hload, -⟩
    rw [hyaml] at hload
    cases hload
  | some load =>
    have hrules := hw.yaml load lines rest hyaml hblock
    simp only
    cases hload : load (join ['\n'] lines) with
    | error e =>
      obtain ⟨l, ls, hl⟩ := List.exists_cons_of_ne_nil (hrules.message e hload)
      simp only [hl]
      refine ⟨_, _, _, trivial, rfl, Or.inr ⟨?_, rfl⟩⟩
      rintro ⟨load', v, hload', hv⟩
      rw [hyaml, Option.some.injEq] at hload'
      rw [← hload', hload] at hv
      cases hv
    | ok v =>
      obtain ⟨kvs, shown, rfl, hkvs⟩ := hrules.mapping v hload
      obtain ⟨fm, hfm, hreads⟩ := reads_strKeys hkvs (header_keys env r ▸ headerKeys_nodup)
      exact ⟨fm, _, none, trivial, bind_eq_ok.mpr ⟨fm, hfm, rfl⟩,
        Or.inl ⟨⟨load, _, hyaml, hload⟩, hreads⟩⟩

/-- **The file that was written** is parsed, and to its name exactly if it can be read and gives the
name back. -/
theorem parse_written_iff (h : Writer.Accepted env a r) (hw : Wrote W env r f) :
    (∃ x, parse W f = .ok x) ∧
      ((∃ e, parse W f = .ok (.ok e) ∧ e.name = r.name) ↔
          utf8Length (r.rendered env) ≤ maxFileBytes ∧ Named W env r) := by
  by_cases hsize : utf8Length (r.rendered env) ≤ maxFileBytes
  · obtain ⟨lines, rest, fm, body, status, hblock, hsplit, hcases⟩ := exists_frontmatter h hw
    rw [parse_of_split hw hsize hsplit, and_iff_right hsize]
    have hslug := h.name_slug
    have hne : r.name ≠ [] := name_ne h
    have hnamed : Named W env r ↔ (Takes W (join ['\n'] lines) → Yaml.Keeps r.name) ∧
        (¬ Takes W (join ['\n'] lines) →
            FlatKeeps W ((sourceLines r).foldl fallbackLine []) r.name) := by
      constructor
      · exact fun hn => hn lines rest hblock
      · intro hn lines' rest' hblock'
        rw [hblock, Option.some.injEq, Prod.mk.injEq] at hblock'
        exact hblock'.1 ▸ hn
    rcases hcases with ⟨htakes, hreads⟩ | ⟨htakes, rfl⟩
    · obtain ⟨hshows, hiff⟩ := mapped_named_iff (W := W) hw.dir hslug hne (name_head h) hreads
      rw [hnamed, hiff]
      exact ⟨parseFm_ok_iff.mpr hshows, fun hk => ⟨fun _ => hk, fun hno => absurd htakes hno⟩,
        fun hn => hn.1 htakes⟩
    · have hbase : f.base ≠ [] := hw.dir ▸ hne
      have hstrip : strip f.base = f.base := hw.dir ▸ stripped_of_noSpace hslug.noSpace
      rw [hnamed, ← flatKeeps_block_iff h hblock, ← hw.dir, flat_named_iff hbase hstrip]
      exact ⟨parseFm_ok_iff.mpr (showsFm_ofFlat _),
        fun hk => ⟨fun hyes => absurd hyes htakes, fun _ => hk⟩, fun hn => hn.2 htakes⟩
  · obtain ⟨m, hm⟩ := parse_of_size hw hsize
    refine ⟨⟨_, hm⟩, iff_of_false ?_ fun hc => hsize hc.1⟩
    rintro ⟨e, he, -⟩
    rw [hm] at he
    cases he

/-- A skill that `create` has written is listed under its name exactly if it is not disputed. -/
theorem written_iff (h : Writer.Accepted env a r) (hw : Wrote W env r f)
    (hcache : CacheOk W cache) :
    Listed W cache f r.name ↔ Undisputed W env r f := by
  obtain ⟨hparsed, hname⟩ := parse_written_iff h hw
  rw [listed_iff hcache, hname]
  constructor
  · rintro ⟨hall, ⟨hsize, hnamed⟩, hfirst⟩
    exact ⟨hsize, hnamed, fun x hx _ => parse_ok_iff.mp (hall x hx), hfirst⟩
  · intro hu
    refine ⟨fun x hx => ?_, ⟨hu.size, hu.named⟩, hu.first⟩
    by_cases hxf : x.2 = f
    · exact hxf ▸ hparsed
    · exact parse_ok_iff.mpr (hu.others x hx hxf)

end

/-- **The name a skill is written under**: for every request that `create` accepts, the server lists
the file that was written under its name if and only if it can be read, its frontmatter gives the
name back, and no other file disputes it. -/
theorem written_listed_iff (W : World) (cache : Cache) (env : Env) (a : Args) (r : Request)
    (f : SkillMd) (h : prepare env a = .ok r) (hw : Wrote W env r f) (hcache : CacheOk W cache) :
    Listed W cache f r.name ↔ Undisputed W env r f :=
  written_iff (accepted_of_prepare h) hw hcache

/-! ### Names that are none -/

/-- `create --name <name> --desc x --source bob --body b`, repaired. -/
def namedRequest (name : Text) : Request := ⟨name, "x".toList, [], "bob".toList, [], "b".toList, []⟩

/-- What PyYAML reads of it, with `v` for the name. -/
def namedBlock (v : Value) : List (Value × Value) :=
  [(.str "name".toList, v), (.str "description".toList, .str "x".toList),
    (.str "installer".toList, .str "auto-skill".toList),
    (.str "created_at".toList, .obj true "datetime".toList
      (.ok "2026-08-20 00:00:00+07:00".toList)), (.str "created_session".toList,
    .str "0a1b2c3d".toList), (.str "trigger".toList, .str []), (.str "created_by".toList,
    .str "bob".toList), (.str "category".toList, .str []), (.str "content_hash".toList,
    .str digestB.text)]

/-- The directory of a name that is a boolean. -/
def yesSkill : SkillMd := ⟨"skills".toList, "yes".toList, by decide, by decide⟩

/-- The directory of a name that is an integer. -/
def octalSkill : SkillMd := ⟨"skills".toList, "012".toList, by decide, by decide⟩

/-- There is nothing there but the file that was written, for which PyYAML gives `v`. -/
def oneWorld (f : SkillMd) (v : Value) : World where
  roots := ["skills".toList]
  glob _ := [f]
  stat _ := some (0, 0)
  file _ := some (utf8Length ((namedRequest f.base).rendered sampleEnv),
    (namedRequest f.base).rendered sampleEnv)
  yaml := some fun _ => .ok (.dict (namedBlock v) (.ok []))
  lower := asciiLower
  repr t := '\'' :: t ++ ['\'']
  platform := "linux".toList

theorem namedBlock_reads {name : Text} {v : Value} (hhead : name.head? ≠ some '\'')
    (hv : SlugText name → ∃ x, Yaml.resolve name = some x ∧ v = ofResolved x) :
    List.Forall₂ (fun kv x => x.1 = Value.str kv.1 ∧ Scalar11 kv.2 x.2)
        ((namedRequest name).header sampleEnv) (namedBlock v) := by
  have hquoted : ∀ t u, Scalar11 (yamlScalar t) (.str u) := fun t u =>
    ⟨fun _ _ => ⟨u, rfl⟩, fun hslug => absurd (hslug '\'' (List.mem_cons_self ..)) (by decide)⟩
  have hplain : ∀ t, Yaml.resolve t = some (.str t) → Scalar11 t (.str t) := fun t ht =>
    ⟨fun _ _ => ⟨t, rfl⟩, fun _ _ _ => ⟨_, ht, rfl⟩⟩
  have hname : Scalar11 name v := by
    refine ⟨fun t ht => ?_, fun hslug _ _ => hv hslug⟩
    rw [ht] at hhead
    exact absurd rfl hhead
  have htime : Scalar11 sampleEnv.now.text
      (.obj true "datetime".toList (.ok "2026-08-20 00:00:00+07:00".toList)) := by
    refine ⟨fun t ht => ?_, fun hslug => absurd (hslug ':' (by decide)) (by decide)⟩
    have hquote : sampleEnv.now.text.head? = some '\'' := ht ▸ rfl
    exact absurd hquote (by decide)
  have hhash : Yaml.resolve digestB.text = some (.str digestB.text) := rfl
  exact .cons ⟨rfl, hname⟩ (.cons ⟨rfl, hquoted _ _⟩ (.cons ⟨rfl, hplain _ rfl⟩ (.cons ⟨rfl, htime⟩
    (.cons ⟨rfl, hplain _ rfl⟩
      (.cons ⟨rfl, hquoted _ _⟩ (.cons ⟨rfl, hquoted _ _⟩ (.cons ⟨rfl, hquoted _ _⟩
      (.cons ⟨rfl, hplain _ hhash⟩ .nil))))))))

/-- The file in the only directory is what `create` has written. -/
theorem oneWorld_wrote {f : SkillMd} {v : Value} (hhead : f.base.head? ≠ some '\'')
    (hv : SlugText f.base → ∃ x, Yaml.resolve f.base = some x ∧ v = ofResolved x) :
    Wrote (oneWorld f v) sampleEnv (namedRequest f.base) f where
  dir := rfl
  stat := Option.some_ne_none _
  file := rfl
  yaml := by
    intro load lines rest hload _
    obtain rfl := Option.some.inj hload
    refine ⟨fun e he => ?_, fun v' hv' => ?_⟩
    · cases he
    · cases hv'
      exact ⟨_, _, rfl, namedBlock_reads hhead hv⟩

/-- `012` is accepted, and PyYAML reads ten. -/
theorem written_listed_sample :
    Listed (oneWorld octalSkill (ofResolved (.int 10))) [] octalSkill octalSkill.base ↔
    Undisputed (oneWorld octalSkill (ofResolved (.int 10))) sampleEnv
        (namedRequest octalSkill.base) octalSkill :=
  written_listed_iff _ _ sampleEnv
    { name := "012".toList, desc := "x".toList, body := "b".toList, source := "bob".toList } _ _ rfl
    (oneWorld_wrote (by decide) fun _ => ⟨.int 10, rfl, rfl⟩) cacheOk_nil

/-- `yes` is accepted, and the only skill there is is not listed under it. -/
theorem yes_not_listed : ¬ ∀ (W : World) (cache : Cache) (env : Env) (a : Args) (r : Request)
    (f : SkillMd) (root : Text),
    prepare env a = .ok r → Wrote W env r f → CacheOk W cache → iterSkillDirs W = [(root, f)] →
      utf8Length (r.rendered env) ≤ maxFileBytes → Listed W cache f r.name := by
  intro hall
  have hp : prepare sampleEnv { name := "yes".toList, desc := "x".toList, body := "b".toList, source := "bob".toList } =
      .ok (namedRequest yesSkill.base) := rfl
  have hw : Wrote (oneWorld yesSkill (ofResolved (.bool true))) sampleEnv (namedRequest yesSkill.base) yesSkill :=
    oneWorld_wrote (by decide) fun _ => ⟨.bool true, rfl, rfl⟩
  have hsize : utf8Length ((namedRequest yesSkill.base).rendered sampleEnv) ≤ maxFileBytes := by decide +kernel
  have hu := (written_iff (accepted_of_prepare hp) hw cacheOk_nil).mp
    (hall _ _ _ _ _ _ "skills".toList hp hw cacheOk_nil (by simp [iterSkillDirs, oneWorld]) hsize)
  obtain ⟨_, _, _, -, hblock⟩ := exists_block (accepted_of_prepare hp)
  have hkeeps := (hu.named _ _ hblock).1 ⟨_, _, rfl, rfl⟩
  exact hkeeps.bool (by decide)

end OracleSkills.Server
