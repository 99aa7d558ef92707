import Mathlib.Data.List.Dedup
import OracleSkills.Server.SafeJoin

/-!
# What `skill_view` lists, and what it reads

The answer for a skill has `linked_files`, and a hint: "To read a linked file, call skill_view(name,
file_path)". The list is made by `os.walk`, which goes through the directories below the skill's and
takes what is no directory, a link to anything else included; a `file_path` goes through `strip`,
`_safe_join` and a size cap.

`linked_exact` compares the two. A listed file is read exactly if its path has no blanks at its ends
and what `os.path.realpath` makes of it is a regular file below the place of the skill, within the
cap: each regular file with such a path, and of the links those that stay inside. The other way
round, whatever a call reads is a file of the list, or the `SKILL.md` itself.
-/

namespace OracleSkills.Server

open Python Frontmatter Links

/-! ### The list -/

/-- `os.path.relpath(path, start)`, of absolute paths. -/
def relpath (path start : Text) : Text :=
  let startList := components start
  let pathList := components path
  let i := (commonPrefix startList pathList).length
  let relList := List.replicate (startList.length - i) ['.', '.'] ++ pathList.drop i
  if relList = [] then ['.'] else join ['/'] relList

namespace Disk

/-- `entry.is_dir()`, also of a link to a directory. -/
def isdir (D : Disk) (path : Text) : Bool :=
  match (D.resolve path).bind D.fs.node with
  | some .dir => true
  | _ => false

/-- The paths `os.path.join(root, fn)` of the files that `os.walk(top)` comes to: what is below the
place of `top`, each in a directory, and is not a directory or a link to one. -/
def walkFiles (D : Disk) (top : Text) : List Text :=
  match D.resolve top with
  | none => []
  | some place =>
    (D.fs.entries.keys.dedup.filter fun q =>
        place.isPrefixOf q && q ≠ place && !D.isdir (pathOf q)).map fun q =>
      joinPath top (join ['/'] (q.drop place.length))

/-- The files have names, without a null character. -/
def Named (D : Disk) : Prop := ∀ q ∈ D.fs.entries.keys, ∀ c ∈ q, IsName c ∧ '\x00' ∉ c

/-- The path leads to a directory, at `root`. -/
structure At (D : Disk) (dir : Text) (root : Loc) : Prop where
  resolves : D.resolve dir = some root
  isDir : D.fs.node root = some .dir
  noNull : '\x00' ∉ dir

end Disk

/-- `_linked_files`. -/
def linkedFiles (D : Disk) (skillDir : Text) : Except Raised (List Text) := do
  let realRoot ← D.realpath skillDir
  .ok ((((D.walkFiles realRoot).map fun path => relpath path realRoot).filter
    (· ≠ "SKILL.md".toList)).mergeSort leText)

/-- The place that `os.path.realpath` gives for a path below the root. -/
def placeOf (D : Disk) (root : Loc) (rel : Text) : Loc :=
  D.fs.realpath D.cwd (pathOf (root ++ parts rel))

/-! ### Paths of places -/

section

variable {p q : Loc} {c : Text}

theorem join_append (hp : p ≠ []) (hq : q ≠ []) :
    join ['/'] (p ++ q) = join ['/'] p ++ '/' :: join ['/'] q := by
  induction p with
  | nil => exact absurd rfl hp
  | cons d p ih =>
    cases p with
    | nil =>
      obtain ⟨e, es, rfl⟩ := List.exists_cons_of_ne_nil hq
      rw [List.singleton_append, join_cons_cons]
      simp [join]
    | cons e p =>
      rw [List.cons_append, List.cons_append, join_cons_cons, ← List.cons_append, ih (by simp),
        join_cons_cons]
      simp

theorem isabs_join (hq : q ≠ []) (hnames : ∀ d ∈ q, IsName d) : isabs (join ['/'] q) = false := by
  obtain ⟨d, ds, rfl⟩ := List.exists_cons_of_ne_nil hq
  have hd : IsName d := hnames d (List.mem_cons_self ..)
  obtain ⟨x, xs, rfl⟩ := List.exists_cons_of_ne_nil hd.ne_nil
  have hx : x ≠ '/' := fun h => hd.noSlash (h ▸ List.mem_cons_self ..)
  have hhead : ∀ t, isabs (x :: t) = false := fun t => by simp [isabs, List.isPrefixOf, hx.symm]
  cases ds with
  | nil => simpa [join] using hhead xs
  | cons e es => simpa [join_cons_cons] using hhead _

theorem getLast?_pathOf (hp : p ≠ []) (hnames : ∀ d ∈ p, IsName d) :
    (pathOf p).getLast? ≠ some '/' := by
  obtain ⟨d, c, rfl⟩ : ∃ d c, p = d ++ [c] :=
    ⟨p.dropLast, p.getLast hp, (List.dropLast_append_getLast hp).symm⟩
  have hc : IsName c := hnames c (by simp)
  have hend : ∃ t, pathOf (d ++ [c]) = t ++ c := by
    by_cases hd : d = []
    · subst hd
      exact ⟨['/'], by simp [pathOf, join]⟩
    · exact ⟨'/' :: (join ['/'] d ++ ['/']), by rw [pathOf, join_append hd (by simp)]; simp [join]⟩
  obtain ⟨t, ht⟩ := hend
  rw [ht, List.getLast?_append_of_ne_nil _ hc.ne_nil]
  exact fun h => hc.noSlash (List.mem_of_getLast? h)

/-- The path of what is below a place. -/
theorem joinPath_pathOf (hp : ∀ d ∈ p, IsName d) (hq : ∀ d ∈ q, IsName d) (hne : q ≠ []) :
    joinPath (pathOf p) (join ['/'] q) = pathOf (p ++ q) := by
  rw [joinPath, isabs_join hne hq, if_neg (by simp)]
  by_cases hroot : p = []
  · subst hroot
    rfl
  · rw [if_neg (not_or.mpr ⟨by simp [pathOf], getLast?_pathOf hroot hp⟩), pathOf, pathOf,
      join_append hroot hne, List.cons_append]

theorem relpath_pathOf (hp : ∀ d ∈ p, IsName d) (hq : ∀ d ∈ q, IsName d) (hne : q ≠ []) :
    relpath (pathOf (p ++ q)) (pathOf p) = join ['/'] q := by
  have hpq : ∀ d ∈ p ++ q, IsName d := fun d hd => (List.mem_append.mp hd).elim (hp d) (hq d)
  have hcommon : commonPrefix p (p ++ q) = p :=
    commonPrefix_eq_left_iff.mpr (List.prefix_append p q)
  simp only [relpath, components_pathOf hp, components_pathOf hpq, hcommon, Nat.sub_self,
    List.replicate_zero, List.nil_append, List.drop_left]
  rw [if_neg hne]

theorem parts_join (hq : ∀ d ∈ q, IsName d) (hne : q ≠ []) : parts (join ['/'] q) = q := by
  rw [parts, join, List.splitOn_intercalate]
  · exact fun l hl => (hq l hl).noSlash
  · exact hne

end

/-! ### What is listed -/

section

variable {W : World} {D : Disk} {cache : Cache} {dir filePath rel : Text} {root q : Loc}
  {rels : List Text}

theorem Disk.At.realpath (h : D.At dir root) : D.realpath dir = .ok (pathOf root) := by
  have hcwd : D.fs.Clean D.cwd := Fs.clean_of_dir D.cwd_names D.cwd_dir
  rw [Disk.realpath, if_neg h.noNull, Fs.realpath_of_resolves hcwd (Fs.resolves_of_walk h.resolves)]

theorem Disk.At.clean (h : D.At dir root) : D.fs.Clean root := by
  have hcwd : D.fs.Clean D.cwd := Fs.clean_of_dir D.cwd_names D.cwd_dir
  rw [← Fs.realpath_of_resolves hcwd (Fs.resolves_of_walk h.resolves)]
  exact Fs.realpath_clean hcwd dir

/-- The names of what is listed below a place. -/
theorem Disk.Named.below (hnamed : D.Named) (hmem : root ++ q ∈ D.fs.entries.keys) :
    ∀ d ∈ q, IsName d :=
  fun d hd => (hnamed _ hmem d (List.mem_append_right _ hd)).1

/-- **What is listed** is the path of what is below the skill's place, and no directory, but not its
`SKILL.md`. -/
theorem mem_linkedFiles (hnamed : D.Named) (hat : D.At dir root)
    (hrels : linkedFiles D dir = .ok rels) :
    rel ∈ rels ↔ rel ≠ "SKILL.md".toList ∧ ∃ q, q ≠ [] ∧ root ++ q ∈ D.fs.entries.keys ∧
      D.isdir (pathOf (root ++ q)) = false ∧
      rel = join ['/'] q := by
  have hnames := hat.clean.names
  have hresolve : D.resolve (pathOf root) = some root :=
    Fs.resolve_of_node hnames hat.isDir (by simp)
  have hpath : ∀ q, q ≠ [] → root ++ q ∈ D.fs.entries.keys →
      relpath (joinPath (pathOf root) (join ['/'] ((root ++ q).drop root.length))) (pathOf root) =
          join ['/'] q := by
    intro q hne hmem
    have hq := hnamed.below hmem
    rw [List.drop_left, joinPath_pathOf hnames hq hne, relpath_pathOf hnames hq hne]
  rw [linkedFiles, hat.realpath] at hrels
  obtain rfl := Except.ok.inj hrels
  rw [List.mem_mergeSort, List.mem_filter, Disk.walkFiles, hresolve]
  simp only [decide_eq_true_eq]
  rw [and_comm]
  refine and_congr_right fun _ => ?_
  simp only [List.mem_map, List.mem_filter, List.mem_dedup, Bool.and_eq_true,
    List.isPrefixOf_iff_prefix, decide_eq_true_eq, Bool.not_eq_true']
  constructor
  · rintro ⟨_, ⟨p, ⟨hmem, ⟨⟨q, rfl⟩, hne⟩, hdir⟩, rfl⟩, rfl⟩
    have hq : q ≠ [] := by
      rintro rfl
      exact hne (List.append_nil root)
    exact ⟨q, hq, hmem, hdir, hpath q hq hmem⟩
  · rintro ⟨q, hq, hmem, hdir, rfl⟩
    exact ⟨_, ⟨root ++ q, ⟨hmem, ⟨List.prefix_append root q, fun h => hq (by simpa using h)⟩, hdir⟩,
      rfl⟩, hpath q hq hmem⟩

/-! ### What is taken -/

theorem noNull_join {p : Loc} (h : ∀ d ∈ p, '\x00' ∉ d) : '\x00' ∉ join ['/'] p := by
  induction p with
  | nil => exact List.not_mem_nil
  | cons d p ih =>
    have hd : '\x00' ∉ d := h d (List.mem_cons_self ..)
    cases p with
    | nil => simpa [join] using hd
    | cons e p =>
      rw [join_cons_cons, List.mem_append, List.mem_append]
      rintro ((hmem | hmem) | hmem)
      · exact hd hmem
      · exact absurd hmem (by decide)
      · exact ih (fun f hf => h f (List.mem_cons_of_mem _ hf)) hmem

theorem noNull_pathOf {p : Loc} (h : ∀ d ∈ p, '\x00' ∉ d) : '\x00' ∉ pathOf p := by
  rw [pathOf, List.mem_cons]
  rintro (hslash | hmem)
  · exact absurd hslash (by decide)
  · exact noNull_join h hmem

/-- **What `_safe_join` makes of a listed path**: the place that `realpath` gives, where a regular
file is there, below the place of the skill. -/
theorem safeJoin_linked_iff (hnamed : D.Named) (hat : D.At dir root)
    (hmem : root ++ q ∈ D.fs.entries.keys) (hq : q ≠ [])
    {resolved : Text} : safeJoin D dir (join ['/'] q) = .ok (some resolved) ↔
      resolved = pathOf (D.fs.realpath D.cwd (pathOf (root ++ q))) ∧
        root <+: D.fs.realpath D.cwd (pathOf (root ++ q)) ∧
        D.fs.realpath D.cwd (pathOf (root ++ q)) ≠ root ∧
        ∃ bytes, D.fs.node (D.fs.realpath D.cwd (pathOf (root ++ q))) = some (.file bytes) := by
  have hcwd : D.fs.Clean D.cwd := Fs.clean_of_dir D.cwd_names D.cwd_dir
  have hnames := hat.clean.names
  have hclean := Fs.realpath_clean hcwd (pathOf (root ++ q))
  have hnull : '\x00' ∉ pathOf (root ++ q) := noNull_pathOf fun d hd => (hnamed _ hmem d hd).2
  have hreal : D.realpath (joinPath (pathOf root) (join ['/'] q)) =
      .ok (pathOf (D.fs.realpath D.cwd (pathOf (root ++ q)))) := by
    rw [joinPath_pathOf hnames (hnamed.below hmem) hq, Disk.realpath, if_neg hnull]
  generalize D.fs.realpath D.cwd (pathOf (root ++ q)) = place at hclean hreal
  obtain ⟨common, hcommon, hbelow⟩ := commonpath_pathOf hnames hclean.names
  have hjoin : safeJoin D dir (join ['/'] q) =
      if pathOf place = pathOf root then .ok none
      else if common ≠ pathOf root then .ok none
      else if ¬ D.isfile (pathOf place) then .ok none
      else .ok (some (pathOf place)) := by
    rw [safeJoin, hat.realpath]
    simp only [bind, Except.bind, isabs_join hq (hnamed.below hmem), hreal, hcommon]
    exact if_neg Bool.false_ne_true
  have hfile : D.isfile (pathOf place) = true ↔ ∃ bytes, D.fs.node place = some (.file bytes) :=
    Fs.isfile_iff hclean
  have hsame : pathOf place = pathOf root ↔ place = root :=
    ⟨pathOf_inj hclean.names hnames, congrArg pathOf⟩
  rw [hjoin]
  by_cases h1 : place = root
  · rw [if_pos (hsame.mpr h1)]
    exact ⟨fun h => (by cases h), fun h => absurd h1 h.2.2.1⟩
  rw [if_neg (mt hsame.mp h1)]
  by_cases h2 : root <+: place
  · rw [if_neg (not_not.mpr (hbelow.mpr h2))]
    by_cases h3 : D.isfile (pathOf place) = true
    · rw [if_neg (not_not.mpr h3), Except.ok.injEq, Option.some.injEq]
      exact ⟨fun h => ⟨h.symm, h2, h1, hfile.mp h3⟩, fun h => h.1.symm⟩
    · rw [if_pos h3]
      exact ⟨fun h => (by cases h), fun h => absurd (hfile.mpr h.2.2.2) h3⟩
  · rw [if_pos (mt hbelow.mp h2)]
    exact ⟨fun h => (by cases h), fun h => absurd h.2.1 h2⟩

/-- A regular file is where its path says. -/
theorem realpath_of_file (hnamed : D.Named) (hmem : root ++ q ∈ D.fs.entries.keys)
    {bytes : List UInt8} (hnode : D.fs.node (root ++ q) = some (.file bytes)) :
    D.fs.realpath D.cwd (pathOf (root ++ q)) = root ++ q :=
  have hresolve : D.fs.resolve maxLinks D.cwd (pathOf (root ++ q)) = some (root ++ q) :=
    Fs.resolve_of_node (fun d hd => (hnamed _ hmem d hd).1) hnode (by simp)
  Fs.realpath_of_resolves (Fs.clean_of_dir D.cwd_names D.cwd_dir) (Fs.resolves_of_walk hresolve)

/-- **The answer for a path**: a reference is what is read of the file that `_safe_join` takes. -/
theorem toolSkillView_reference_iff {name content : Text} {cache' : Cache} (hname : strip name ≠ [])
    (hdir : skillDirOf W cache (strip name) = (.ok dir, cache')) (hpath : strip filePath ≠ []) :
    (toolSkillView W D cache name filePath).1 =
      .ok (.reference (strip name) (strip filePath) content) ↔
      ∃ resolved, safeJoin D dir (strip filePath) = .ok (some resolved) ∧
          readTextCapped (D.readNoFollow resolved) = .ok content := by
  have hview : skillViewDir W cache name = (.ok dir, cache') := by
    rw [skillViewDir, if_neg hname, hdir]
  rw [toolSkillView, hview]
  simp only [if_pos hpath]
  cases hjoin : safeJoin D dir (strip filePath) with
  | error e => simp [bind, Except.bind]
  | ok answer =>
    cases answer with
    | none => simp [bind, Except.bind]
    | some resolved =>
      cases hread : readTextCapped (D.readNoFollow resolved) with
      | error e => simp [bind, Except.bind, hread]
      | ok text => simp [bind, Except.bind, hread]

/-- What is read is within the cap. -/
theorem readTextCapped_eq_ok_iff {bytes : List UInt8} {content : Text} :
    readTextCapped (some (bytes.length, decode bytes)) = .ok content ↔ bytes.length ≤ maxFileBytes ∧
        content = decode bytes := by
  rw [readTextCapped]
  split_ifs with hcap
  · exact ⟨fun h => (by cases h), fun h => absurd hcap (not_lt.mpr h.1)⟩
  · rw [Except.ok.injEq]
    exact ⟨fun h => ⟨not_lt.mp hcap, h.symm⟩, fun h => h.2.symm⟩

theorem readNoFollow_file {p : Loc} {bytes : List UInt8} (hnames : ∀ d ∈ p, IsName d)
    (hnode : D.fs.node p = some (.file bytes)) :
    D.readNoFollow (pathOf p) = some (bytes.length, decode bytes) := by
  rw [Disk.readNoFollow, Fs.readNoFollow_of_node hnames hnode, Option.map_some]

/-- A file below the skill's place is in the list, or is its `SKILL.md`. -/
theorem listed_of_file (hnamed : D.Named) (hat : D.At dir root)
    (hrels : linkedFiles D dir = .ok rels) {place : Loc}
    {bytes : List UInt8} (hbelow : root <+: place) (hne : place ≠ root)
    (hnode : D.fs.node place = some (.file bytes)) :
    ∃ rel, (rel ∈ rels ∨ rel = "SKILL.md".toList) ∧ place = root ++ parts rel := by
  obtain ⟨q, rfl⟩ := hbelow
  have hq : q ≠ [] := fun h => hne (by rw [h, List.append_nil])
  have hmem : root ++ q ∈ D.fs.entries.keys := by
    rw [Fs.node, if_neg (by simp [hq])] at hnode
    by_contra hnot
    rw [Dict.get?_eq_none_iff.mpr hnot] at hnode
    cases hnode
  have hnames := hnamed.below hmem
  have hdir : D.isdir (pathOf (root ++ q)) = false := by
    rw [Disk.isdir, Disk.resolve,
      Fs.resolve_of_node (fun d hd => (hnamed _ hmem d hd).1) hnode (by simp),
      Option.bind_some, hnode]
  refine ⟨join ['/'] q, ?_, by rw [parts_join hnames hq]⟩
  by_cases hskill : join ['/'] q = "SKILL.md".toList
  · exact .inr hskill
  · exact .inl ((mem_linkedFiles hnamed hat hrels).mpr ⟨hskill, q, hq, hmem, hdir, rfl⟩)

/-- A listed path is not empty. -/
theorem ne_nil_of_listed (hnamed : D.Named) (hat : D.At dir root)
    (hrels : linkedFiles D dir = .ok rels) (hrel : rel ∈ rels) :
    rel ≠ [] := by
  obtain ⟨-, q, hq, hmem, -, rfl⟩ := (mem_linkedFiles hnamed hat hrels).mp hrel
  intro hnil
  have h := parts_join (hnamed.below hmem) hq
  rw [hnil] at h
  exact (hnamed.below hmem [] (h ▸ by simp [parts])).ne_nil rfl

end

/-- **What is listed is what is read**, for a skill whose directory is at `root`: with a listed
path, `skill_view` answers with the file of this path exactly if the path has no blanks at its ends,
and `realpath` leads to a regular file below the root, within the cap, which it does for every
regular file; and what it answers with for any path is the content of a file of the list, or of the
`SKILL.md`. -/
theorem linked_exact (W : World) (D : Disk) (cache cache' : Cache) (name dir : Text) (root : Loc)
    (rels : List Text) (hnamed : D.Named)
    (hname : strip name ≠ []) (hdir : skillDirOf W cache (strip name) = (.ok dir, cache'))
    (hat : D.At dir root)
    (hrels : linkedFiles D dir = .ok rels) :
    (∀ rel ∈ rels, ∀ content, (toolSkillView W D cache name rel).1 =
      .ok (.reference (strip name) rel content) ↔
      strip rel = rel ∧ root <+: placeOf D root rel ∧ placeOf D root rel ≠ root ∧
        ∃ bytes, D.fs.node (placeOf D root rel) = some (.file bytes) ∧ bytes.length ≤ maxFileBytes ∧
          content = decode bytes) ∧
    (∀ rel ∈ rels, ∀ bytes, D.fs.node (root ++ parts rel) = some (.file bytes) →
      placeOf D root rel = root ++ parts rel) ∧
    ∀ filePath path content, (toolSkillView W D cache name filePath).1 =
      .ok (.reference (strip name) path content) →
      ∃ rel bytes, (rel ∈ rels ∨ rel = "SKILL.md".toList) ∧
        D.fs.node (root ++ parts rel) = some (.file bytes) ∧
        content = decode bytes := by
  have hplace : ∀ rel, D.fs.Clean (placeOf D root rel) := fun rel =>
    Fs.realpath_clean (Fs.clean_of_dir D.cwd_names D.cwd_dir) _
  refine ⟨fun rel hrel content => ?_, fun rel hrel bytes hnode => ?_,
    fun filePath path content h => ?_⟩
  · obtain ⟨-, q, hq, hmem, -, rfl⟩ := (mem_linkedFiles hnamed hat hrels).mp hrel
    have hparts : placeOf D root (join ['/'] q) = D.fs.realpath D.cwd (pathOf (root ++ q)) := by
      rw [placeOf, parts_join (hnamed.below hmem) hq]
    by_cases hstrip : strip (join ['/'] q) = join ['/'] q
    · have hpath : strip (join ['/'] q) ≠ [] := by
        rw [hstrip]
        exact ne_nil_of_listed hnamed hat hrels hrel
      have hreply : (toolSkillView W D cache name (join ['/'] q)).1 =
            .ok (.reference (strip name) (strip (join ['/'] q)) content) ↔
          ∃ resolved, safeJoin D dir (strip (join ['/'] q)) = .ok (some resolved) ∧
            readTextCapped (D.readNoFollow resolved) = .ok content :=
              toolSkillView_reference_iff hname hdir hpath
      rw [hstrip] at hreply
      rw [hreply]
      constructor
      · rintro ⟨resolved, hjoin, hread⟩
        rw [safeJoin_linked_iff hnamed hat hmem hq, ← hparts] at hjoin
        obtain ⟨rfl, hbelow, hne, bytes, hnode⟩ := hjoin
        rw [readNoFollow_file (hplace _).names hnode, readTextCapped_eq_ok_iff] at hread
        exact ⟨hstrip, hbelow, hne, bytes, hnode, hread⟩
      · rintro ⟨-, hbelow, hne, bytes, hnode, hread⟩
        refine ⟨_, (safeJoin_linked_iff hnamed hat hmem hq).mpr ⟨rfl, ?_⟩, ?_⟩
        · rw [← hparts]
          exact ⟨hbelow, hne, bytes, hnode⟩
        · rw [← hparts, readNoFollow_file (hplace _).names hnode, readTextCapped_eq_ok_iff]
          exact hread
    · refine ⟨fun h => ?_, fun h => absurd h.1 hstrip⟩
      obtain ⟨_, _, -, ⟨-, _, hskill⟩ | ⟨_, _, _, -, -, href⟩⟩ := toolSkillView_ok h
      · cases hskill
      · rw [ViewReply.reference.injEq] at href
        exact absurd href.2.1.symm hstrip
  · obtain ⟨-, q, hq, hmem, -, rfl⟩ := (mem_linkedFiles hnamed hat hrels).mp hrel
    rw [parts_join (hnamed.below hmem) hq] at hnode ⊢
    rw [placeOf, parts_join (hnamed.below hmem) hq, realpath_of_file hnamed hmem hnode]
  · obtain ⟨dir', cache'', hdir', ⟨-, _, hskill⟩ | ⟨resolved, size, text, hjoin, hread, href⟩⟩ :=
      toolSkillView_ok h
    · cases hskill
    · rw [hdir, Prod.mk.injEq, Except.ok.injEq] at hdir'
      obtain ⟨rfl, -⟩ := hdir'
      rw [ViewReply.reference.injEq] at href
      obtain ⟨-, -, rfl⟩ := href
      obtain ⟨place, rfl, hclean, hfile, hbelow, hne⟩ := safeJoin_some hat.resolves hjoin
      obtain ⟨bytes, hnode⟩ := Fs.node_of_isfile hclean hfile
      obtain ⟨rel, hrel, rfl⟩ := listed_of_file hnamed hat hrels hbelow hne hnode
      rw [readNoFollow_file hclean.names hnode, Option.some.injEq, Prod.mk.injEq] at hread
      exact ⟨rel, bytes, hrel, hnode, hread.2.symm⟩

theorem linkedDisk_named : linkedDisk.Named := by
  have hall : ∀ q ∈ linkedDisk.fs.entries.keys, ∀ c ∈ q,
      (c ≠ [] ∧ c ≠ ['.'] ∧ c ≠ ['.', '.'] ∧ '/' ∉ c) ∧ '\x00' ∉ c := by decide
  exact fun q hq c hc =>
    ⟨⟨(hall q hq c hc).1.1, (hall q hq c hc).1.2.1, (hall q hq c hc).1.2.2.1,
    (hall q hq c hc).1.2.2.2⟩,
    (hall q hq c hc).2⟩

theorem linkedDisk_at :
    linkedDisk.At rewrittenSkill.dir ["home".toList, "src".toList, "s".toList] where
  resolves := by decide +kernel
  isDir := by decide
  noNull := by decide

theorem linkedDisk_linkedFiles :
    linkedFiles linkedDisk rewrittenSkill.dir = .ok ["notes/a.md".toList] := by
  have hsome : (linkedFiles linkedDisk rewrittenSkill.dir).toOption =
      some ["notes/a.md".toList] := by decide +kernel
  cases hresult : linkedFiles linkedDisk rewrittenSkill.dir with
  | error e =>
    rw [hresult] at hsome
    cases hsome
  | ok rels =>
    rw [hresult] at hsome
    exact congrArg _ (Option.some.inj hsome)

/-- The skill behind a link, with its one file. -/
theorem linked_exact_sample :
    (∀ rel ∈ ["notes/a.md".toList], ∀ content,
      (toolSkillView (oneSkill 17 bodyA) linkedDisk (oneSkillCache 17) "s".toList rel).1 =
        .ok (.reference (strip "s".toList) rel content) ↔
      strip rel = rel ∧ ["home".toList, "src".toList, "s".toList] <+:
        placeOf linkedDisk ["home".toList, "src".toList, "s".toList] rel ∧
        placeOf linkedDisk ["home".toList, "src".toList, "s".toList] rel ≠
          ["home".toList, "src".toList, "s".toList] ∧
        ∃ bytes, linkedDisk.fs.node
          (placeOf linkedDisk ["home".toList, "src".toList, "s".toList] rel) = some (.file bytes) ∧
          bytes.length ≤ maxFileBytes ∧ content = decode bytes) ∧
    (∀ rel ∈ ["notes/a.md".toList], ∀ bytes,
      linkedDisk.fs.node (["home".toList, "src".toList, "s".toList] ++ parts rel) =
        some (.file bytes) →
        placeOf linkedDisk ["home".toList, "src".toList, "s".toList] rel =
          ["home".toList, "src".toList, "s".toList] ++ parts rel) ∧
    ∀ filePath path content,
        (toolSkillView (oneSkill 17 bodyA) linkedDisk (oneSkillCache 17) "s".toList filePath).1 =
        .ok (.reference (strip "s".toList) path content) →
      ∃ rel bytes, (rel ∈ ["notes/a.md".toList] ∨ rel = "SKILL.md".toList) ∧
        linkedDisk.fs.node (["home".toList, "src".toList, "s".toList] ++ parts rel) =
            some (.file bytes) ∧ content = decode bytes := by
  have hdir : skillDirOf (oneSkill 17 bodyA) (oneSkillCache 17) (strip "s".toList) =
      (.ok rewrittenSkill.dir, oneSkillCache 17) := by
    have hstrip : strip "s".toList = "s".toList := by decide
    rw [hstrip]
    simp only [skillDirOf, resolveSkillDir, buildIndex_oneSkill]
    rfl
  exact linked_exact _ linkedDisk _ _ _ _ _ _ linkedDisk_named
    (by decide) hdir linkedDisk_at linkedDisk_linkedFiles

end OracleSkills.Server
