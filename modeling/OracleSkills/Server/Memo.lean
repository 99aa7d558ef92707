import OracleSkills.Server.IndexSound

/-!
# The memo is invisible

`_ENTRY_CACHE` is kept from one `build_index` to the next, while the files change: between two
calls, and during a call between one `glob` and the next and between one file and the next. Each of
these turns sees the files as they are then (`Files`), and the files of all turns are a history
`ℕ → Files`, which may be any.

An entry of the cache is found by the path of its file, its modification time and its size. If no
path ever shows the same of both with two contents (`Faithful`), an entry that is found is what
parsing the file would give, at whatever turn (`Recalls`): a turn keeps that, and so does the
clearing of the cache. Its `_root` alone is not of the file: it is the root for which the file was
parsed, where the same path is found below two (`Rooted`). So every call gives what it would give
with an empty cache, but for the `_root` of such an entry (`calls_same`).
-/

namespace OracleSkills.Server

open Python Frontmatter

universe u

/-! ### Files that change -/

/-- What can change around the server. -/
structure Files where
  glob : Text → List SkillMd
  stat : Text → Option (ℕ × ℕ)
  file : Text → Option (ℕ × Text)

/-- The server among these files. -/
def World.among (W : World) (d : Files) : World :=
  { W with glob := d.glob, stat := d.stat, file := d.file }

/-- No path ever shows one modification time and size with two contents. -/
def Faithful {ι : Type u} (H : ι → Files) : Prop :=
  ∀ i j path st, (H i).stat path = some st → (H j).stat path = some st →
    (H i).file path = (H j).file path

/-! ### What the cache recalls -/

section

variable {W : World} {ι : Type u} {H : ι → Files} {cache : Cache}

/-- Whatever is found in the cache is what parsing the file gives. -/
def Recalls (W : World) (H : ι → Files) (cache : Cache) : Prop :=
  ∀ i (f : SkillMd) st e, (H i).stat f.path = some st → cache.get? (f.path, st) = some e →
    parseFresh (W.among (H i)) f = .ok (.ok e)

theorem recalls_nil : Recalls W H [] := by
  intro i f st e _ h
  cases h

/-- The platform gate is the same among any files, -/
theorem platforms_among (d : Files) (ps : List Value) :
    platforms (W.among d) ps = platforms W ps := by
  induction ps with
  | nil => rfl
  | cons p ps ih =>
    rw [platforms, platforms, ih]
    rfl

/-- and so is what a frontmatter is parsed into: -/
theorem parseFm_among (d : Files) (f : SkillMd) (fm : Dict Text Value) :
    parseFm (W.among d) f fm = parseFm W f fm := by
  simp only [parseFm, platforms_among]
  rfl

/-- parsing depends on what is in the file. -/
theorem parseFresh_among (d : Files) (f : SkillMd) :
    parseFresh (W.among d) f =
      match readTextCapped (d.file f.path) with
      | .error (.valueError m) => .ok (.error m)
      | .error e => .error e
      | .ok text => splitFrontmatterEx W.yaml text >>= fun x => parseFm W f x.1 := by
  simp only [parseFresh, parseFm_among]
  rfl

/-- What has been parsed is recalled at every turn. -/
theorem Recalls.set (h : Recalls W H cache) (hH : Faithful H) {i : ι} {f : SkillMd}
    {st : ℕ × ℕ} {e : Entry}
    (hst : (H i).stat f.path = some st) (hf : parseFresh (W.among (H i)) f = .ok (.ok e)) :
    Recalls W H (Dict.set (f.path, st) e cache) := by
  intro j g st' d hst' hget
  rcases Dict.get?_of_get?_set hget with ⟨hkey, rfl⟩ | hget
  · rw [Prod.mk.injEq] at hkey
    obtain ⟨hpath, rfl⟩ := hkey
    obtain rfl := SkillMd.path_injective hpath
    rw [parseFresh_among, ← hH i j g.path st' hst hst', ← parseFresh_among]
    exact hf
  · exact h j g st' d hst' hget

/-- **A turn through the cache** gives what parsing gives, and the cache goes on recalling, cleared
or not. -/
theorem Recalls.parseEntry_eq (h : Recalls W H cache) (hH : Faithful H) (i : ι) (f : SkillMd) :
    (parseEntry (W.among (H i)) cache f).1 = parse (W.among (H i)) f ∧
      Recalls W H (parseEntry (W.among (H i)) cache f).2 := by
  have hstat : (W.among (H i)).stat f.path = (H i).stat f.path := rfl
  rw [parseEntry, parse, hstat]
  cases hst : (H i).stat f.path with
  | none => exact ⟨rfl, h⟩
  | some st =>
    simp only
    cases hc : cache.get? (f.path, st) with
    | some hit => exact ⟨(h i f st hit hst hc).symm, h⟩
    | none =>
      simp only
      cases hf : parseFresh (W.among (H i)) f with
      | error e => exact ⟨rfl, h⟩
      | ok r =>
        cases r with
        | error m => exact ⟨rfl, h⟩
        | ok e =>
          refine ⟨rfl, Recalls.set ?_ hH hst hf⟩
          split_ifs
          · exact recalls_nil
          · exact h

/-- So a build through the cache is a build. -/
theorem Recalls.buildIndex_eq (h : Recalls W H cache) (hH : Faithful H) (i : ι) :
    (buildIndex (W.among (H i)) cache).1 =
      buildFresh (W.among (H i)) (iterSkillDirs (W.among (H i))) ⟨[], [], []⟩ ∧
      Recalls W H (buildIndex (W.among (H i)) cache).2 := by
  have hloop : ∀ (fs : List (Text × SkillMd)) (idx : Index) (cache : Cache), Recalls W H cache →
      (buildLoop (W.among (H i)) fs idx cache).1 = buildFresh (W.among (H i)) fs idx ∧
        Recalls W H (buildLoop (W.among (H i)) fs idx cache).2 := by
    intro fs
    induction fs with
    | nil => exact fun _ _ h => ⟨rfl, h⟩
    | cons x fs ih =>
      intro idx cache h
      obtain ⟨root, f⟩ := x
      obtain ⟨heq, hk⟩ := h.parseEntry_eq hH i f
      rw [buildLoop, buildFresh, ← heq]
      generalize parseEntry (W.among (H i)) cache f = y at hk
      obtain ⟨r, kept⟩ := y
      cases r with
      | error e => exact ⟨rfl, hk⟩
      | ok r => exact ih (idx.add root f r) kept hk
  exact hloop _ _ cache h

end

/-! ### `build_index` while files change -/

/-- An entry with `_root`. -/
structure Rooted where
  entry : Entry
  root : Text

/-- `_ENTRY_CACHE`, with `_root`. -/
abbrev RootedCache := Dict (Text × ℕ × ℕ) Rooted

/-- `_parse_entry`, with `_root`: what is found in the cache has the root for which it was
parsed. -/
def parseRooted (W : World) (cache : RootedCache) (root : Text) (f : SkillMd) :
    Except Raised (Except Text Rooted) × RootedCache :=
  match W.stat f.path with
  | none => (.ok (.error "SKILL.md could not be stat'd".toList), cache)
  | some st =>
    match cache.get? (f.path, st) with
    | some hit => (.ok (.ok hit), cache)
    | none =>
      match parseFresh W f with
      | .ok (.ok e) =>
        (.ok (.ok ⟨e, root⟩), Dict.set (f.path, st) ⟨e, root⟩
        (if cacheMax < cache.length then [] else cache))
      | .ok (.error reason) => (.ok (.error reason), cache)
      | .error e => (.error e, cache)

/-- The lists of `build_index`, and `seen`. -/
structure RootedIndex where
  entries : List Rooted
  excluded : List Excluded
  seen : Dict Text Text

/-- One turn of `build_index`'s loop. -/
def RootedIndex.add (idx : RootedIndex) (root : Text) (f : SkillMd) :
    Except Text Rooted → RootedIndex
  | .error reason => { idx with excluded := idx.excluded ++ [⟨f.base, root, reason⟩] }
  | .ok x =>
    match idx.seen.get? x.entry.name with
    | some prevRoot =>
      { idx with
        excluded := idx.excluded ++
          [⟨x.entry.name, root,
            "shadowed: name already provided by higher-precedence root ".toList ++ prevRoot⟩] }
    | none => { idx with entries := idx.entries ++ [x], seen := idx.seen.set x.entry.name root }

section

variable (W : World) (H : ℕ → Files)

/-- The turns of `build_index` for the files that `glob` found in a root. -/
def scanFiles (root : Text) : List SkillMd → ℕ → RootedIndex → RootedCache →
    Except Raised RootedIndex × RootedCache × ℕ
  | [], t, idx, cache => (.ok idx, cache, t)
  | f :: fs, t, idx, cache =>
    match parseRooted (W.among (H t)) cache root f with
    | (.error e, cache') => (.error e, cache', t + 1)
    | (.ok r, cache') => scanFiles root fs (t + 1) (idx.add root f r) cache'

/-- The turns of `build_index` for the roots, each of which begins with its `glob`. -/
def scanRoots : List Text → ℕ → RootedIndex → RootedCache →
    Except Raised RootedIndex × RootedCache × ℕ
  | [], t, idx, cache => (.ok idx, cache, t)
  | root :: roots, t, idx, cache =>
    match scanFiles W H root (((H t).glob root).mergeSort fun f g => leText f.path g.path)
        (t + 1) idx cache with
    | (.error e, cache', t') => (.error e, cache', t')
    | (.ok idx', cache', t') => scanRoots roots t' idx' cache'

/-- `build_index`, from turn `t` on, and the turn after it. -/
def buildAt (t : ℕ) (cache : RootedCache) : Except Raised RootedIndex × RootedCache × ℕ :=
  scanRoots W H W.roots t ⟨[], [], []⟩ cache

/-- Calls of `build_index`, with so many turns before each. -/
def calls : List ℕ → ℕ → RootedCache → List (Except Raised RootedIndex)
  | [], _, _ => []
  | gap :: gaps, t, cache =>
    let (r, cache', t') := buildAt W H (t + gap) cache
    r :: calls gaps t' cache'

/-- The calls, each with an empty cache. -/
def callsAfresh : List ℕ → ℕ → List (Except Raised RootedIndex)
  | [], _ => []
  | gap :: gaps, t =>
    let (r, _, t') := buildAt W H (t + gap) []
    r :: callsAfresh gaps t'

end

/-! ### Without the roots -/

section

variable {W : World} {cache : RootedCache}

/-- The cache without the roots. -/
def RootedCache.forget (cache : RootedCache) : Cache := cache.map fun kv => (kv.1, kv.2.entry)

/-- The index without the roots. -/
def RootedIndex.forget (idx : RootedIndex) : Index :=
  ⟨idx.entries.map Rooted.entry, idx.excluded, idx.seen⟩

@[simp] theorem RootedCache.length_forget (cache : RootedCache) :
    cache.forget.length = cache.length := List.length_map _

theorem RootedCache.get?_forget (cache : RootedCache) (k : Text × ℕ × ℕ) :
    cache.forget.get? k = (cache.get? k).map Rooted.entry := Dict.get?_map Rooted.entry k cache

theorem RootedCache.forget_set (cache : RootedCache) (k : Text × ℕ × ℕ) (x : Rooted) :
    RootedCache.forget (Dict.set k x cache) = Dict.set k x.entry cache.forget :=
      Dict.map_set Rooted.entry k x cache

theorem RootedIndex.forget_add (idx : RootedIndex) (root : Text) (f : SkillMd)
    (r : Except Text Rooted) :
    (idx.add root f r).forget = idx.forget.add root f (r.map Rooted.entry) := by
  cases r with
  | error reason => rfl
  | ok x =>
    have hseen : idx.forget.seen = idx.seen := rfl
    simp only [RootedIndex.add, Index.add, Except.map, hseen]
    cases idx.seen.get? x.entry.name with
    | none => simp [RootedIndex.forget]
    | some prevRoot => rfl

/-- **A turn without the roots** is one of the cache without the roots. -/
theorem parseRooted_forget (cache : RootedCache) (root : Text) (f : SkillMd) :
    parseEntry W cache.forget f =
    ((parseRooted W cache root f).1.map (Except.map Rooted.entry),
        (parseRooted W cache root f).2.forget) := by
  rw [parseEntry, parseRooted]
  cases W.stat f.path with
  | none => rfl
  | some st =>
    simp only [cache.get?_forget]
    cases cache.get? (f.path, st) with
    | some hit => rfl
    | none =>
      cases parseFresh W f with
      | error e => rfl
      | ok r =>
        cases r with
        | error reason => rfl
        | ok e =>
          simp only [Option.map_none, RootedCache.forget_set, cache.length_forget]
          split_ifs <;> rfl

theorem scanFiles_const (d : Files) (root : Text) (fs : List SkillMd)
    (rest : List (Text × SkillMd)) (t : ℕ) (idx : RootedIndex) (cache : RootedCache) :
    buildLoop (W.among d) (fs.map (fun f => (root, f)) ++ rest) idx.forget cache.forget =
      match scanFiles W (fun _ => d) root fs t idx cache with
      | (.error e, cache', _) => (.error e, cache'.forget)
      | (.ok idx', cache', _) => buildLoop (W.among d) rest idx'.forget cache'.forget := by
  induction fs generalizing t idx cache with
  | nil => rfl
  | cons f fs ih =>
    rw [List.map_cons, List.cons_append, buildLoop, scanFiles, parseRooted_forget cache root f]
    generalize parseRooted (W.among d) cache root f = x
    obtain ⟨r, kept⟩ := x
    cases r with
    | error e => rfl
    | ok r =>
      have hok : Except.map (Except.map Rooted.entry) (.ok r : Except Raised (Except Text Rooted)) =
          .ok (r.map Rooted.entry) := rfl
      simp only [hok, ← idx.forget_add]
      exact ih (t + 1) (idx.add root f r) kept

/-- Among files that stay as they are, the turns make up the `build_index` that the tools call. -/
theorem buildAt_const (d : Files) (t : ℕ) (cache : RootedCache) :
    buildIndex (W.among d) cache.forget =
      ((buildAt W (fun _ => d) t cache).1.map RootedIndex.forget,
          (buildAt W (fun _ => d) t cache).2.1.forget) := by
  have hroots : ∀ (roots : List Text) t (idx : RootedIndex) (cache : RootedCache),
      buildLoop (W.among d) (roots.flatMap fun root =>
        ((d.glob root).mergeSort fun f g => leText f.path g.path).map fun f => (root, f)) idx.forget
          cache.forget =
      ((scanRoots W (fun _ => d) roots t idx cache).1.map RootedIndex.forget,
        (scanRoots W (fun _ => d) roots t idx cache).2.1.forget) := by
    intro roots
    induction roots with
    | nil => exact fun _ _ _ => rfl
    | cons root roots ih =>
      intro t idx cache
      rw [List.flatMap_cons, scanFiles_const d root _ _ (t + 1), scanRoots]
      generalize scanFiles W (fun _ => d) root _ (t + 1) idx cache = x
      obtain ⟨r, kept, u⟩ := x
      cases r with
      | error e => rfl
      | ok idx => exact ih u idx kept
  exact hroots W.roots t ⟨[], [], []⟩ cache

end

/-! ### Every run -/

section

variable {W : World} {H : ℕ → Files} {cache : RootedCache} {idx idx' : RootedIndex}

/-- The `SKILL.md` is found below the root, at some turn. -/
def Below (W : World) (H : ℕ → Files) (root : Text) (f : SkillMd) : Prop :=
  root ∈ W.roots ∧ ∃ t, f ∈ (H t).glob root

/-- The same entry, each with a root below which its `SKILL.md` is found. -/
structure SameEntry (W : World) (H : ℕ → Files) (x y : Rooted) : Prop where
  entry : x.entry = y.entry
  left : Below W H x.root x.entry.path
  right : Below W H y.root y.entry.path

/-- The same entries and exclusions. -/
structure SameIndex (W : World) (H : ℕ → Files) (idx idx' : RootedIndex) : Prop where
  entries : List.Forall₂ (SameEntry W H) idx.entries idx'.entries
  excluded : idx.excluded = idx'.excluded
  seen : idx.seen = idx'.seen

/-- Two results that are the same where they are no values, and related where they are. -/
inductive SameResult {ε α : Type} (R : α → α → Prop) : Except ε α → Except ε α → Prop where
  | error (e : ε) : SameResult R (.error e) (.error e)
  | ok {a b : α} : R a b → SameResult R (.ok a) (.ok b)

/-- Two calls of `build_index` that give the same. -/
def SameCall (W : World) (H : ℕ → Files) : Except Raised RootedIndex →
    Except Raised RootedIndex → Prop :=
  SameResult (SameIndex W H)

/-- No `SKILL.md` is found below two roots. -/
def OneRoot (W : World) (H : ℕ → Files) : Prop :=
  ∀ f root root', Below W H root f → Below W H root' f → root = root'

/-- What the cache has is what parsing gives, for a root below which the file is found. -/
structure Remembers (W : World) (H : ℕ → Files) (cache : RootedCache) : Prop where
  recalls : Recalls W H cache.forget
  below : ∀ k x, cache.get? k = some x → x.entry.path.path = k.1 ∧ Below W H x.root x.entry.path

theorem remembers_nil : Remembers W H [] := ⟨recalls_nil, fun _ _ h => by cases h⟩

/-- **A turn**: it gives what parsing gives, and for a root below which the file is found, and the
cache goes on remembering, cleared or not. -/
theorem Remembers.parseRooted (h : Remembers W H cache) (hH : Faithful H) (t : ℕ) {root : Text}
    {f : SkillMd} (hf : Below W H root f) :
    (parseRooted (W.among (H t)) cache root f).1.map (Except.map Rooted.entry) =
      parse (W.among (H t)) f ∧
      (∀ x, (Server.parseRooted (W.among (H t)) cache root f).1 = .ok (.ok x) →
        Below W H x.root x.entry.path) ∧
      Remembers W H (Server.parseRooted (W.among (H t)) cache root f).2 := by
  obtain ⟨hparse, hrecalls⟩ := h.recalls.parseEntry_eq hH t f
  rw [parseRooted_forget cache root f] at hparse hrecalls
  suffices hbelow :
      (∀ x, (Server.parseRooted (W.among (H t)) cache root f).1 = .ok (.ok x) →
      Below W H x.root x.entry.path) ∧
      ∀ k x, (Server.parseRooted (W.among (H t)) cache root f).2.get? k = some x →
        x.entry.path.path = k.1 ∧ Below W H x.root x.entry.path from
    ⟨hparse, hbelow.1, hrecalls, hbelow.2⟩
  have hstat : (W.among (H t)).stat f.path = (H t).stat f.path := rfl
  rw [Server.parseRooted, hstat]
  cases hst : (H t).stat f.path with
  | none => exact ⟨fun x hx => absurd hx (by simp), h.below⟩
  | some st =>
    simp only
    cases hc : cache.get? (f.path, st) with
    | some hit =>
      refine ⟨fun x hx => ?_, h.below⟩
      cases hx
      exact (h.below _ _ hc).2
    | none =>
      simp only
      cases hfresh : parseFresh (W.among (H t)) f with
      | error e => exact ⟨fun x hx => absurd hx (by simp), h.below⟩
      | ok r =>
        cases r with
        | error reason => exact ⟨fun x hx => absurd hx (by simp), h.below⟩
        | ok e =>
          have hpath : e.path = f :=
            path_of_parse (W := W.among (H t)) (by rw [parse, hstat, hst]; exact hfresh)
          have hnew : Below W H root e.path := hpath ▸ hf
          refine ⟨fun x hx => ?_, fun k x hx => ?_⟩
          · cases hx
            exact hnew
          · rw [Dict.get?_set] at hx
            split_ifs at hx with hkey hclear
            · cases hx
              exact ⟨by rw [hkey, hpath], hnew⟩
            · cases hx
            · exact h.below k x hx

theorem sameParse {r r' : Except Raised (Except Text Rooted)}
    (heq : r.map (Except.map Rooted.entry) = r'.map (Except.map Rooted.entry))
    (hleft : ∀ x, r = .ok (.ok x) → Below W H x.root x.entry.path)
    (hright : ∀ y, r' = .ok (.ok y) → Below W H y.root y.entry.path) :
    SameResult (SameResult (SameEntry W H)) r r' := by
  cases r with
  | error e =>
    cases r' with
    | error e' =>
      obtain rfl : e = e' := by simpa [Except.map] using heq
      exact .error e
    | ok b => simp [Except.map] at heq
  | ok a =>
    cases r' with
    | error e' => simp [Except.map] at heq
    | ok b =>
      rw [Except.map, Except.map, Except.ok.injEq] at heq
      refine .ok ?_
      cases a with
      | error m =>
        cases b with
        | error m' =>
          obtain rfl : m = m' := by simpa [Except.map] using heq
          exact .error m
        | ok y => simp [Except.map] at heq
      | ok x =>
        cases b with
        | error m' => simp [Except.map] at heq
        | ok y => exact .ok ⟨by simpa [Except.map] using heq, hleft x rfl, hright y rfl⟩

theorem SameIndex.add (h : SameIndex W H idx idx') {r r' : Except Text Rooted}
    (hr : SameResult (SameEntry W H) r r')
    (root : Text) (f : SkillMd) : SameIndex W H (idx.add root f r) (idx'.add root f r') := by
  cases hr with
  | error reason => exact ⟨h.entries, by simp only [RootedIndex.add, h.excluded], h.seen⟩
  | @ok x y hxy =>
    simp only [RootedIndex.add, ← hxy.entry, ← h.seen]
    cases idx.seen.get? x.entry.name with
    | some prevRoot => exact ⟨h.entries, by simp only [h.excluded], rfl⟩
    | none => exact ⟨List.rel_append h.entries (.cons hxy .nil), h.excluded, rfl⟩

/-- What two builds give that begin at one turn. -/
structure Unseen (W : World) (H : ℕ → Files) (r r' : Except Raised RootedIndex × RootedCache × ℕ) :
    Prop where
  result : SameCall W H r.1 r'.1
  turn : r.2.2 = r'.2.2
  remembers : Remembers W H r.2.1
  remembers' : Remembers W H r'.2.1

theorem scanFiles_unseen (hH : Faithful H) {root : Text} {fs : List SkillMd}
    (hfs : ∀ f ∈ fs, Below W H root f) (t : ℕ)
    {cache' : RootedCache} (hidx : SameIndex W H idx idx') (h : Remembers W H cache)
    (h' : Remembers W H cache') :
    Unseen W H (scanFiles W H root fs t idx cache) (scanFiles W H root fs t idx' cache') := by
  induction fs generalizing t idx idx' cache cache' with
  | nil => exact ⟨.ok hidx, rfl, h, h'⟩
  | cons f fs ih =>
    obtain ⟨hf, hfs⟩ := List.forall_mem_cons.mp hfs
    obtain ⟨heq, hleft, hk⟩ := h.parseRooted hH t hf
    obtain ⟨heq', hright, hk'⟩ := h'.parseRooted hH t hf
    have hsame := sameParse (heq.trans heq'.symm) hleft hright
    rw [scanFiles, scanFiles]
    generalize parseRooted (W.among (H t)) cache root f = x at hsame hk
    generalize parseRooted (W.among (H t)) cache' root f = y at hsame hk'
    obtain ⟨r, kept⟩ := x
    obtain ⟨r', kept'⟩ := y
    cases hsame with
    | error e => exact ⟨.error e, rfl, hk, hk'⟩
    | ok hr => exact ih hfs (t + 1) (hidx.add hr root f) hk hk'

theorem scanRoots_unseen (hH : Faithful H) {roots : List Text}
    (hroots : ∀ root ∈ roots, root ∈ W.roots) (t : ℕ)
    {cache' : RootedCache} (hidx : SameIndex W H idx idx') (h : Remembers W H cache)
    (h' : Remembers W H cache') :
    Unseen W H (scanRoots W H roots t idx cache) (scanRoots W H roots t idx' cache') := by
  induction roots generalizing t idx idx' cache cache' with
  | nil => exact ⟨.ok hidx, rfl, h, h'⟩
  | cons root roots ih =>
    obtain ⟨hroot, hroots⟩ := List.forall_mem_cons.mp hroots
    have hfs : ∀ f ∈ ((H t).glob root).mergeSort fun f g =>
        leText f.path g.path, Below W H root f :=
      fun f hf => ⟨hroot, t, List.mem_mergeSort.mp hf⟩
    have hfiles := scanFiles_unseen hH hfs (t + 1) hidx h h'
    rw [scanRoots, scanRoots]
    generalize scanFiles W H root _ (t + 1) idx cache = x at hfiles
    generalize scanFiles W H root _ (t + 1) idx' cache' = y at hfiles
    obtain ⟨r, kept, u⟩ := x
    obtain ⟨r', kept', u'⟩ := y
    obtain ⟨hresult, hturn, hk, hk'⟩ := hfiles
    obtain rfl : u = u' := hturn
    cases hresult with
    | error e => exact ⟨.error e, rfl, hk, hk'⟩
    | ok hidx => exact ih hroots u hidx hk hk'

theorem calls_same_of_remembers (hH : Faithful H) (gaps : List ℕ) (t : ℕ)
    (h : Remembers W H cache) :
    List.Forall₂ (SameCall W H) (calls W H gaps t cache) (callsAfresh W H gaps t) := by
  induction gaps generalizing t cache with
  | nil => exact .nil
  | cons gap gaps ih =>
    have hempty : SameIndex W H ⟨[], [], []⟩ ⟨[], [], []⟩ := ⟨.nil, rfl, rfl⟩
    have hcall := scanRoots_unseen hH (fun root hroot => hroot) (t + gap) hempty h remembers_nil
    rw [calls, callsAfresh, buildAt, buildAt]
    generalize scanRoots W H W.roots (t + gap) ⟨[], [], []⟩ cache = x at hcall
    generalize scanRoots W H W.roots (t + gap) ⟨[], [], []⟩ [] = y at hcall
    obtain ⟨r, kept, u⟩ := x
    obtain ⟨r', kept', u'⟩ := y
    obtain ⟨hresult, hturn, hk, -⟩ := hcall
    obtain rfl : u = u' := hturn
    exact .cons hresult (ih u hk)

/-- What is the same is equal, where no `SKILL.md` is found below two roots. -/
theorem OneRoot.eq_of_same (hone : OneRoot W H) {rs rs' : List (Except Raised RootedIndex)}
    (h : List.Forall₂ (SameCall W H) rs rs') : rs = rs' := by
  have hentry : ∀ x y, SameEntry W H x y → x = y := by
    rintro ⟨e, root⟩ ⟨e', root'⟩ ⟨rfl, hleft, hright⟩
    obtain rfl : root = root' := hone _ _ _ hleft hright
    rfl
  rw [← List.forall₂_eq_eq_eq]
  refine h.imp fun r r' hr => ?_
  cases hr with
  | error e => rfl
  | @ok idx idx' hidx =>
    obtain ⟨entries, excluded, seen⟩ := idx
    obtain ⟨entries', excluded', seen'⟩ := idx'
    obtain ⟨hentries, rfl, rfl⟩ := hidx
    obtain rfl : entries = entries' := by
      rw [← List.forall₂_eq_eq_eq]
      exact hentries.imp hentry
    rfl

/-- **The memo is invisible**, but for `_root`: while files change as they may, every call of
`build_index` gives what it would give with an empty cache, if no path ever shows one modification
time and size with two contents. The roots of an entry may differ, if its `SKILL.md` is found below
both; where none is found below two, nothing does. -/
theorem calls_same (W : World) (H : ℕ → Files) (hH : Faithful H) (gaps : List ℕ) :
    List.Forall₂ (SameCall W H) (calls W H gaps 0 []) (callsAfresh W H gaps 0) ∧
      (OneRoot W H → calls W H gaps 0 [] = callsAfresh W H gaps 0) := by
  have hsame := calls_same_of_remembers hH gaps 0 (remembers_nil (W := W) (H := H))
  exact ⟨hsame, fun hone => hone.eq_of_same hsame⟩

/-- A skill in a directory `s`. -/
def rewrittenSkill : SkillMd := ⟨"skills".toList, "s".toList, by decide, by decide⟩

/-- A root with one `SKILL.md`, which is rewritten at the fourth turn. -/
def rewritten (t : ℕ) : Files where
  glob root := if root = "skills".toList then [rewrittenSkill] else []
  stat path := if path = rewrittenSkill.path then
    some (if t < 4 then (1, 15) else (2, 15)) else none
  file path := if path = rewrittenSkill.path then
    some (15, if t < 4 then "---\nname: a\n---".toList else "---\nname: b\n---".toList) else none

theorem faithful_rewritten : Faithful rewritten := by
  intro i j path st hi hj
  simp only [rewritten, Option.ite_none_right_eq_some, Option.some.injEq] at hi hj
  have hsame : i < 4 ↔ j < 4 := by
    have heq := hi.2.trans hj.2.symm
    clear hi hj
    split_ifs at heq with h h' h'
    · exact iff_of_true h h'
    · cases heq
    · cases heq
    · exact iff_of_false h h'
  simp only [rewritten, hsame]

/-- A server with that root, and without PyYAML. -/
def rewrittenWorld : World where
  roots := ["skills".toList]
  glob _ := []
  stat _ := none
  file _ := none
  yaml := none
  lower t := t
  repr t := t
  platform := "linux".toList

theorem oneRoot_rewritten : OneRoot rewrittenWorld rewritten := by
  rintro f root root' ⟨hroot, -⟩ ⟨hroot', -⟩
  rw [List.mem_singleton.mp hroot, List.mem_singleton.mp hroot']

theorem calls_same_rewritten :
    List.Forall₂ (SameCall rewrittenWorld rewritten) (calls rewrittenWorld rewritten [0, 1, 0] 0 [])
        (callsAfresh rewrittenWorld rewritten [0, 1, 0] 0) ∧
      calls rewrittenWorld rewritten [0, 1, 0] 0 [] =
          callsAfresh rewrittenWorld rewritten [0, 1, 0] 0 :=
  have h := calls_same rewrittenWorld rewritten faithful_rewritten [0, 1, 0]
  ⟨h.1, h.2 oneRoot_rewritten⟩

/-! ### Two roots of one file -/

/-- A server with two roots, the first of which `glob` takes as a pattern that the second is of. -/
def overlappingWorld : World := { rewrittenWorld with roots := ["/srv/*".toList, "/srv/a".toList] }

def overlappingSkill : SkillMd := ⟨"/srv/a".toList, "s".toList, by decide, by decide⟩

/-- The `SKILL.md` is added when the server has looked below the first root. -/
def overlapping (t : ℕ) : Files where
  glob root := if 0 < t ∧ root ∈ overlappingWorld.roots then [overlappingSkill] else []
  stat path := if 0 < t ∧ path = overlappingSkill.path then some (1, 15) else none
  file path := if 0 < t ∧ path = overlappingSkill.path then
    some (15, "---\nname: a\n---".toList) else none

theorem faithful_overlapping : Faithful overlapping := by
  intro i j path st hi hj
  simp only [overlapping, Option.ite_none_right_eq_some] at hi hj
  simp only [overlapping, if_pos hi.1, if_pos hj.1]

/-- Its entry, with a root. -/
def overlappingEntry (root : Text) : Rooted :=
  ⟨⟨"a".toList, none, none, none, [], overlappingSkill⟩, root⟩

/-- The cache that has it. -/
def overlappingCache (root : Text) : RootedCache :=
  [((overlappingSkill.path, 1, 15), overlappingEntry root)]

/-- The roots of the entries. -/
def entryRoots : Except Raised RootedIndex → List Text
  | .ok idx => idx.entries.map Rooted.root
  | .error _ => []

section Overlapping

variable {t : ℕ} {root : Text}

theorem parseRooted_overlapping_nil (ht : 0 < t) (root : Text) :
    parseRooted (overlappingWorld.among (overlapping t)) [] root overlappingSkill =
      (.ok (.ok (overlappingEntry root)), overlappingCache root) := by
  have hstat : (overlappingWorld.among (overlapping t)).stat overlappingSkill.path = some (1, 15) :=
    if_pos ⟨ht, rfl⟩
  have hfile : (overlappingWorld.among (overlapping t)).file overlappingSkill.path =
      some (15, "---\nname: a\n---".toList) :=
    if_pos ⟨ht, rfl⟩
  have hfresh : parseFresh (overlappingWorld.among (overlapping t)) overlappingSkill =
      .ok (.ok (overlappingEntry root).entry) := by
    rw [parseFresh, hfile]
    rfl
  rw [parseRooted, hstat, hfresh]
  rfl

theorem parseRooted_overlapping_cache (ht : 0 < t) (root root' : Text) :
    parseRooted (overlappingWorld.among (overlapping t))
      (overlappingCache root') root overlappingSkill =
      (.ok (.ok (overlappingEntry root')), overlappingCache root') := by
  have hstat : (overlappingWorld.among (overlapping t)).stat overlappingSkill.path = some (1, 15) :=
    if_pos ⟨ht, rfl⟩
  have hget : (overlappingCache root').get? (overlappingSkill.path, 1, 15) =
      some (overlappingEntry root') := if_pos rfl
  rw [parseRooted, hstat]
  simp only [hget]

/-- A root with the file. -/
theorem scanFiles_overlapping (ht : 0 < t) (hroot : root ∈ overlappingWorld.roots)
    (idx : RootedIndex) (cache : RootedCache) :
    scanFiles overlappingWorld overlapping root
        (((overlapping t).glob root).mergeSort fun f g => leText f.path g.path) (t + 1) idx
        cache =
      scanFiles overlappingWorld overlapping root [overlappingSkill] (t + 1) idx cache := by
  have hglob : (overlapping t).glob root = [overlappingSkill] := if_pos ⟨ht, hroot⟩
  rw [hglob, List.mergeSort_singleton]

/-- A build that begins when the file is there gives the entry with the root for which it is found
in the cache or parsed first. -/
theorem entryRoots_buildAt (ht : 0 < t) {cache : RootedCache}
    (h : parseRooted (overlappingWorld.among (overlapping (t + 1))) cache "/srv/*".toList
      overlappingSkill =
      (.ok (.ok (overlappingEntry root)), overlappingCache root)) :
    entryRoots (buildAt overlappingWorld overlapping t cache).1 = [root] := by
  rw [buildAt, show overlappingWorld.roots = ["/srv/*".toList, "/srv/a".toList] from rfl, scanRoots,
    scanFiles_overlapping ht (by decide), scanFiles, h]
  simp only [scanFiles, scanRoots]
  rw [scanFiles_overlapping (by omega) (by decide), scanFiles,
    parseRooted_overlapping_cache (by omega)]
  rfl

end Overlapping

/-- The second call gives the entry with the second root, for which the first call has parsed it. -/
theorem overlapping_roots :
    ¬ ∀ W H gaps, Faithful H → calls W H gaps 0 [] = callsAfresh W H gaps 0 := by
  intro hall
  have hfirst : buildAt overlappingWorld overlapping 0 [] =
      (.ok ((⟨[], [], []⟩ : RootedIndex).add "/srv/a".toList overlappingSkill
        (.ok (overlappingEntry "/srv/a".toList))),
        overlappingCache "/srv/a".toList, 3) := by
    have hnone : (overlapping 0).glob "/srv/*".toList = [] := by simp [overlapping]
    rw [buildAt, show overlappingWorld.roots = ["/srv/*".toList, "/srv/a".toList] from rfl,
      scanRoots, hnone, List.mergeSort_nil]
    simp only [scanFiles, scanRoots]
    rw [scanFiles_overlapping (by omega) (by decide), scanFiles,
      parseRooted_overlapping_nil (by omega)]
    rfl
  have heq := hall overlappingWorld overlapping [0, 0] faithful_overlapping
  simp only [calls, callsAfresh, hfirst, Nat.add_zero, List.cons.injEq, true_and, and_true] at heq
  have hroots := congrArg entryRoots heq
  rw [entryRoots_buildAt (by omega) (parseRooted_overlapping_cache (by omega) _ _),
    entryRoots_buildAt (by omega) (parseRooted_overlapping_nil (by omega) _)] at hroots
  exact absurd hroots (by decide)

end

end OracleSkills.Server
