import OracleSkills.Coding.Worklist
import OracleSkills.Greedy.Fit
import OracleSkills.Janitor.Cold
import OracleSkills.Server.InventoryHook

/-!
# The listings in the transcripts

`listing_report.py` looks for the listings in the transcripts: `scan` gives "every initial listing
in `paths`, plus what the session did with skills". A line is parsed only if it has one of two words
in it, `_attachments` goes through a record with a stack of its own, and a listing is dated "from
the record -- NOT the file's mtime", which "picked a stale listing as the current one".

`scan_exact`: of lines on which the two words are written out, these are all the listings of all the
records, each once, in the order of their times. The last one is the newest.

What is *not* formalized: the decoding of the files, and times that are no number. A line is the
text that the loop is given.
-/

namespace OracleSkills.Listing

open Python Coding
open Server.Rpc (Json)
open Server.InventoryHook (orEmpty isIn)
open Janitor (field commandName invocations)

universe u v

/-! ### Records -/

/-- The nodes of a JSON value, as the loop of `_attachments` goes through them. -/
def subvalues : Json → List Json
  | .arr items => items
  | .obj members => members.map Prod.snd
  | _ => []

mutual

/-- How many values there are in a value, itself among them. -/
def valueCount : Json → ℕ
  | .arr items => itemsCount items + 1
  | .obj members => membersCount members + 1
  | _ => 1

def itemsCount : List Json → ℕ
  | [] => 0
  | x :: xs => valueCount x + itemsCount xs

def membersCount : List (Text × Json) → ℕ
  | [] => 0
  | (_, x) :: xs => valueCount x + membersCount xs

end

theorem load_items (items : List Json) : load valueCount items = itemsCount items := by
  induction items with
  | nil => rfl
  | cons x xs ih => rw [load, ih, itemsCount]

theorem load_members (members : List (Text × Json)) :
    load valueCount (members.map Prod.snd) = membersCount members := by
  induction members with
  | nil => rfl
  | cons x xs ih => rw [List.map_cons, load, ih, membersCount]

/-- The values in a value are fewer. -/
theorem load_subvalues_lt (v : Json) : load valueCount (subvalues v) < valueCount v := by
  cases v with
  | arr items =>
    rw [subvalues, load_items, valueCount]
    exact Nat.lt_succ_self _
  | obj members =>
    rw [subvalues, load_members, valueCount]
    exact Nat.lt_succ_self _
  | _ => exact Nat.zero_lt_one

/-- A value with the values in it. -/
def values : Branching Json where
  children := subvalues
  weight := valueCount
  load_lt := load_subvalues_lt

/-- `node.get("type") == "skill_listing"`, of a dictionary. -/
def isListing (node : Json) : Bool := (field "type" node).any (Json.isText "skill_listing")

/-- `_attachments`. -/
def attachments (record : Json) : List Json :=
  values.walk (fun found node => if isListing node then found ++ [node] else found) [] [record]

/-- `att.get("isInitial")`. -/
def isInitial (att : Json) : Bool := (field "isInitial" att).any Json.truthy

/-- `att.get("content") or ""`. -/
def contentOf (att : Json) : Json := ((field "content" att).filter Json.truthy).getD (.lit "")

/-! ### Transcripts -/

variable {F : Type u} {A : Type u} {B : Type v}

/-- A file of a session. -/
structure Transcript (F : Type u) where
  path : Text
  /-- `os.path.getsize`, `none` for an `OSError`. -/
  size : Option ℕ
  /-- The lines of the file, `none` where it cannot be read. -/
  lines : Option (List Text)
  /-- `os.path.getmtime`. -/
  mtime : Option F

/-- What parses the lines and the times. -/
structure Reader (F : Type u) where
  /-- `json.loads`, `none` for a `ValueError`. -/
  loads : Text → Option Json
  /-- `datetime.fromisoformat(..).timestamp()`, `none` for a `ValueError`. -/
  fromisoformat : Text → Option F

/-- A row of the scan. -/
structure Row (F : Type u) where
  path : Text
  mtime : F
  content : Json
  invoked : List Text

/-- `_when`, `none` where it raises. -/
def whenBuilt (R : Reader F) (f : Transcript F) : Json → Option F
  | .obj record =>
    match (Dict.get? "timestamp".toList record).filter Json.truthy with
    | none => f.mtime
    | some (.str stamp) => (R.fromisoformat (replaceAll ['Z'] "+00:00".toList stamp)).or f.mtime
    | some _ => none
  | _ => none

/-- What a loop collects, `none` where it raises. -/
def collect (f : A → Option (List B)) : List A → Option (List B)
  | [] => some []
  | a :: as => (f a).bind fun xs => (collect f as).map (xs ++ ·)

/-- The initial listings of a record, with their time. -/
def initials (R : Reader F) (f : Transcript F) (record : Json) : Option (List (F × Json)) :=
  collect (fun att => if isInitial att then (whenBuilt R f record).map fun t =>
    [(t, contentOf att)] else some []) (attachments record)

/-- The skill that a block of a message invokes. -/
def invokedBy (blk : Json) : Option (List Text) :=
  if (field "type" blk).any (Json.isText "tool_use") &&
      (field "name" blk).any (Json.isText "Skill") then
    match orEmpty (field "input" blk) with
    | .obj input =>
      match (Dict.get? "skill".toList input).filter Json.truthy with
      | none => some []
      | some (.str got) =>
        if strip got = [] then some [] else (commandName got).map fun name => [name]
      | some _ => none
    | _ => none
  else some []

/-- The skills that a record invokes. The models are kept as well, and must be hashable. -/
def invokedIn : Json → Option (List Text)
  | .obj record =>
    match orEmpty (Dict.get? "message".toList record) with
    | .obj msg =>
      if (Dict.get? "model".toList msg).any fun model => model.truthy && !model.hashable then none
      else
        match Dict.get? "content".toList msg with
        | some (.arr body) => collect invokedBy body
        | _ => some []
    | _ => none
  | _ => none

/-- `'"skill_listing"' in line`. -/
def hasListing (line : Text) : Bool := isIn "\"skill_listing\"".toList line

/-- `'"Skill"' in line`. -/
def hasSkill (line : Text) : Bool := isIn "\"Skill\"".toList line

/-- The initial listings of a line. -/
def lineListings (R : Reader F) (f : Transcript F) (line : Text) : Option (List (F × Json)) :=
  if hasListing line then ((R.loads line).map (initials R f)).getD (some []) else some []

/-- The skills that a line invokes. -/
def lineInvoked (R : Reader F) (line : Text) : Option (List Text) :=
  if hasSkill line then ((R.loads line).map invokedIn).getD (some []) else some []

/-- The rows of a file. -/
def scanFile (R : Reader F) (f : Transcript F) : Option (List (Row F)) :=
  if f.size = none ∨ f.size = some 0 then some []
  else
    f.lines.bind fun lines => (collect (lineListings R f) lines).bind fun listings =>
        (collect (lineInvoked R) lines).map fun invoked =>
      listings.map fun x => ⟨f.path, x.1, x.2, invoked⟩

/-- `scan`. -/
def scan [LinearOrder F] (R : Reader F) (paths : List (Transcript F)) : Option (List (Row F)) :=
  (collect (scanFile R) paths).map fun out => out.mergeSort fun x y => decide (x.mtime ≤ y.mtime)

/-! ### What is to be found -/

/-- The records of a file that is read. -/
def Transcript.records (R : Reader F) (f : Transcript F) : List Json :=
  if f.size = none ∨ f.size = some 0 then [] else (f.lines.getD []).filterMap R.loads

/-- The initial listings in a record, wherever they stand in it. -/
def listingsIn (R : Reader F) (f : Transcript F) (record : Json) : List (F × Json) :=
  ((values.nodes record).filter fun v => isListing v && isInitial v).filterMap fun att =>
    (whenBuilt R f record).map fun t => (t, contentOf att)

/-- The rows of a file, of all its records. -/
def listed (R : Reader F) (f : Transcript F) : List (Row F) :=
  ((f.records R).flatMap (listingsIn R f)).map fun x =>
    ⟨f.path, x.1, x.2, (f.records R).flatMap invocations⟩

/-- The two words are written out on the line, where the record has them. -/
structure Written (R : Reader F) (line : Text) : Prop where
  listing : ∀ record v, R.loads line = some record → values.Within v record → isListing v = true →
    hasListing line = true
  skill : ∀ record, R.loads line = some record → invocations record ≠ [] → hasSkill line = true

/-- The rows are the listings of the records, and the last one is the newest. -/
structure Scanned [LinearOrder F] (R : Reader F) (paths : List (Transcript F))
    (rows : List (Row F)) : Prop where
  each : rows.Perm (paths.flatMap (listed R))
  order : rows.Pairwise fun x y => x.mtime ≤ y.mtime
  /-- Those of one time are in the order of the files and lines. -/
  stable : ∀ t, rows.filter (fun x => decide (x.mtime = t)) =
    (paths.flatMap (listed R)).filter fun x => decide (x.mtime = t)
  newest : ∀ f ∈ paths, ∀ record ∈ f.records R, ∀ v, values.Within v record → isListing v = true →
    isInitial v = true →
    ∃ last t, rows.getLast? = some last ∧ whenBuilt R f record = some t ∧ t ≤ last.mtime

/-! ### The loops -/

variable {R : Reader F} {f : Transcript F} {record : Json} {line : Text}

theorem foldl_filter (p : A → Bool) (as acc : List A) :
    as.foldl (fun found a => if p a then found ++ [a] else found) acc = acc ++ as.filter p := by
  induction as generalizing acc with
  | nil => simp
  | cons a as ih =>
    rw [List.foldl_cons, ih, List.filter_cons]
    split_ifs <;> simp

/-- **The stack finds every listing of a record once.** -/
theorem attachments_eq (record : Json) :
    attachments record = (values.nodes record).filter isListing := by
  rw [attachments, Branching.walk_eq, foldl_filter, List.nil_append, List.flatMap_singleton]

/-- Where nothing raises, a loop collects what its turns give. -/
theorem collect_eq_some {g : A → Option (List B)} {as : List A} {bs : List B}
    (h : collect g as = some bs) :
    bs = as.flatMap (fun a => (g a).getD []) ∧ ∀ a ∈ as, ∃ xs, g a = some xs := by
  induction as generalizing bs with
  | nil => exact ⟨(Option.some.inj h).symm, fun a ha => absurd ha List.not_mem_nil⟩
  | cons a as ih =>
    rw [collect, Option.bind_eq_some_iff] at h
    obtain ⟨xs, ha, hmap⟩ := h
    obtain ⟨ys, has, rfl⟩ := Option.map_eq_some_iff.mp hmap
    obtain ⟨rfl, hall⟩ := ih has
    refine ⟨by rw [List.flatMap_cons, ha, Option.getD_some], ?_⟩
    rintro b (_ | ⟨_, hb⟩)
    · exact ⟨xs, ha⟩
    · exact hall b hb

/-- So it is with other turns that give the same. -/
theorem collect_eq_flatMap {g : A → Option (List B)} {as : List A} {bs : List B} {k : A → List B}
    (h : collect g as = some bs)
    (hk : ∀ a ∈ as, ∀ xs, g a = some xs → xs = k a) : bs = as.flatMap k := by
  obtain ⟨rfl, hall⟩ := collect_eq_some h
  rw [List.flatMap_def, List.flatMap_def, List.map_congr_left]
  intro a ha
  obtain ⟨xs, hxs⟩ := hall a ha
  rw [hxs, Option.getD_some, hk a ha xs hxs]

theorem flatMap_ite_toList (p q : A → Bool) (g : A → Option B) (as : List A) :
    (as.filter p).flatMap (fun a => if q a then (g a).toList else []) =
        (as.filter fun a => p a && q a).filterMap g := by
  induction as with
  | nil => rfl
  | cons a as ih =>
    cases hp : p a <;> cases hq : q a <;> cases hg : g a <;> simp [hp, hq, hg, ih]

/-- The listings of a record, -/
theorem initials_eq {xs : List (F × Json)} (h : initials R f record = some xs) :
    xs = listingsIn R f record := by
  rw [listingsIn, ← flatMap_ite_toList, ← attachments_eq]
  refine collect_eq_flatMap h fun att _ ys hys => ?_
  split_ifs at hys ⊢ with hinitial
  · obtain ⟨t, ht, rfl⟩ := Option.map_eq_some_iff.mp hys
    rw [ht]
    rfl
  · exact (Option.some.inj hys).symm

/-- whose time can be told. -/
theorem whenBuilt_of_initials {xs : List (F × Json)} (h : initials R f record = some xs) {v : Json}
    (hv : values.Within v record)
    (hlisting : isListing v = true) (hinitial : isInitial v = true) :
    ∃ t, whenBuilt R f record = some t := by
  have hmem : v ∈ attachments record := by
    rw [attachments_eq]
    exact List.mem_filter.mpr ⟨values.mem_nodes_iff.mpr hv, hlisting⟩
  obtain ⟨ys, hys⟩ := (collect_eq_some h).2 v hmem
  rw [if_pos hinitial] at hys
  obtain ⟨t, ht, -⟩ := Option.map_eq_some_iff.mp hys
  exact ⟨t, ht⟩

theorem commandName_blank {got : Text} (h : strip got = []) : commandName got = none := by
  obtain ⟨x, y, heq, hx, hy⟩ := exists_strip got
  rw [h, List.append_nil] at heq
  have hspace : ∀ c ∈ got.dropWhile (· = '/'), (!isSpace c) = false := by
    intro c hc
    have hmem : c ∈ x ++ y := heq ▸ (List.dropWhile_suffix _).subset hc
    rcases List.mem_append.mp hmem with hm | hm
    · rw [hx c hm]
      rfl
    · rw [hy c hm]
      rfl
  have hruns := runs_append_left hspace []
  rw [List.append_nil, runs_nil] at hruns
  rw [commandName, hruns]
  rfl

theorem field_of_falsy {v : Json} (h : v.truthy = false) (key : String) : field key v = none := by
  cases v with
  | obj members =>
    cases members with
    | nil => rfl
    | cons x xs => cases h
  | _ => rfl

/-- A field of a value, or of nothing in its place. -/
theorem get?_orEmpty {o : Option Json} {m : List (Text × Json)} (h : orEmpty o = .obj m)
    (key : String) :
    Dict.get? key.toList m = o.bind (field key) := by
  cases o with
  | none =>
    cases h
    rfl
  | some v =>
    rw [orEmpty] at h
    split_ifs at h with htruthy
    · rw [h]
      rfl
    · cases h
      exact (field_of_falsy (Bool.not_eq_true _ ▸ htruthy) key).symm

/-- The skill of a block, if its call can be read. -/
theorem invokedBy_eq {blk : Json} {xs : List Text} (h : invokedBy blk = some xs) :
    xs = (Janitor.blockSkill blk).toList := by
  rw [invokedBy] at h
  rw [Janitor.blockSkill]
  split_ifs at h with hcall
  · rw [if_pos hcall]
    split at h
    next input hinput =>
      rw [← get?_orEmpty hinput "skill"]
      cases hskill : Dict.get? "skill".toList input with
      | none =>
        rw [hskill] at h
        exact (Option.some.inj h).symm
      | some v =>
        rw [hskill, Option.filter_some] at h
        cases htruthy : v.truthy with
        | false =>
          rw [htruthy] at h
          have hxs : xs = [] := (Option.some.inj h).symm
          cases v with
          | str got =>
            have hgot : got = [] := by simpa [Json.truthy] using htruthy
            rw [hxs, hgot]
            rfl
          | _ => exact hxs
        | true =>
          rw [htruthy] at h
          cases v with
          | str got =>
            simp only [if_true] at h ⊢
            split_ifs at h with hblank
            · rw [commandName_blank hblank]
              exact (Option.some.inj h).symm
            · obtain ⟨name, hname, rfl⟩ := Option.map_eq_some_iff.mp h
              rw [hname]
              rfl
          | _ => cases h
    next => cases h
  · rw [if_neg hcall]
    exact (Option.some.inj h).symm

/-- The skills of a record. -/
theorem invokedIn_eq {xs : List Text} (h : invokedIn record = some xs) :
    xs = invocations record := by
  cases record with
  | obj members =>
    rw [invokedIn] at h
    split at h
    next msg hmsg =>
      have hcontent := get?_orEmpty hmsg "content"
      have hfield : (field "message" (.obj members)).bind (field "content") =
          Dict.get? "content".toList msg := hcontent.symm
      rw [invocations, hfield]
      split_ifs at h
      cases hbody : Dict.get? "content".toList msg with
      | none =>
        rw [hbody] at h
        exact (Option.some.inj h).symm
      | some v =>
        rw [hbody] at h
        cases v with
        | arr body =>
          simp only at h ⊢
          rw [collect_eq_flatMap h fun blk _ ys hys => invokedBy_eq hys,
            List.filterMap_eq_flatMap_toList]
        | _ => exact (Option.some.inj h).symm
    next => cases h
  | _ => cases h

/-! ### Lines and files -/

/-- **A line that is not parsed has nothing.** -/
theorem lineListings_eq (hw : Written R line) {xs : List (F × Json)}
    (h : lineListings R f line = some xs) :
    xs = (R.loads line).toList.flatMap (listingsIn R f) := by
  rw [lineListings] at h
  cases hload : R.loads line with
  | none =>
    rw [hload] at h
    exact (Option.some.inj ((ite_self _).symm.trans h)).symm
  | some record =>
    rw [hload] at h
    rw [Option.toList_some, List.flatMap_singleton]
    split_ifs at h with hword
    · exact initials_eq h
    · have hnone : (values.nodes record).filter (fun v => isListing v && isInitial v) = [] := by
        refine List.filter_eq_nil_iff.mpr fun v hv hboth => hword ?_
        exact hw.listing record v hload (values.mem_nodes_iff.mp hv)
          (Bool.and_eq_true _ _ ▸ hboth).1
      rw [listingsIn, hnone, List.filterMap_nil]
      exact (Option.some.inj h).symm

theorem lineInvoked_eq (hw : Written R line) {xs : List Text} (h : lineInvoked R line = some xs) :
    xs = (R.loads line).toList.flatMap invocations := by
  rw [lineInvoked] at h
  cases hload : R.loads line with
  | none =>
    rw [hload] at h
    exact (Option.some.inj ((ite_self _).symm.trans h)).symm
  | some record =>
    rw [hload] at h
    rw [Option.toList_some, List.flatMap_singleton]
    split_ifs at h with hword
    · exact invokedIn_eq h
    · have hnone : invocations record = [] := by
        by_contra hne
        exact hword (hw.skill record hload hne)
      rw [hnone]
      exact (Option.some.inj h).symm

theorem flatMap_parsed {C : Type*} {D : Type*} (loads : A → Option C) (k : C → List D)
    (as : List A) :
    as.flatMap (fun a => (loads a).toList.flatMap k) = (as.filterMap loads).flatMap k := by
  rw [List.filterMap_eq_flatMap_toList, List.flatMap_assoc]

/-- A file has the rows of its records. -/
theorem scanFile_eq (hw : ∀ lines, f.lines = some lines → ∀ line ∈ lines, Written R line)
    {rows : List (Row F)} (h : scanFile R f = some rows) : rows = listed R f := by
  rw [scanFile] at h
  rw [listed, Transcript.records]
  split_ifs at h ⊢ with hempty
  · exact (Option.some.inj h).symm
  · obtain ⟨lines, hlines, h⟩ := Option.bind_eq_some_iff.mp h
    obtain ⟨listings, hlistings, h⟩ := Option.bind_eq_some_iff.mp h
    obtain ⟨invoked, hinvoked, rfl⟩ := Option.map_eq_some_iff.mp h
    have hlistings := collect_eq_flatMap hlistings fun line hline xs hxs =>
      lineListings_eq (hw lines hlines line hline) hxs
    have hinvoked := collect_eq_flatMap hinvoked fun line hline xs hxs =>
      lineInvoked_eq (hw lines hlines line hline) hxs
    rw [hlistings, hinvoked, hlines, Option.getD_some, flatMap_parsed, flatMap_parsed]

/-- The time of an initial listing can be told, where the file is read to its end. -/
theorem whenBuilt_of_scanFile (hw : ∀ lines, f.lines = some lines → ∀ line ∈ lines, Written R line)
    {rows : List (Row F)} (h : scanFile R f = some rows) (hrecord : record ∈ f.records R) {v : Json}
    (hv : values.Within v record)
    (hlisting : isListing v = true) (hinitial : isInitial v = true) :
    ∃ t, whenBuilt R f record = some t := by
  rw [scanFile] at h
  rw [Transcript.records] at hrecord
  split_ifs at h hrecord
  · cases hrecord
  · obtain ⟨lines, hlines, h⟩ := Option.bind_eq_some_iff.mp h
    obtain ⟨listings, hlistings, -⟩ := Option.bind_eq_some_iff.mp h
    rw [hlines, Option.getD_some, List.mem_filterMap] at hrecord
    obtain ⟨line, hline, hload⟩ := hrecord
    obtain ⟨xs, hxs⟩ := (collect_eq_some hlistings).2 line hline
    rw [lineListings, if_pos ((hw lines hlines line hline).listing record v hload hv hlisting),
      hload] at hxs
    exact whenBuilt_of_initials hxs hv hlisting hinitial

theorem mem_listed (hrecord : record ∈ f.records R) {v : Json} (hv : values.Within v record)
    (hlisting : isListing v = true)
    (hinitial : isInitial v = true) {t : F} (ht : whenBuilt R f record = some t) :
    ⟨f.path, t, contentOf v, (f.records R).flatMap invocations⟩ ∈ listed R f := by
  have hfound : (t, contentOf v) ∈ listingsIn R f record := by
    refine List.mem_filterMap.mpr ⟨v, List.mem_filter.mpr ⟨values.mem_nodes_iff.mpr hv, ?_⟩, ?_⟩
    · rw [hlisting, hinitial]
      rfl
    · rw [ht]
      rfl
  exact List.mem_map.mpr ⟨_, List.mem_flatMap.mpr ⟨record, hrecord, hfound⟩, rfl⟩

/-- In a list that is in order nothing comes after the last item. -/
theorem exists_last (T : A → A → Prop) (hrefl : ∀ a, T a a) {as : List A} (h : as.Pairwise T)
    {a : A} (ha : a ∈ as) :
    ∃ last, as.getLast? = some last ∧ T a last := by
  obtain ⟨init, last, rfl⟩ : ∃ init last, as = init ++ [last] :=
    ⟨_, _, (List.dropLast_concat_getLast (List.ne_nil_of_mem ha)).symm⟩
  refine ⟨last, List.getLast?_concat, ?_⟩
  rcases List.mem_append.mp ha with ha | ha
  · exact (List.pairwise_append.mp h).2.2 a ha last (List.mem_singleton.mpr rfl)
  · exact List.mem_singleton.mp ha ▸ hrefl a

/-- The rows in the order of their times. -/
theorem mergeSort_eq [LinearOrder F] (rows : List (Row F)) :
    rows.mergeSort (fun x y => decide (x.mtime ≤ y.mtime)) =
    Greedy.descending (fun x : Row F => OrderDual.toDual x.mtime) rows := rfl

theorem pairwise_mtime [LinearOrder F] (rows : List (Row F)) :
    (Greedy.descending (fun x : Row F => OrderDual.toDual x.mtime) rows).Pairwise fun x y =>
        x.mtime ≤ y.mtime := by
  have hany : rows.Pairwise fun _ _ => True := List.pairwise_of_forall fun _ _ => trivial
  refine (Greedy.pairwise_descending (fun x : Row F => OrderDual.toDual x.mtime) hany).imp fun h =>
    ?_
  rcases h with hlt | ⟨heq, -⟩
  · exact (OrderDual.toDual_lt_toDual.mp hlt).le
  · exact (OrderDual.toDual_inj.mp heq).ge

/-- A scan that comes to its end has the rows of the files. -/
theorem scan_eq [LinearOrder F] {paths : List (Transcript F)}
    (hw : ∀ f ∈ paths, ∀ lines, f.lines = some lines → ∀ line ∈ lines, Written R line)
    {rows : List (Row F)}
    (h : scan R paths = some rows) :
    rows = Greedy.descending (fun x : Row F => OrderDual.toDual x.mtime)
      (paths.flatMap (listed R)) ∧
      ∀ f ∈ paths, ∃ xs, scanFile R f = some xs := by
  obtain ⟨out, hout, rfl⟩ := Option.map_eq_some_iff.mp h
  rw [mergeSort_eq, collect_eq_flatMap hout fun f hf xs hxs => scanFile_eq (hw f hf) hxs]
  exact ⟨rfl, (collect_eq_some hout).2⟩

/-- **The scan** gives all the listings, each once, and the newest last: whatever the files, where
it comes to its end, and where no line spells one of the two words in another way. -/
theorem scan_exact [LinearOrder F] (R : Reader F) (paths : List (Transcript F))
    (hw : ∀ f ∈ paths, ∀ lines, f.lines = some lines → ∀ line ∈ lines, Written R line)
    {rows : List (Row F)}
    (h : scan R paths = some rows) : Scanned R paths rows := by
  obtain ⟨rfl, hread⟩ := scan_eq hw h
  refine ⟨Greedy.descending_perm .., pairwise_mtime _, fun t => ?_, ?_⟩
  · exact Greedy.filter_descending (fun x : Row F => OrderDual.toDual x.mtime) _
      (OrderDual.toDual t)
  · intro f hf record hrecord v hv hlisting hinitial
    obtain ⟨xs, hxs⟩ := hread f hf
    obtain ⟨t, ht⟩ := whenBuilt_of_scanFile (hw f hf) hxs hrecord hv hlisting hinitial
    have hmem := List.mem_flatMap.mpr ⟨f, hf, mem_listed hrecord hv hlisting hinitial ht⟩
    obtain ⟨last, hlast, hle⟩ := exists_last (fun x y : Row F => x.mtime ≤ y.mtime)
      (fun _ => le_rfl) (pairwise_mtime _)
      ((Greedy.descending_perm (fun x : Row F => OrderDual.toDual x.mtime) _).mem_iff.mpr hmem)
    exact ⟨last, t, hlast, ht, hle⟩

/-- A listing in a transcript, and calls of two of its skills. -/
def listingLine : Text :=
  "\x7b\"attachment\": \x7b".toList ++ "\"type\": \"skill_listing\", ".toList ++
    "\"isInitial\": true, ".toList ++ "\"content\": \"- a\\n- b\\n".toList ++
    "- c\\n- d\\n- e: f\"\x7d\x7d".toList

def callsLine : Text :=
  "\x7b\"message\": \x7b\"content\": [".toList ++
    "\x7b\"type\": \"tool_use\", ".toList ++ "\"name\": \"Skill\", ".toList ++
    "\"input\": \x7b\"skill\": \"a\"\x7d\x7d, ".toList ++
    "\x7b\"type\": \"tool_use\", ".toList ++ "\"name\": \"Skill\", ".toList ++
    "\"input\": \x7b\"skill\": \"e\"\x7d\x7d".toList ++ "]\x7d\x7d".toList

def sampleContent : Json := .lit "- a\n- b\n- c\n- d\n- e: f"

def sampleAttachment : Json :=
  .obj [("type".toList, .lit "skill_listing"), ("isInitial".toList, .bool true),
    ("content".toList, sampleContent)]

def listingRecord : Json := .obj [("attachment".toList, sampleAttachment)]

/-- The call of a skill. -/
def callBlock (skill : String) : Json :=
  .obj [("type".toList, .lit "tool_use"), ("name".toList, .lit "Skill"),
    ("input".toList, .obj [("skill".toList, .lit skill)])]

def callsRecord : Json :=
  .obj [("message".toList, .obj [("content".toList, .arr [callBlock "a", callBlock "e"])])]

/-- What `json.loads` makes of the two lines. -/
def sampleReader : Reader ℕ where
  loads line := if line = listingLine then some listingRecord else if line = callsLine then
    some callsRecord else none
  fromisoformat _ := none

def sampleTranscript : Transcript ℕ :=
  ⟨"s.jsonl".toList, some 1, some [listingLine, callsLine], some 5⟩

def sampleRow : Row ℕ := ⟨"s.jsonl".toList, 5, sampleContent, ["a".toList, "e".toList]⟩

theorem hasListing_sample : hasListing listingLine = true ∧ hasListing callsLine = false := by
  constructor <;> decide +kernel

theorem hasSkill_sample :
    hasSkill listingLine = false ∧ hasSkill callsLine = true := by constructor <;> decide +kernel

theorem loads_sample : sampleReader.loads listingLine = some listingRecord ∧
    sampleReader.loads callsLine = some callsRecord := by
  have hne : callsLine ≠ listingLine := by decide +kernel
  constructor
  · simp only [sampleReader, if_true]
  · simp only [sampleReader, hne, if_false, if_true]

/-- The listing is found in the record, and dated by the file, as the record has no time. -/
theorem scan_sample : scan sampleReader [sampleTranscript] = some [sampleRow] := by
  have hattachments : attachments listingRecord = [sampleAttachment] := by
    rw [attachments_eq]
    simp only [listingRecord, Branching.nodes_eq, values, subvalues, sampleAttachment,
      sampleContent, List.map_cons, List.map_nil, List.reverse_cons, List.reverse_nil,
      List.nil_append, List.flatMap_cons, List.flatMap_nil, List.append_nil, List.cons_append]
    rfl
  have hinitials : initials sampleReader sampleTranscript listingRecord =
      some [(5, sampleContent)] := by
    rw [initials, hattachments]
    rfl
  have hlisting : lineListings sampleReader sampleTranscript listingLine =
      some [(5, sampleContent)] := by
    rw [lineListings, if_pos hasListing_sample.1, loads_sample.1]
    exact hinitials
  have hother : lineListings sampleReader sampleTranscript callsLine = some [] :=
    if_neg (by rw [hasListing_sample.2]; exact Bool.false_ne_true)
  have hnone : lineInvoked sampleReader listingLine = some [] :=
    if_neg (by rw [hasSkill_sample.1]; exact Bool.false_ne_true)
  have hcalls : lineInvoked sampleReader callsLine = some ["a".toList, "e".toList] := by
    rw [lineInvoked, if_pos hasSkill_sample.2, loads_sample.2]
    decide +kernel
  have hfile : scanFile sampleReader sampleTranscript = some [sampleRow] := by
    have hread : sampleTranscript.lines = some [listingLine, callsLine] := rfl
    rw [scanFile, if_neg (by decide), hread]
    simp only [Option.bind_some, collect, hlisting, hother, hnone, hcalls]
    rfl
  rw [scan, collect, hfile]
  simp [collect]

theorem written_sample : ∀ f ∈ [sampleTranscript], ∀ lines, f.lines = some lines →
    ∀ line ∈ lines, Written sampleReader line := by
  intro f hf lines hlines line hline
  obtain rfl := List.mem_singleton.mp hf
  have hread : sampleTranscript.lines = some [listingLine, callsLine] := rfl
  rw [hread, Option.some.injEq] at hlines
  subst hlines
  rcases List.mem_pair.mp hline with h | h <;> rw [h]
  · refine ⟨fun _ _ _ _ _ => hasListing_sample.1, fun record hload hne => ?_⟩
    obtain rfl := Option.some.inj (loads_sample.1.symm.trans hload)
    exact absurd rfl hne
  · refine ⟨fun record v hload hv hlisting => ?_, fun _ _ _ => hasSkill_sample.2⟩
    obtain rfl := Option.some.inj (loads_sample.2.symm.trans hload)
    have hnodes : (values.nodes callsRecord).filter isListing = [] := by
      simp only [callsRecord, callBlock, Branching.nodes_eq, values, subvalues, List.map_cons,
        List.map_nil, List.reverse_cons, List.reverse_nil, List.nil_append, List.flatMap_cons,
        List.flatMap_nil, List.append_nil, List.cons_append, Server.Rpc.Json.lit]
      decide +kernel
    have hmem := List.mem_filter.mpr ⟨values.mem_nodes_iff.mpr hv, hlisting⟩
    rw [hnodes] at hmem
    exact absurd hmem List.not_mem_nil

theorem scan_exact_sample : Scanned sampleReader [sampleTranscript] [sampleRow] :=
  scan_exact sampleReader [sampleTranscript] written_sample scan_sample

end OracleSkills.Listing
