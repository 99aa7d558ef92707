import OracleSkills.Janitor.Cold
import OracleSkills.Janitor.Overrides
import OracleSkills.Listing.Budget

/-!
# Runs of the janitor

`main` names the cold skills, and with `--apply` merges them into the overrides. It is run again and
again, over other transcripts and other skills, with other states, and any step of a run may fail.
What the settings hold then is what they held, with the cold skills of the runs that came to their
end set in the order of these, and each of them has reported what it has changed (`janitor_runs`).

`listing_report.py` reads the overrides back, as the skills that are listed by their names alone:
after such runs, the default state given, those that were so and those that some run has found cold.
`janitor_frees` says what that comes to in the listing.
-/

namespace OracleSkills.Janitor

open Python
open Server.Rpc (Json)
open Server.InventoryHook (orEmpty)
open Listing (Settings Entry parseListing Report simulate_eq_ok_iff bareLen_le)

universe u v

variable {A : Type u} {C : Type v} [LT A] [DecidableLT A]

/-! ### A run, and many -/

/-- A run: what it finds, its arguments, and the steps that fail. -/
structure Run (A : Type u) where
  setting : Setting A
  dirs : List SkillDir
  state : Text
  apply : Bool
  fault : Step → Bool

/-- `cold`. -/
def Run.cold (r : Run A) : List Text := (sweep r.setting r.dirs).cold

/-- `main`: the end of `_write_overrides`, if it is called. -/
def main (J : Codec C) (disk : Disk C) (r : Run A) : Option Exit × Disk C :=
  if r.apply = true ∧ r.cold ≠ [] then
    (some (writeOverrides J r.fault disk r.cold r.state).1,
      (writeOverrides J r.fault disk r.cold r.state).2)
  else (none, disk)

/-- One run after another, each with how it has ended. -/
def mains (J : Codec C) : List (Run A) → Disk C → List (Run A × Option Exit) × Disk C
  | [], disk => ([], disk)
  | r :: rs, disk =>
    ((r, (main J disk r).1) :: (mains J rs (main J disk r).2).1, (mains J rs (main J disk r).2).2)

/-- A run that has come to the end of `_write_overrides`. -/
def wrote (x : Run A × Option Exit) : Bool :=
  match x.2 with
  | some (.returned _) => true
  | _ => false

/-- The runs that have written. -/
def written (log : List (Run A × Option Exit)) : List (Run A) := (log.filter wrote).map Prod.fst

/-- The overrides with the cold skills of a run set. -/
def Run.merged (s : Dict Text Json) (r : Run A) : Dict Text Json :=
  r.cold.foldl (fun d n => d.set n (.str r.state)) s

/-- The override of a skill is the state: `overrides.get(n) == state`. -/
def isSet (s : Dict Text Json) (state n : Text) : Bool :=
  match s.get? n with
  | some (.str v) => v = state
  | _ => false

/-- The settings have the overrides, and `data` for the rest. -/
structure Holds (J : Codec C) (content : C) (data s : Dict Text Json) : Prop where
  nodup : s.keys.Nodup
  settings : ∃ data' : Dict Text Json, J.parse content = some (.obj data') ∧
    orEmpty (data'.get? "skillOverrides".toList) = .obj s ∧
    ∀ k, k ≠ "skillOverrides".toList → data'.get? k = data.get? k

/-! ### What a run does -/

variable {J : Codec C} {disk : Disk C} {data s : Dict Text Json} {r : Run A} {names : List Text}
  {state n : Text}

theorem nodup_keys_foldl (names : List Text) (v : Json) {s : Dict Text Json} (h : s.keys.Nodup) :
    (names.foldl (fun d n => d.set n v) s).keys.Nodup := by
  induction names generalizing s with
  | nil => exact h
  | cons n names ih => exact ih (Dict.nodup_keys_set v h)

theorem get?_foldl_set (names : List Text) (v : Json) (s : Dict Text Json) :
    (names.foldl (fun d n => d.set n v) s).get? n = if n ∈ names then some v else s.get? n := by
  induction names generalizing s with
  | nil => rfl
  | cons m names ih =>
    rw [List.foldl_cons, ih, Dict.get?_set]
    by_cases hmem : n ∈ names
    · rw [if_pos hmem, if_pos (List.mem_cons_of_mem _ hmem)]
    · rw [if_neg hmem]
      by_cases heq : n = m
      · rw [if_pos heq, if_pos (heq ▸ List.mem_cons_self ..)]
      · rw [if_neg heq, if_neg fun h => (List.mem_cons.mp h).elim heq hmem]

/-- An object is a mapping with strings for keys. -/
theorem dictOf_obj (J : Codec C) (h : s.keys.Nodup) : dictOf J.same (.obj s) = some (lift s) := by
  have hfold : ∀ (s d : Dict Text Json), (d.keys ++ s.keys).Nodup →
      s.foldl (fun d m => setKey J.same (.str m.1) m.2 d) (lift d) = lift (d ++ s) := by
    intro s
    induction s with
    | nil => exact fun d _ => by rw [List.append_nil]; rfl
    | cons kv s ih =>
      intro d hd
      have hnot : kv.1 ∉ d.keys := fun hmem =>
        (List.nodup_append.mp hd).2.2 kv.1 hmem kv.1 (List.mem_cons_self ..) rfl
      rw [List.foldl_cons, setKey_lift, Dict.set_of_not_mem _ hnot, ih]
      · rw [List.append_assoc]
        rfl
      · rw [Dict.keys, List.map_append, List.append_assoc]
        exact hd
  exact congrArg some (hfold s [] h)

theorem orEmpty_obj (m : Dict Text Json) : orEmpty (some (.obj m)) = .obj m := by
  cases m <;> rfl

theorem any_same_eq (J : Codec C) (s : Dict Text Json) (state n : Text) :
    ((s.get? n).any fun v => J.same v (.str state)) = isSet s state n := by
  rw [isSet]
  cases s.get? n with
  | none => rfl
  | some v =>
    rw [Option.any_some, Bool.eq_iff_iff, J.same_str]
    cases v with
    | str t => rw [Json.str.injEq, decide_eq_true_eq]
    | _ => exact ⟨fun h => (by cases h), fun h => (by cases h)⟩

/-- **A call that does not raise after the rename** leaves the settings as they are, or sets the
names and tells those that it has changed. -/
theorem holds_writeOverrides (h : Holds J disk.settings data s) {fault : Step → Bool}
    (hexit : (writeOverrides J fault disk names state).1 ≠ .raised true) :
    (writeOverrides J fault disk names state).2.settings = disk.settings ∧
        (∀ as, (writeOverrides J fault disk names state).1 ≠ .returned as) ∨
      Holds J (writeOverrides J fault disk names state).2.settings data
        (names.foldl (fun d n => d.set n (.str state)) s) ∧
        (writeOverrides J fault disk names state).1 =
          .returned (names.filter fun n => !isSet s state n) := by
  obtain ⟨data', hparse, hoverrides, hrest⟩ := h.settings
  rcases ends_writeOverrides J fault disk names state with
    hsame | hraised | ⟨data₀, overrides, text, hwrites, hreturned, hsettings⟩
  · exact .inl hsame
  · exact absurd hraised hexit
  · refine .inr ?_
    cases hparse.symm.trans hwrites.parses
    have hmapping := hwrites.mapping
    rw [overridesOf, hoverrides, dictOf_obj J h.nodup, Option.some.injEq] at hmapping
    subst hmapping
    have hnodup := nodup_keys_foldl names (.str state) h.nodup
    refine ⟨⟨hnodup, _, hsettings ▸ J.parse_dumps hwrites.dumps, ?_, fun k hk => ?_⟩, ?_⟩
    · rw [Dict.get?_set_self, orEmpty_obj, update_lift, writtenKeys_lift hnodup]
    · rw [Dict.get?_set_of_ne _ hk, hrest k hk]
    · rw [hreturned, added]
      refine congrArg Exit.returned (List.filter_congr fun n _ => ?_)
      rw [getKey_lift, any_same_eq]

/-- The exits of a log, none of which is an exception after the rename. -/
def Intact (log : List (Run A × Option Exit)) : Prop := ∀ x ∈ log, x.2 ≠ some (.raised true)

/-- A run that has written reports the cold skills whose override it has changed. -/
def Reports (s : Dict Text Json) (log : List (Run A × Option Exit)) : Prop :=
  ∀ pre r as post, log = pre ++ (r, some (.returned as)) :: post →
    as = r.cold.filter fun n => !isSet ((written pre).foldl Run.merged s) r.state n

omit [LT A] [DecidableLT A] in
theorem written_cons (x : Run A × Option Exit) (log : List (Run A × Option Exit)) :
    written (x :: log) = if wrote x then x.1 :: written log else written log := by
  rw [written, List.filter_cons]
  split_ifs <;> rfl

/-- **One run**: it leaves the settings as they are, or sets the cold skills, and reports those that
it has changed. -/
theorem holds_main (h : Holds J disk.settings data s) (r : Run A)
    (hexit : (main J disk r).1 ≠ some (.raised true)) :
    (main J disk r).2.settings = disk.settings ∧ wrote (r, (main J disk r).1) = false ∨
      Holds J (main J disk r).2.settings data (r.merged s) ∧
        (main J disk r).1 = some (.returned (r.cold.filter fun n => !isSet s r.state n)) := by
  unfold main at hexit ⊢
  by_cases happly : r.apply = true ∧ r.cold ≠ []
  · rw [if_pos happly] at hexit ⊢
    refine (holds_writeOverrides h fun heq => hexit (congrArg some heq)).imp
        (fun hsame => ⟨hsame.1, ?_⟩) fun hmerged =>
      ⟨hmerged.1, congrArg some hmerged.2⟩
    cases hend : (writeOverrides J r.fault disk r.cold r.state).1 with
    | returned as => exact absurd hend (hsame.2 as)
    | _ => rfl
  · rw [if_neg happly]
    exact .inl ⟨rfl, rfl⟩

/-- **Any number of runs.** -/
theorem holds_mains (runs : List (Run A)) (h : Holds J disk.settings data s)
    (hlog : Intact (mains J runs disk).1) :
    Holds J (mains J runs disk).2.settings data
      ((written (mains J runs disk).1).foldl Run.merged s) ∧
      Reports s (mains J runs disk).1 := by
  induction runs generalizing disk s with
  | nil => exact ⟨h, fun pre r as post heq => absurd heq (by simp [mains])⟩
  | cons r rs ih =>
    obtain ⟨hexit, hrest⟩ := List.forall_mem_cons.mp hlog
    rcases holds_main h r hexit with ⟨hsame, hwrote⟩ | ⟨hmerged, hreturned⟩
    · obtain ⟨hholds, hreports⟩ := ih (hsame ▸ h) hrest
      have hwritten : written (mains J (r :: rs) disk).1 =
          written (mains J rs (main J disk r).2).1 := by
        rw [mains, written_cons, if_neg (by simp [hwrote])]
      refine ⟨hwritten ▸ hholds, fun pre r' as post heq => ?_⟩
      rw [mains] at heq
      cases pre with
      | nil =>
        rw [List.nil_append, List.cons.injEq, Prod.mk.injEq] at heq
        rw [heq.1.2] at hwrote
        cases hwrote
      | cons x pre =>
        obtain ⟨rfl, htail⟩ := List.cons.inj heq
        rw [written_cons, if_neg (by simp [hwrote])]
        exact hreports pre r' as post htail
    · have hwrote : wrote (r, (main J disk r).1) = true := by rw [hreturned]; rfl
      obtain ⟨hholds, hreports⟩ := ih hmerged hrest
      have hwritten : written (mains J (r :: rs) disk).1 = r ::
          written (mains J rs (main J disk r).2).1 := by
        rw [mains, written_cons, if_pos hwrote]
      refine ⟨hwritten ▸ hholds, fun pre r' as post heq => ?_⟩
      rw [mains] at heq
      cases pre with
      | nil =>
        rw [List.nil_append, List.cons.injEq, Prod.mk.injEq, hreturned] at heq
        obtain ⟨⟨rfl, hexits⟩, -⟩ := heq
        cases hexits
        rfl
      | cons x pre =>
        obtain ⟨rfl, htail⟩ := List.cons.inj heq
        rw [written_cons, if_pos hwrote]
        exact hreports pre r' as post htail

/-- Only a skill that was cold in a run that has written has another override. -/
theorem get?_foldl_merged (runs : List (Run A)) (s : Dict Text Json) (h : ∀ r ∈ runs, n ∉ r.cold) :
    (runs.foldl Run.merged s).get? n = s.get? n := by
  induction runs generalizing s with
  | nil => rfl
  | cons r rs ih =>
    obtain ⟨hr, hrs⟩ := List.forall_mem_cons.mp h
    rw [List.foldl_cons, ih _ hrs, Run.merged, get?_foldl_set, if_neg hr]

theorem mem_of_mem_written {runs : List (Run A)} (h : r ∈ written (mains J runs disk).1) :
    r ∈ runs := by
  have hruns : ∀ (runs : List (Run A)) (disk : Disk C),
      (mains J runs disk).1.map Prod.fst = runs := by
    intro runs
    induction runs with
    | nil => exact fun _ => rfl
    | cons r rs ih => exact fun disk => congrArg (r :: ·) (ih _)
  rw [written] at h
  exact hruns runs disk ▸ (List.filter_sublist.map Prod.fst).subset h

/-! ### A sample run -/

/-- A run that finds a skill without a date, and writes. -/
def sampleRun : Run ℤ := ⟨emptySetting, [undated], "name-only".toList, true, fun _ => false⟩

/-- The settings have an override of another skill. -/
def sampleDisk : Disk Json :=
  ⟨.obj [("skillOverrides".toList, .obj [("b".toList, .lit "name-only")]),
    ("model".toList, .lit "m")], none, none⟩

theorem cold_sampleRun : sampleRun.cold = ["x".toList] := by
  rw [Run.cold, sweep, sampleRun, List.mergeSort_singleton]
  decide

theorem main_sampleRun :
    (main plainCodec sampleDisk sampleRun).1 = some (.returned ["x".toList]) := by
  rw [main, cold_sampleRun]
  rfl

theorem intact_sampleRun : Intact (mains plainCodec [sampleRun] sampleDisk).1 := by
  intro x hx
  obtain rfl := List.mem_singleton.mp hx
  rw [main_sampleRun]
  exact fun heq => (by cases heq)

theorem written_sampleRun : written (mains plainCodec [sampleRun] sampleDisk).1 = [sampleRun] := by
  have hwrote : wrote (sampleRun, (main plainCodec sampleDisk sampleRun).1) = true := by
    rw [main_sampleRun]; rfl
  rw [mains, written_cons, if_pos hwrote]
  rfl

theorem holds_sampleDisk :
    Holds plainCodec sampleDisk.settings [("model".toList, .lit "m")]
    [("b".toList, .lit "name-only")] := by
  refine ⟨by decide, _, rfl, rfl, fun k hk => ?_⟩
  rw [Dict.get?, if_neg fun heq => hk heq.symm]

/-! ### The settings after many runs -/

/-- **Runs of the janitor**: after any number of them, over any skills and transcripts, with any
step failing, but for an exception after the rename, the settings hold what they held, with the cold
skills of the runs that have written set in their order, and no other override is another one. Each
of these runs has reported the cold skills whose override it has changed. -/
theorem janitor_runs (J : Codec C) (disk : Disk C) (data s : Dict Text Json)
    (h : Holds J disk.settings data s) (runs : List (Run A)) (hlog : Intact (mains J runs disk).1) :
    Holds J (mains J runs disk).2.settings data
      ((written (mains J runs disk).1).foldl Run.merged s) ∧
      (∀ n, (∀ r ∈ written (mains J runs disk).1, n ∉ r.cold) →
        ((written (mains J runs disk).1).foldl Run.merged s).get? n = s.get? n) ∧
      Reports s (mains J runs disk).1 := by
  obtain ⟨hholds, hreports⟩ := holds_mains runs h hlog
  exact ⟨hholds, fun n hn => get?_foldl_merged _ s hn, hreports⟩

theorem janitor_runs_sample :
    Holds plainCodec (mains plainCodec [sampleRun] sampleDisk).2.settings
        [("model".toList, .lit "m")]
        ((written (mains plainCodec [sampleRun] sampleDisk).1).foldl Run.merged
          [("b".toList, .lit "name-only")]) ∧
      Reports [("b".toList, .lit "name-only")] (mains plainCodec [sampleRun] sampleDisk).1 := by
  obtain ⟨hholds, -, hreports⟩ :=
    janitor_runs plainCodec sampleDisk _ _ holds_sampleDisk [sampleRun] intact_sampleRun
  exact ⟨hholds, hreports⟩

/-! ### What is listed after them -/

/-- `name_only` of `listing_report.py`: the overrides that are `name-only`. -/
def nameOnlyOf (s : Dict Text Json) : List Text := s.keys.filter fun n =>
    isSet s "name-only".toList n

omit [LT A] [DecidableLT A] in
theorem mem_nameOnlyOf : n ∈ nameOnlyOf s ↔ s.get? n = some (.lit "name-only") := by
  rw [nameOnlyOf, List.mem_filter, isSet]
  constructor
  · rintro ⟨-, h⟩
    split at h
    · rename_i v hv
      rw [hv, of_decide_eq_true h]
      rfl
    · cases h
  · intro h
    refine ⟨?_, ?_⟩
    · by_contra hnot
      rw [Dict.get?_eq_none_iff.mpr hnot] at h
      cases h
    · rw [h]
      rfl

/-- The overrides after runs whose state is `name-only`. -/
theorem mem_nameOnlyOf_foldl {runs : List (Run A)}
    (hstate : ∀ r ∈ runs, r.state = "name-only".toList) :
    n ∈ nameOnlyOf (runs.foldl Run.merged s) ↔ n ∈ nameOnlyOf s ∨ ∃ r ∈ runs, n ∈ r.cold := by
  induction runs generalizing s with
  | nil => simp
  | cons r rs ih =>
    obtain ⟨hr, hrs⟩ := List.forall_mem_cons.mp hstate
    have hone : n ∈ nameOnlyOf (r.merged s) ↔ n ∈ nameOnlyOf s ∨ n ∈ r.cold := by
      rw [mem_nameOnlyOf, mem_nameOnlyOf, Run.merged, get?_foldl_set, hr]
      by_cases hmem : n ∈ r.cold
      · rw [if_pos hmem]
        exact ⟨fun _ => .inr hmem, fun _ => rfl⟩
      · rw [if_neg hmem]
        exact ⟨.inl, fun h => h.resolve_right hmem⟩
    rw [List.foldl_cons, ih hrs, hone, List.exists_mem_cons_iff, or_assoc]

/-- **What the janitor frees**: after any number of runs with the default state, with any step
failing, but for an exception after the rename, `listing_report.py` reads as name-only what was so,
and what was cold in a run that has written. Of any listing that has a report it has one then, for
any budget and priority. If the listing has fitted, it fits, and is smaller by the descriptions of
the skills that are name-only now. If it does not fit, a skill that is demoted, and was not, comes
behind another one that is not demoted any more. -/
theorem janitor_frees {P : Type*} [LinearOrder P] (J : Codec C) (disk : Disk C)
    (data s : Dict Text Json) (h : Holds J disk.settings data s) (runs : List (Run A))
    (hstate : ∀ r ∈ runs, r.state = "name-only".toList)
    (hlog : Intact (mains J runs disk).1) (S : Settings P) (hS : S.nameOnly = nameOnlyOf s)
    (content : Text) {report : Report}
    (hreport : S.simulate (parseListing content) = .ok report) :
    ∃ s' report', Holds J (mains J runs disk).2.settings data s' ∧
      (∀ n, n ∈ nameOnlyOf s' ↔ n ∈ nameOnlyOf s ∨ ∃ r ∈ written (mains J runs disk).1,
        n ∈ r.cold) ∧
      { S with nameOnly := nameOnlyOf s' }.simulate (parseListing content) = .ok report' ∧
      (report.mode = .fits → report'.mode = .fits ∧ report.total = report'.total +
        Greedy.total (fun e => if e.name ∈ nameOnlyOf s' ∧ e.name ∉ nameOnlyOf s then e.delta else
          0) (parseListing content)) ∧
      (report'.mode = .priority → ∀ (j : ℕ) (e : Entry),
        (S.marked (parseListing content))[j]? = some (e, false) →
        ({ S with nameOnly := nameOnlyOf s' }.marked (parseListing content))[j]? = some (e, true) →
        ∃ i d, (S.marked (parseListing content))[i]? = some (d, true) ∧
          ({ S with nameOnly := nameOnlyOf s' }.marked (parseListing content))[i]? =
            some (d, false) ∧ d.name ∉ nameOnlyOf s' ∧
          Greedy.Before (fun e => S.prio e.name) (d, i) (e, j)) := by
  have hlen : ∀ e ∈ parseListing content, e.bareLen ≤ e.entryLen := fun _ => bareLen_le
  have hwritten : ∀ r ∈ written (mains J runs disk).1, r.state = "name-only".toList := fun r hr =>
    hstate r (mem_of_mem_written hr)
  set s' := (written (mains J runs disk).1).foldl Run.merged s with hs'
  have hmem : ∀ n, n ∈ nameOnlyOf s' ↔ n ∈ nameOnlyOf s ∨
      ∃ r ∈ written (mains J runs disk).1, n ∈ r.cold := fun n =>
    mem_nameOnlyOf_foldl hwritten
  have hrelaxes : S.Relaxes { S with nameOnly := nameOnlyOf s' } :=
    ⟨le_rfl, fun n hn => (hmem n).mpr (.inl (hS ▸ hn)), rfl, rfl, rfl⟩
  have hsaved := hrelaxes.size_inFull_eq (parseListing content)
  rw [hS] at hsaved
  rcases hrelaxes.exists_report hlen hreport with ⟨-, hreport'⟩ | ⟨-, hreport', -, rfl⟩
  · refine ⟨s', _, (holds_mains runs h hlog).1, hmem, hreport', fun hmode => ⟨rfl, ?_⟩,
      fun hmode => (by cases hmode)⟩
    obtain ⟨-, rfl⟩ | ⟨-, -, rfl⟩ := simulate_eq_ok_iff.mp hreport
    · exact hsaved
    · cases hmode
  · exact ⟨s', _, (holds_mains runs h hlog).1, hmem, hreport', fun hmode => (by cases hmode),
        fun _ j e hold hnew =>
      hrelaxes.gives_way hlen hold hnew⟩

/-- A listing of the two skills. -/
def freedListing : Text := "- b\n- x: xxxx".toList

def freedSettings : Settings ℕ where
  budget := 20
  nameOnly := ["b".toList]
  prio _ := 0
  protectBuiltin := false
  tiers := []

/-- The description of `x` is freed. -/
theorem janitor_frees_sample :
    ∃ s' report', Holds plainCodec (mains plainCodec [sampleRun] sampleDisk).2.settings
      [("model".toList, .lit "m")] s' ∧
      { freedSettings with nameOnly := nameOnlyOf s' }.simulate (parseListing freedListing) =
        .ok report' ∧
      report'.mode = .fits ∧ report'.total = 7 := by
  have hnameOnly : nameOnlyOf [("b".toList, .lit "name-only")] = ["b".toList] := by decide
  obtain ⟨s', report', hholds, hmem, hreport, hfits, -⟩ := janitor_frees plainCodec sampleDisk _ _
    holds_sampleDisk [sampleRun]
    (fun r hr => by rw [List.mem_singleton.mp hr]; rfl) intact_sampleRun freedSettings
      hnameOnly.symm freedListing
    (simulate_eq_ok_iff.mpr (.inl ⟨by decide +kernel, rfl⟩))
  obtain ⟨hmode, htotal⟩ := hfits rfl
  refine ⟨s', report', hholds, hreport, hmode, ?_⟩
  have hnew : ∀ n, (n ∈ nameOnlyOf s' ∧ n ∉ ["b".toList]) ↔ n = "x".toList := by
    intro n
    rw [hmem, hnameOnly, written_sampleRun]
    simp only [List.mem_singleton, exists_eq_left, cold_sampleRun]
    constructor
    · rintro ⟨rfl | rfl, hne⟩
      · exact absurd rfl hne
      · rfl
    · rintro rfl
      exact ⟨.inr rfl, by decide⟩
  simp only [hnameOnly, hnew] at htotal
  have hsum : Greedy.total (fun e => if e.name = "x".toList then e.delta else 0)
      (parseListing freedListing) = 6 := by decide +kernel
  have hold : freedSettings.size (Listing.inFull (parseListing freedListing)) = 13 := by
    decide +kernel
  have hreported : freedSettings.size (Listing.inFull (parseListing freedListing)) = report'.total +
      6 := hsum ▸ htotal
  omega

end OracleSkills.Janitor
