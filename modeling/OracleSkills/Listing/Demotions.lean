import Mathlib.Data.Finset.Card
import OracleSkills.Listing.Predicted
import OracleSkills.Listing.Scan

/-!
# Demotions that were met

"Demotion, and whether it ever cost anything": `main` goes through the rows of the scan, in the
order of their times, and keeps for each session what it takes for demoted in any of its listings,
and the last row. It counts the calls of the sessions that demoted something, and those of a skill
that was demoted.

`demotions_counted` says what the numbers are, session by session, of the transcripts themselves.
As in `scan_exact`, the two words are written out on the lines.
-/

namespace OracleSkills.Listing

open Python
open Server.Rpc (Json)
open Janitor (invocations)

universe u

variable {F : Type u}

/-! ### The loop -/

/-- `RESIDUAL_MIN`. -/
def residualMin : ℕ := 4

/-- A slot of `per_session`. -/
structure Slot (F : Type u) where
  demoted : Finset Text
  row : Row F

/-- A turn of the loop, `none` where the content is no text. -/
def sessionStep (nameOnly : List Text) (perSession : Dict Text (Slot F)) (row : Row F) : Option
    (Dict Text (Slot F)) :=
  match row.content with
  | .str content =>
    let residual := residual nameOnly content
    let slot := (perSession.get? row.path).getD ⟨∅, row⟩
    -- "require a residual of several before calling it demotion"
    let demoted := if residualMin ≤ residual.card then slot.demoted ∪ residual else slot.demoted
    some (perSession.set row.path ⟨demoted, row⟩)
  | _ => none

/-- `per_session`. -/
def sessions (nameOnly : List Text) (rows : List (Row F)) : Option (Dict Text (Slot F)) :=
  rows.foldlM (sessionStep nameOnly) []

/-- The numbers that are printed. -/
structure Counts where
  sessions : ℕ
  hit : ℕ
  calls : ℕ
  hurt : ℕ
  deriving DecidableEq

/-- The numbers of sessions that demote some skills, and invoke some. -/
def tally (slots : List (Finset Text × List Text)) : Counts :=
  let hit := slots.filter fun s => decide (s.1 ≠ ∅)
  { sessions := slots.length
    hit := hit.length
    calls := (hit.flatMap fun s => s.2).length
    hurt := (hit.flatMap fun s => s.2.filter fun got => decide (got ∈ s.1)).length }

/-- The numbers of `main`. -/
def counts (perSession : Dict Text (Slot F)) : Counts :=
  tally (perSession.map fun kv => (kv.2.demoted, kv.2.row.invoked))

/-! ### What is counted -/

/-- What a row is taken to demote. -/
def shownBy (nameOnly : List Text) (row : Row F) : Finset Text :=
  match row.content with
  | .str content =>
    if residualMin ≤ (residual nameOnly content).card then residual nameOnly content else ∅
  | _ => ∅

/-- What a session demotes in any of its listings. -/
def demotedIn (nameOnly : List Text) (R : Reader F) (f : Transcript F) : Finset Text :=
  (listed R f).foldr (fun row demoted => shownBy nameOnly row ∪ demoted) ∅

/-- The sessions with a listing. -/
def withListing (R : Reader F) (paths : List (Transcript F)) : List (Transcript F) :=
  paths.filter fun f => !(listed R f).isEmpty

/-- The slots hold what is known of the rows that have been gone through. -/
structure Counted (nameOnly : List Text) (done : List (Row F)) (perSession : Dict Text (Slot F)) :
    Prop where
  nodup : perSession.keys.Nodup
  keys : ∀ p, p ∈ perSession.keys ↔ ∃ row ∈ done, row.path = p
  row : ∀ p slot, perSession.get? p = some slot → slot.row ∈ done ∧ slot.row.path = p
  demoted : ∀ p slot, perSession.get? p = some slot →
    ∀ n, n ∈ slot.demoted ↔ ∃ row ∈ done, row.path = p ∧ n ∈ shownBy nameOnly row

variable {nameOnly : List Text} {done rows : List (Row F)} {row : Row F}
  {slots slots' : Dict Text (Slot F)} {R : Reader F}
  {paths : List (Transcript F)} {f : Transcript F}

theorem counted_nil : Counted nameOnly ([] : List (Row F)) [] where
  nodup := List.nodup_nil
  keys p := by simp [Dict.keys]
  row _ _ h := nomatch h
  demoted _ _ h := nomatch h

/-- What a row is taken to demote is added to its session. -/
theorem sessionStep_eq (hs : sessionStep nameOnly slots row = some slots') :
    slots' = slots.set row.path
    ⟨((slots.get? row.path).getD ⟨∅, row⟩).demoted ∪ shownBy nameOnly row, row⟩ := by
  obtain ⟨path, mtime, content, invoked⟩ := row
  cases content with
  | str content =>
    obtain rfl := Option.some.inj hs
    simp only [shownBy]
    split_ifs
    · rfl
    · rw [Finset.union_empty]
  | _ => cases hs

/-- **One row more.** -/
theorem Counted.step (h : Counted nameOnly done slots)
    (hs : sessionStep nameOnly slots row = some slots') :
    Counted nameOnly (done ++ [row]) slots' := by
  obtain rfl := sessionStep_eq hs
  refine ⟨Dict.nodup_keys_set _ h.nodup, fun p => ?_, fun p slot hget => ?_,
    fun p slot hget n => ?_⟩
  · rw [Dict.mem_keys_set, h.keys]
    simp [or_and_right, exists_or, eq_comm, or_comm]
  · rw [Dict.get?_set] at hget
    split_ifs at hget with hp
    · obtain rfl := Option.some.inj hget
      exact ⟨List.mem_append_right _ (List.mem_singleton.mpr rfl), hp.symm⟩
    · obtain ⟨hrow, hpath⟩ := h.row p slot hget
      exact ⟨List.mem_append_left _ hrow, hpath⟩
  · rw [Dict.get?_set] at hget
    simp only [List.mem_append, List.mem_singleton, or_and_right, exists_or, exists_eq_left]
    split_ifs at hget with hp
    · subst hp
      obtain rfl := Option.some.inj hget
      have hold : n ∈ ((slots.get? row.path).getD ⟨∅, row⟩).demoted ↔
          ∃ row' ∈ done, row'.path = row.path ∧ n ∈ shownBy nameOnly row' := by
        cases hslot : slots.get? row.path with
        | none =>
          have hnone : ¬ ∃ row' ∈ done, row'.path = row.path := fun hex =>
            Dict.get?_eq_none_iff.mp hslot ((h.keys _).mpr hex)
          simp only [Option.getD_none, Finset.notMem_empty, false_iff]
          rintro ⟨row', hrow', hpath, -⟩
          exact hnone ⟨row', hrow', hpath⟩
        | some slot => exact h.demoted _ _ hslot n
      rw [Finset.mem_union, hold]
      simp
    · have hne : ¬ row.path = p := fun heq => hp heq.symm
      rw [h.demoted p slot hget n]
      simp [hne]

/-- **All rows.** -/
theorem Counted.run (h : Counted nameOnly done slots)
    (hs : rows.foldlM (sessionStep nameOnly) slots = some slots') :
    Counted nameOnly (done ++ rows) slots' := by
  induction rows generalizing done slots with
  | nil =>
    obtain rfl := Option.some.inj hs
    rwa [List.append_nil]
  | cons row rows ih =>
    rw [List.foldlM_cons] at hs
    obtain ⟨next, hstep, hrest⟩ := Option.bind_eq_some_iff.mp hs
    rw [List.append_cons]
    exact ih (h.step hstep) hrest

/-! ### The transcripts -/

theorem tally_perm {l l' : List (Finset Text × List Text)} (h : l.Perm l') :
    tally l = tally l' := by
  have hhit := h.filter fun s => decide (s.1 ≠ ∅)
  simp only [tally, Counts.mk.injEq]
  exact ⟨h.length_eq, hhit.length_eq, (hhit.flatMap_right _).length_eq,
    (hhit.flatMap_right _).length_eq⟩

theorem mem_foldr_union {k : Row F → Finset Text} {rows : List (Row F)} {n : Text} :
    n ∈ rows.foldr (fun row demoted => k row ∪ demoted) ∅ ↔ ∃ row ∈ rows, n ∈ k row := by
  induction rows with
  | nil => simp
  | cons row rows ih => simp [ih]

theorem of_mem_listed (h : row ∈ listed R f) :
    row.path = f.path ∧ row.invoked = (f.records R).flatMap invocations := by
  obtain ⟨x, -, rfl⟩ := List.mem_map.mp h
  exact ⟨rfl, rfl⟩

/-- The rows of a path are those of its file. -/
theorem mem_listed_of_path (hpaths : (paths.map Transcript.path).Nodup) (hf : f ∈ paths)
    (hrow : row ∈ paths.flatMap (listed R)) (hpath : row.path = f.path) : row ∈ listed R f := by
  obtain ⟨g, hg, hrow⟩ := List.mem_flatMap.mp hrow
  have heq : g = f :=
    List.inj_on_of_nodup_map hpaths hg hf ((of_mem_listed hrow).1.symm.trans hpath)
  exact heq ▸ hrow

/-- A session and its slot. -/
theorem Counted.slot_eq (h : Counted nameOnly rows slots)
    (hrows : rows.Perm (paths.flatMap (listed R)))
    (hpaths : (paths.map Transcript.path).Nodup) (hf : f ∈ paths) {slot : Slot F}
    (hget : slots.get? f.path = some slot) :
    slot.demoted = demotedIn nameOnly R f ∧
        slot.row.invoked = (f.records R).flatMap invocations := by
  obtain ⟨hrow, hpath⟩ := h.row _ slot hget
  refine ⟨?_, (of_mem_listed (mem_listed_of_path hpaths hf (hrows.mem_iff.mp hrow) hpath)).2⟩
  ext n
  rw [h.demoted _ slot hget n, demotedIn, mem_foldr_union]
  constructor
  · rintro ⟨row, hrow, hpath, hn⟩
    exact ⟨row, mem_listed_of_path hpaths hf (hrows.mem_iff.mp hrow) hpath, hn⟩
  · rintro ⟨row, hrow, hn⟩
    exact ⟨row, hrows.mem_iff.mpr (List.mem_flatMap.mpr ⟨f, hf, hrow⟩), (of_mem_listed hrow).1, hn⟩

theorem mem_withListing : f ∈ withListing R paths ↔ f ∈ paths ∧ ∃ row, row ∈ listed R f := by
  rw [withListing, List.mem_filter, ← List.isEmpty_eq_false_iff_exists_mem, Bool.not_eq_true']

/-- **The slots are the sessions with a listing.** -/
theorem Counted.slots_perm (h : Counted nameOnly rows slots)
    (hrows : rows.Perm (paths.flatMap (listed R)))
    (hpaths : (paths.map Transcript.path).Nodup) : (slots.map fun kv =>
      (kv.1, kv.2.demoted, kv.2.row.invoked)).Perm
      ((withListing R paths).map fun f =>
          (f.path, demotedIn nameOnly R f, (f.records R).flatMap invocations)) := by
  have hnodup : (slots.map fun kv => (kv.1, kv.2.demoted, kv.2.row.invoked)).Nodup := by
    refine List.Nodup.of_map Prod.fst ?_
    rw [List.map_map]
    exact h.nodup
  have hnodup' :
      ((withListing R paths).map fun f =>
      (f.path, demotedIn nameOnly R f, (f.records R).flatMap invocations)).Nodup := by
    refine List.Nodup.of_map Prod.fst ?_
    rw [List.map_map]
    exact hpaths.sublist (List.filter_sublist.map _)
  refine (List.perm_ext_iff_of_nodup hnodup hnodup').mpr fun x => ?_
  rw [List.mem_map, List.mem_map]
  constructor
  · rintro ⟨⟨p, slot⟩, hkv, rfl⟩
    have hget : slots.get? p = some slot := (Dict.get?_eq_some_iff h.nodup).mpr hkv
    obtain ⟨hrow, rfl⟩ := h.row p slot hget
    obtain ⟨f, hf, hlisted⟩ := List.mem_flatMap.mp (hrows.mem_iff.mp hrow)
    obtain ⟨hdemoted, hinvoked⟩ := h.slot_eq hrows hpaths hf ((of_mem_listed hlisted).1 ▸ hget)
    exact ⟨f, mem_withListing.mpr ⟨hf, _, hlisted⟩, by rw [(of_mem_listed hlisted).1,
      hdemoted, hinvoked]⟩
  · rintro ⟨f, hf, rfl⟩
    obtain ⟨hf, row, hlisted⟩ := mem_withListing.mp hf
    have hkey : f.path ∈ slots.keys :=
      (h.keys _).mpr ⟨row, hrows.mem_iff.mpr (List.mem_flatMap.mpr ⟨f, hf, hlisted⟩),
        (of_mem_listed hlisted).1⟩
    cases hget : slots.get? f.path with
    | none => exact absurd hkey (Dict.get?_eq_none_iff.mp hget)
    | some slot =>
      obtain ⟨hdemoted, hinvoked⟩ := h.slot_eq hrows hpaths hf hget
      exact ⟨(f.path, slot), (Dict.get?_eq_some_iff h.nodup).mp hget, by rw [hdemoted, hinvoked]⟩

/-- **The numbers are those of the transcripts**: whatever the times of the listings, and however
many a session has, a session is counted once, with all that any of its listings shows as demoted
and all its calls. -/
theorem demotions_counted [LinearOrder F] (R : Reader F) (paths : List (Transcript F))
    (nameOnly : List Text)
    (hw : ∀ f ∈ paths, ∀ lines, f.lines = some lines → ∀ line ∈ lines, Written R line)
    (hpaths : (paths.map Transcript.path).Nodup)
    {rows : List (Row F)} (h : scan R paths = some rows) {perSession : Dict Text (Slot F)}
    (hs : sessions nameOnly rows = some perSession) :
    counts perSession =
      tally ((withListing R paths).map fun f =>
          (demotedIn nameOnly R f, (f.records R).flatMap invocations)) := by
  obtain ⟨rfl, -⟩ := scan_eq hw h
  have hcounted := counted_nil.run hs
  rw [List.nil_append] at hcounted
  have hperm := (hcounted.slots_perm (Greedy.descending_perm ..) hpaths).map Prod.snd
  rw [List.map_map, List.map_map] at hperm
  exact tally_perm hperm

/-- The listing has four bare names. -/
theorem sessions_sample : sessions [] [sampleRow] =
    some [("s.jsonl".toList, ⟨{"a".toList, "b".toList, "c".toList, "d".toList}, sampleRow⟩)] := by
  have hresidual : residual [] "- a\n- b\n- c\n- d\n- e: f".toList =
      {"a".toList, "b".toList, "c".toList, "d".toList} := by decide +kernel
  show some [(_, _)] = _
  rw [hresidual]
  rfl

/-- One session, which has demoted skills, and of whose two calls one is that of a skill that was
demoted. -/
theorem demotions_counted_sample : tally ((withListing sampleReader [sampleTranscript]).map fun f =>
    (demotedIn [] sampleReader f, (f.records sampleReader).flatMap invocations)) =
        ⟨1, 1, 2, 1⟩ := by
  rw [← demotions_counted sampleReader [sampleTranscript] [] written_sample
    (List.nodup_singleton _) scan_sample sessions_sample]
  decide +kernel

end OracleSkills.Listing
