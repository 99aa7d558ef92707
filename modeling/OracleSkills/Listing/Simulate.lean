import OracleSkills.Greedy.Marks
import OracleSkills.Listing.Parse
import OracleSkills.Python.Dict
import Mathlib.Algebra.Order.Group.Int

/-!
# The budget simulator

`simulate` is "the CLI's own fit algorithm": while the listing fits, nothing is done; over budget,
"charge every skill a bare `- name`, then hand descriptions back in descending priority, skipping
any that no longer fits". A name-only skill is charged as a bare name in any case, and a bundled one
in full, if it is protected.

The loop is a greedy fit (`foldl_step`) of the descriptions, offered in the order of a stable sort.
`simulate_greedy` says of its report, entry by entry of the listing, what follows. Two entries may
have one name, as those of one plugin have: it is entries that are demoted, and their names that are
reported.
-/

namespace OracleSkills.Listing

open Python Greedy

universe u

/-! ### The simulator -/

inductive Mode where
  | fits
  | priority
  deriving DecidableEq

/-- What `simulate` returns. -/
structure Report where
  mode : Mode
  total : ℤ
  demoted : List Text

/-- What `simulate` is given besides the entries. -/
structure Settings (P : Type u) where
  budget : ℤ
  nameOnly : List Text
  prio : Text → P
  protectBuiltin : Bool
  tiers : Dict Text Text

/-- `max(0, len(charged) - 1)`. -/
def separators (n : ℕ) : ℤ := max 0 ((n : ℤ) - 1)

/-- The variables of the loop. -/
structure Fitting where
  demoted : List Text
  spent : ℤ
  spare : ℤ

/-- What the description of an entry costs: `delta`. -/
def Entry.delta (e : Entry) : ℤ := e.entryLen - e.bareLen

/-- One turn of the loop. -/
def Fitting.step (f : Fitting) (e : Entry) : Fitting :=
  if e.delta ≤ f.spare then { f with spare := f.spare - e.delta, spent := f.spent + e.delta }
  else { f with demoted := f.demoted ++ [e.name] }

namespace Settings

variable {P : Type u}

/-- An entry of `charged`. -/
def charge (S : Settings P) (e : Entry) : Entry :=
  { e with entryLen := if e.name ∈ S.nameOnly then e.bareLen else e.entryLen }

/-- `protected` looks up the tier of the entry, and there is none. -/
def missing (S : Settings P) (e : Entry) : Bool :=
  e.name ∉ S.nameOnly && S.protectBuiltin && S.tiers.get? e.name = none

/-- `protected`. -/
def isProtected (S : Settings P) (e : Entry) : Bool :=
  e.name ∈ S.nameOnly || (S.protectBuiltin && S.tiers.get? e.name = some "builtin/plugin".toList)

/-- `simulate`: the report, or the key of a `KeyError`. -/
def simulate [LinearOrder P] (S : Settings P) (entries : List Entry) : Except Text Report :=
  let charged := entries.map S.charge
  let size := total (fun e => (e.entryLen : ℤ)) charged + separators charged.length
  if size ≤ S.budget then .ok ⟨.fits, size, []⟩
  else
    match charged.find? S.missing with
    | some e => .error e.name
    | none =>
      let floor := total (fun e => if S.isProtected e then (e.entryLen : ℤ) else e.bareLen)
        charged + separators charged.length
      -- "Stable sort: every never-used skill scores 0, so ties keep listing order."
      let contenders :=
        descending (fun e => S.prio e.name) (charged.filter fun e => !S.isProtected e)
      let f := contenders.foldl Fitting.step ⟨[], 0, S.budget - floor⟩
      .ok ⟨.priority, floor + f.spent, f.demoted⟩

end Settings

/-! ### What is claimed -/

section Claim

variable {P : Type u} [LinearOrder P]

/-- The size of the listing, with the name-only entries and the marked ones charged as bare
names. -/
def Settings.size (S : Settings P) (marked : List (Entry × Bool)) : ℤ :=
  total (fun m => if m.1.name ∈ S.nameOnly ∨ m.2 = true then (m.1.bareLen : ℤ) else m.1.entryLen)
    marked + separators marked.length

/-- The listing in full. -/
def inFull (entries : List Entry) : List (Entry × Bool) := entries.map fun e => (e, false)

/-- The listing with every unprotected entry bare. -/
def Settings.bottom (S : Settings P) (entries : List Entry) : List (Entry × Bool) :=
  entries.map fun e => (e, !S.isProtected e)

/-- The report demotes the marked entries of the listing, by a greedy fit. -/
structure Settings.Demotes (S : Settings P) (entries : List Entry) (r : Report)
    (marked : List (Entry × Bool)) : Prop where
  listing : marked.map Prod.fst = entries
  names : r.demoted.Perm ((marked.filter (·.2)).map (·.1.name))
  total : r.total = S.size marked
  within : S.size (S.bottom entries) ≤ S.budget → r.total ≤ S.budget
  unprotected : ∀ m ∈ marked, m.2 = true → m.1.name ∉ S.nameOnly ∧ S.isProtected m.1 = false
  /-- No demoted description would still fit. -/
  full : ∀ m ∈ marked, m.2 = true → S.budget - r.total < m.1.delta
  /-- A contender that is kept, and comes after a demoted one by its priority, or else by its place,
  has a smaller description. -/
  order : ∀ (i j : ℕ) (d k : Entry), marked[i]? = some (d, true) → marked[j]? = some (k, false) →
    S.isProtected k = false →
    (S.prio k.name < S.prio d.name ∨ S.prio k.name = S.prio d.name ∧ i < j) → k.delta < d.delta

/-- What is claimed of `simulate`: it reports that the listing fits exactly if it does, and what it
demotes if it does not. There is a report where every entry has a tier. -/
structure Settings.Correct (S : Settings P) (entries : List Entry) : Prop where
  fits : (∃ r, S.simulate entries = .ok r ∧ r.mode = .fits) ↔ S.size (inFull entries) ≤ S.budget
  whole : ∀ r, S.simulate entries = .ok r → r.mode = .fits → r.total = S.size (inFull entries) ∧
    r.demoted = []
  demotes : ∀ r, S.simulate entries = .ok r → r.mode = .priority →
    ∃ marked, S.Demotes entries r marked
  returns : (∀ e ∈ entries, S.tiers.get? e.name ≠ none) → ∃ r, S.simulate entries = .ok r

end Claim

/-! ### The loop -/

/-- **The loop is a greedy fit.** -/
theorem foldl_step (es : List Entry) (f : Fitting) : es.foldl Fitting.step f =
    ⟨f.demoted ++ ((fit Entry.delta f.spare es).filter fun d => !d.2).map (·.1.name),
      f.spent + taken Entry.delta (fit Entry.delta f.spare es),
          f.spare - taken Entry.delta (fit Entry.delta f.spare es)⟩ := by
  induction es generalizing f with
  | nil => simp [fit, taken, Greedy.total]
  | cons e es ih =>
    rw [List.foldl_cons, ih, Fitting.step, fit]
    split_ifs with hc
    · simp only [taken, Greedy.total, if_true, List.filter_cons, Bool.not_true, Bool.false_eq_true,
        if_false, Fitting.mk.injEq, true_and]
      constructor <;> omega
    · simp [taken, Greedy.total]

section Proof

variable {P : Type u} {S : Settings P} {entries : List Entry}

theorem isProtected_charge (S : Settings P) (e : Entry) :
    S.isProtected (S.charge e) = S.isProtected e := rfl

/-- An entry that is not protected is charged in full. -/
theorem charge_of_unprotected {e : Entry} (h : S.isProtected e = false) : S.charge e = e := by
  have hname : e.name ∉ S.nameOnly := by
    intro hmem
    simp [Settings.isProtected, hmem] at h
  rw [Settings.charge, if_neg hname]

theorem filter_charge (S : Settings P) (entries : List Entry) :
    ((entries.map S.charge).filter fun e => !S.isProtected e) = entries.filter fun e =>
        !S.isProtected e := by
  induction entries with
  | nil => rfl
  | cons e es ih =>
    rw [List.map_cons, List.filter_cons, List.filter_cons, isProtected_charge, ih]
    split_ifs with hp
    · rw [charge_of_unprotected (by simpa using hp)]
    · rfl

theorem size_inFull (S : Settings P) (entries : List Entry) : S.size (inFull entries) =
    total (fun e => (e.entryLen : ℤ)) (entries.map S.charge) +
        separators (entries.map S.charge).length := by
  rw [Settings.size, inFull, total_map, total_map, List.length_map, List.length_map]
  congr 1
  refine total_congr fun e _ => ?_
  simp only [Settings.charge, Bool.false_eq_true, or_false]
  split_ifs <;> rfl

/-! ### The listing, marked -/

theorem size_bottom (S : Settings P) (entries : List Entry) : S.size (S.bottom entries) =
    total (fun e => if S.isProtected e then (e.entryLen : ℤ) else e.bareLen)
      (entries.map S.charge) +
      separators (entries.map S.charge).length := by
  rw [Settings.size, Settings.bottom, total_map, total_map, List.length_map, List.length_map]
  congr 1
  refine total_congr fun e _ => ?_
  rw [isProtected_charge]
  by_cases hname : e.name ∈ S.nameOnly
  · have hprotected : S.isProtected e = true := by simp [Settings.isProtected, hname]
    simp [Settings.charge, Entry.bareLen, hname, hprotected]
  · cases hp : S.isProtected e <;> simp [Settings.charge, Entry.bareLen, hname]

theorem size_eq_bottom_add (S : Settings P) {ms : List (Entry × Bool)}
    (h : ∀ m ∈ ms, m.2 = true → S.isProtected m.1 = false) :
    S.size ms = S.size (S.bottom (ms.map Prod.fst)) +
      total (fun m => if (!S.isProtected m.1) = true ∧ m.2 = false then m.1.delta else 0) ms := by
  rw [Settings.size, Settings.size, Settings.bottom, List.map_map, total_map, List.length_map,
    add_right_comm, ← total_add]
  congr 1
  refine total_congr fun m hm => ?_
  by_cases hname : m.1.name ∈ S.nameOnly
  · have hprotected : S.isProtected m.1 = true := by simp [Settings.isProtected, hname]
    simp [hname, hprotected]
  · cases hmark : m.2 with
    | true => simp [h m hm hmark]
    | false => cases hp : S.isProtected m.1 <;> simp [hname, hp, Entry.delta]

variable [LinearOrder P]

/-- The listing, with the entries marked that the loop passes over. -/
def Settings.marked (S : Settings P) (entries : List Entry) : List (Entry × Bool) :=
  marks (fun e => !S.isProtected e) (fun e => S.prio e.name) Entry.delta
    (S.budget - S.size (S.bottom entries)) entries

/-- What the loop decides. -/
def Settings.decisions (S : Settings P) (entries : List Entry) : List ((Entry × ℕ) × Bool) :=
  decided (fun e => !S.isProtected e) (fun e => S.prio e.name) Entry.delta
    (S.budget - S.size (S.bottom entries)) entries

/-- What the loop spends. -/
def Settings.spent (S : Settings P) (entries : List Entry) : ℤ :=
  taken (fun x => x.1.delta) (S.decisions entries)

/-- The report over budget. -/
def Settings.demotions (S : Settings P) (entries : List Entry) : Report :=
  ⟨.priority, S.size (S.bottom entries) + S.spent entries,
    ((S.decisions entries).filter fun d => !d.2).map fun d => d.1.1.name⟩

/-- What `simulate` reports. -/
theorem simulate_eq (S : Settings P) (entries : List Entry) : S.simulate entries =
    if S.size (inFull entries) ≤ S.budget then .ok ⟨.fits, S.size (inFull entries), []⟩
    else
      match (entries.map S.charge).find? S.missing with
      | some e => .error e.name
      | none => .ok (S.demotions entries) := by
  have hloop (spare : ℤ) : (descending (fun e => S.prio e.name)
      (entries.filter fun e => !S.isProtected e)).foldl Fitting.step
      ⟨[], 0, spare⟩ =
        ⟨((decided (fun e => !S.isProtected e) (fun e => S.prio e.name) Entry.delta spare
        entries).filter
        fun d => !d.2).map fun d => d.1.1.name, taken (fun x => x.1.delta)
          (decided (fun e => !S.isProtected e) (fun e => S.prio e.name) Entry.delta spare entries),
        spare - taken (fun x => x.1.delta)
          (decided (fun e => !S.isProtected e) (fun e => S.prio e.name) Entry.delta spare
              entries)⟩ := by
    rw [foldl_step, fit_eq, List.filter_map, List.map_map, List.nil_append, zero_add,
      taken, total_map]
    rfl
  rw [Settings.simulate, ← size_inFull, ← size_bottom, filter_charge]
  simp only [hloop]
  rfl

theorem simulate_eq_ok_iff {r : Report} : S.simulate entries = .ok r ↔
    S.size (inFull entries) ≤ S.budget ∧ r = ⟨.fits, S.size (inFull entries), []⟩ ∨
      ¬S.size (inFull entries) ≤ S.budget ∧ (entries.map S.charge).find? S.missing = none ∧
          r = S.demotions entries := by
  rw [simulate_eq]
  split_ifs with hfit
  · simp [hfit, eq_comm]
  · cases (entries.map S.charge).find? S.missing <;> simp [hfit, eq_comm]

/-- Over budget, the report demotes the marked entries. -/
theorem demotes_demotions (S : Settings P) {entries : List Entry}
    (hlen : ∀ e ∈ entries, e.bareLen ≤ e.entryLen) :
    S.Demotes entries (S.demotions entries) (S.marked entries) := by
  have hcost : ∀ e ∈ entries, 0 ≤ e.delta := fun e he => by
    have := hlen e he
    rw [Entry.delta]
    omega
  have hlisting : (S.marked entries).map Prod.fst = entries := map_fst_marks ..
  have hunprotected : ∀ m ∈ S.marked entries, m.2 = true → S.isProtected m.1 = false := by
    intro m hm hmark
    obtain ⟨i, hi, hpassed⟩ := mem_marks hm
    simpa using offered_of_passed hi (hpassed.trans hmark)
  have htotal : (S.demotions entries).total = S.size (S.marked entries) := by
    rw [size_eq_bottom_add S hunprotected, hlisting, Settings.demotions, Settings.spent,
      Settings.decisions, taken_eq, Settings.marked]
  refine ⟨hlisting, ?_, htotal, ?_, ?_, ?_, ?_⟩
  · have hnames := (passed_perm (fun e => !S.isProtected e) (fun e => S.prio e.name) Entry.delta
      (S.budget - S.size (S.bottom entries)) entries).map Entry.name
    rw [List.map_map, List.map_map] at hnames
    exact hnames
  · intro hfloor
    have hspent : S.spent entries ≤ S.budget - S.size (S.bottom entries) :=
      taken_le (sub_nonneg.mpr hfloor) _
    show S.size (S.bottom entries) + S.spent entries ≤ S.budget
    omega
  · intro m hm hmark
    refine ⟨fun hname => ?_, hunprotected m hm hmark⟩
    have hprotected := hunprotected m hm hmark
    simp [Settings.isProtected, hname] at hprotected
  · intro m hm hmark
    have hleft := left_lt_of_marked hcost hm hmark
    rw [Settings.demotions, ← sub_sub]
    exact hleft
  · exact fun i j d k hd hk hp hafter => lt_of_marked hcost hd hk (by simp [hp]) hafter

end Proof

/-- **The simulator is a greedy fit.** -/
theorem simulate_greedy {P : Type u} [LinearOrder P] (S : Settings P) (content : Text) :
    S.Correct (parseListing content) := by
  have hlen : ∀ e ∈ parseListing content, e.bareLen ≤ e.entryLen := fun _ => bareLen_le
  refine ⟨⟨?_, fun hfit => ?_⟩, ?_, ?_, ?_⟩
  · rintro ⟨r, hr, hmode⟩
    obtain ⟨hfit, -⟩ | ⟨-, -, rfl⟩ := simulate_eq_ok_iff.mp hr
    · exact hfit
    · cases hmode
  · exact ⟨_, simulate_eq_ok_iff.mpr (Or.inl ⟨hfit, rfl⟩), rfl⟩
  · intro r hr hmode
    obtain ⟨-, rfl⟩ | ⟨-, -, rfl⟩ := simulate_eq_ok_iff.mp hr
    · exact ⟨rfl, rfl⟩
    · cases hmode
  · intro r hr hmode
    obtain ⟨-, rfl⟩ | ⟨-, -, rfl⟩ := simulate_eq_ok_iff.mp hr
    · cases hmode
    · exact ⟨_, demotes_demotions S hlen⟩
  · intro htiers
    by_cases hfit : S.size (inFull (parseListing content)) ≤ S.budget
    · exact ⟨_, simulate_eq_ok_iff.mpr (Or.inl ⟨hfit, rfl⟩)⟩
    · refine ⟨_, simulate_eq_ok_iff.mpr (Or.inr ⟨hfit, ?_, rfl⟩)⟩
      rw [List.find?_eq_none]
      intro charged hcharged
      obtain ⟨e, he, rfl⟩ := List.mem_map.mp hcharged
      have htier : S.tiers.get? (S.charge e).name ≠ none := htiers e he
      simp [Settings.missing, htier]

end OracleSkills.Listing
