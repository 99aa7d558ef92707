import OracleSkills.Greedy.Raise
import OracleSkills.Listing.Simulate

/-!
# A larger budget, and more name-only skills

`listing_report.py` says of the budget that "the fraction is a CEILING, not a spend. While the
listing fits, raising it costs nothing at all; it only changes what happens once you are over", and
simulates "what setting a group of skills to `name-only`" saves.

With a larger budget the listing is never smaller, and where it changes at all it is larger than the
budget was (`budget_is_ceiling`): nothing is gained that is not paid for. To make a skill name-only
is no pure gain either. What it frees goes to the contenders in the order of their priority, and a
large description that fits now may leave too little for a small one behind it; but none is demoted
for a skill of a lower priority (`name_only_gives_way`).
-/

namespace OracleSkills.Listing

open Python Greedy

universe u

variable {P : Type u} {S S' : Settings P} {entries : List Entry}

/-- The budget may be raised, and more skills may be name-only. -/
structure Settings.Relaxes (S S' : Settings P) : Prop where
  budget : S.budget ≤ S'.budget
  nameOnly : ∀ n ∈ S.nameOnly, n ∈ S'.nameOnly
  prio : S'.prio = S.prio
  protectBuiltin : S'.protectBuiltin = S.protectBuiltin
  tiers : S'.tiers = S.tiers

/-! ### What is protected, and the sizes -/

theorem isProtected_of_nameOnly {e : Entry} (h : e.name ∈ S.nameOnly) : S.isProtected e = true := by
  simp [Settings.isProtected, h]

theorem Settings.Relaxes.unprotected (h : S.Relaxes S') (e : Entry) :
    (!S'.isProtected e) = (!S.isProtected e && decide (e.name ∉ S'.nameOnly)) := by
  by_cases hname : e.name ∈ S'.nameOnly
  · rw [isProtected_of_nameOnly hname, decide_eq_false (not_not.mpr hname), Bool.and_false,
      Bool.not_true]
  · have hname' : e.name ∉ S.nameOnly := fun hmem => hname (h.nameOnly _ hmem)
    rw [decide_eq_true hname, Bool.and_true, Settings.isProtected, Settings.isProtected,
      decide_eq_false hname, decide_eq_false hname', h.protectBuiltin, h.tiers]

theorem Settings.Relaxes.isProtected (h : S.Relaxes S') {e : Entry} (he : S.isProtected e = true) :
    S'.isProtected e = true := by
  have hunprotected := h.unprotected e
  simpa [he] using hunprotected

/-- No name is looked up that was not looked up before. -/
theorem Settings.Relaxes.missing (h : S.Relaxes S') {e : Entry} (he : S.missing e = false) :
    S'.missing e = false := by
  rw [Settings.missing] at he ⊢
  rw [h.protectBuiltin, h.tiers]
  by_cases hname : e.name ∈ S'.nameOnly
  · simp [hname]
  · have hname' : e.name ∉ S.nameOnly := fun hmem => hname (h.nameOnly _ hmem)
    simpa [hname, hname'] using he

theorem find_missing_charge (S T : Settings P) (entries : List Entry) :
    (entries.map S.charge).find? T.missing = none ↔ ∀ e ∈ entries, T.missing e = false := by
  rw [List.find?_eq_none]
  constructor
  · intro h e he
    exact Bool.eq_false_iff.mpr (h (S.charge e) (List.mem_map_of_mem he))
  · intro h x hx
    obtain ⟨e, he, rfl⟩ := List.mem_map.mp hx
    exact Bool.eq_false_iff.mp (h e he)

section Sizes

variable (hlen : ∀ e ∈ entries, e.bareLen ≤ e.entryLen)
include hlen

/-- **No larger listing**, where more is name-only, and every other entry that was bare is bare. -/
theorem Settings.Relaxes.size_le (h : S.Relaxes S') {f f' : Entry → Bool}
    (hf : ∀ e ∈ entries, f e = true → e.name ∈ S'.nameOnly ∨ f' e = true) :
    S'.size (entries.map fun e => (e, f' e)) ≤ S.size (entries.map fun e => (e, f e)) := by
  rw [Settings.size, Settings.size, total_map, total_map, List.length_map, List.length_map]
  refine add_le_add_left (total_le_total fun e he => ?_) _
  have hbare : (e.bareLen : ℤ) ≤ e.entryLen := by exact_mod_cast hlen e he
  by_cases hnew : e.name ∈ S'.nameOnly ∨ f' e = true
  · rw [if_pos hnew]
    split_ifs
    · exact le_rfl
    · exact hbare
  · have hold : ¬ (e.name ∈ S.nameOnly ∨ f e = true) := by
      rintro (hname | hfe)
      · exact hnew (.inl (h.nameOnly _ hname))
      · exact hnew (hf e he hfe)
    rw [if_neg hnew, if_neg hold]

theorem Settings.Relaxes.size_inFull_le (h : S.Relaxes S') :
    S'.size (inFull entries) ≤ S.size (inFull entries) :=
  h.size_le hlen fun _ _ he => (by cases he)

theorem Settings.Relaxes.size_bottom_le (h : S.Relaxes S') :
    S'.size (S'.bottom entries) ≤ S.size (S.bottom entries) := by
  refine h.size_le hlen fun e _ he => ?_
  have hunprotected := h.unprotected e
  rw [he, Bool.true_and] at hunprotected
  by_cases hname : e.name ∈ S'.nameOnly
  · exact .inl hname
  · exact .inr (hunprotected.trans (decide_eq_true hname))

end Sizes

/-- **What is saved** in full is the descriptions of the skills that are name-only now. -/
theorem Settings.Relaxes.size_inFull_eq (h : S.Relaxes S') (entries : List Entry) :
    S.size (inFull entries) =
    S'.size (inFull entries) + total
        (fun e => if e.name ∈ S'.nameOnly ∧ e.name ∉ S.nameOnly then e.delta else 0) entries := by
  rw [Settings.size, Settings.size, inFull, total_map, total_map, List.length_map, add_right_comm,
    ← total_add]
  congr 1
  refine total_congr fun e _ => ?_
  simp only [Bool.false_eq_true, or_false]
  by_cases hnew : e.name ∈ S'.nameOnly
  · by_cases hold : e.name ∈ S.nameOnly
    · simp [hnew, hold]
    · simp [hnew, hold, Entry.delta]
  · have hold : e.name ∉ S.nameOnly := fun hmem => hnew (h.nameOnly _ hmem)
    simp [hnew, hold]

/-- A listing with marks is no larger than in full. -/
theorem size_le_inFull (S : Settings P) {ms : List (Entry × Bool)}
    (hlen : ∀ e ∈ ms.map Prod.fst, e.bareLen ≤ e.entryLen) :
    S.size ms ≤ S.size (inFull (ms.map Prod.fst)) := by
  rw [Settings.size, Settings.size, inFull, List.map_map, total_map, List.length_map]
  refine add_le_add_left (total_le_total fun m hm => ?_) _
  have hbare : (m.1.bareLen : ℤ) ≤ m.1.entryLen := by
    exact_mod_cast hlen m.1 (List.mem_map_of_mem hm)
  simp only [Function.comp_apply, Bool.false_eq_true, or_false]
  split_ifs with hmarked hname hname
  · exact le_rfl
  · exact hbare
  · exact absurd (.inl hname) hmarked
  · exact le_rfl

/-! ### The reports -/

variable [LinearOrder P]

/-- Where there was a report, there is one. -/
theorem Settings.Relaxes.exists_report (h : S.Relaxes S')
    (hlen : ∀ e ∈ entries, e.bareLen ≤ e.entryLen) {r : Report} (hr : S.simulate entries = .ok r) :
    S'.size (inFull entries) ≤ S'.budget ∧
      S'.simulate entries = .ok ⟨.fits, S'.size (inFull entries), []⟩ ∨
      S'.budget < S'.size (inFull entries) ∧ S'.simulate entries = .ok (S'.demotions entries) ∧
        S.budget < S.size (inFull entries) ∧
        r = S.demotions entries := by
  have hsize := h.size_inFull_le hlen
  by_cases hfit : S'.size (inFull entries) ≤ S'.budget
  · exact .inl ⟨hfit, simulate_eq_ok_iff.mpr (.inl ⟨hfit, rfl⟩)⟩
  · have hover : ¬ S.size (inFull entries) ≤ S.budget :=
      fun hle => hfit (hsize.trans (hle.trans h.budget))
    obtain ⟨hle, -⟩ | ⟨-, hmissing, hdemotions⟩ := simulate_eq_ok_iff.mp hr
    · exact absurd hle hover
    · have hmissing' : (entries.map S'.charge).find? S'.missing = none :=
        (find_missing_charge ..).mpr fun e he =>
          h.missing ((find_missing_charge ..).mp hmissing e he)
      exact .inr ⟨not_le.mp hfit, simulate_eq_ok_iff.mpr (.inr ⟨hfit, hmissing', rfl⟩),
        not_le.mp hover, hdemotions⟩

theorem delta_nonneg (hlen : ∀ e ∈ entries, e.bareLen ≤ e.entryLen) :
    ∀ e ∈ entries, 0 ≤ e.delta := fun e he => by
  have := hlen e he
  rw [Entry.delta]
  omega

/-- **An entry is demoted for one that comes before it**: by its priority, or else by its place. -/
theorem Settings.Relaxes.gives_way (h : S.Relaxes S') (hlen : ∀ e ∈ entries, e.bareLen ≤ e.entryLen)
    {j : ℕ} {e : Entry} (hold : (S.marked entries)[j]? = some (e, false))
    (hnew : (S'.marked entries)[j]? = some (e, true)) :
    ∃ i d, (S.marked entries)[i]? = some (d, true) ∧ (S'.marked entries)[i]? = some (d, false) ∧
      d.name ∉ S'.nameOnly ∧
      Before (fun e => S.prio e.name) (d, i) (e, j) := by
  have hspare : S.budget - S.size (S.bottom entries) ≤ S'.budget - S'.size (S'.bottom entries) := by
    have := h.size_bottom_le hlen
    have := h.budget
    omega
  have hmarked : S'.marked entries =
      marks (fun e => !S.isProtected e && decide (e.name ∉ S'.nameOnly)) (fun e => S.prio e.name)
      Entry.delta (S'.budget - S'.size (S'.bottom entries)) entries := by
    rw [Settings.marked, h.prio, funext h.unprotected]
  rw [hmarked] at hnew ⊢
  have hp : (!S.isProtected e) = true := by
    obtain ⟨hmem, hpassed⟩ := getElem?_marks.mp hnew
    have hoffered : (!S.isProtected e && decide (e.name ∉ S'.nameOnly)) = true :=
      offered_of_passed hmem hpassed
    exact (Bool.and_eq_true_iff.mp hoffered).1
  obtain ⟨i, d, hi, hi', hkeep, hbefore⟩ := gives_way_marked (delta_nonneg hlen) hspare hp hold hnew
  exact ⟨i, d, hi, hi', of_decide_eq_true hkeep, hbefore⟩

/-- **With a larger budget**, over which the listing still is, the report is the same one, or has
more than the budget was. -/
theorem demotions_raised (S : Settings P) (hlen : ∀ e ∈ entries, e.bareLen ≤ e.entryLen)
    {budget : ℤ} (h : S.budget ≤ budget) :
    (S.demotions entries).total ≤ ({ S with budget }.demotions entries).total ∧
      ({ S with budget }.demotions entries = S.demotions entries ∨
          S.budget < ({ S with budget }.demotions entries).total) := by
  set S' : Settings P := { S with budget } with hS'
  have hoffered : ∀ x ∈ offered (fun e => !S.isProtected e) (fun e => S.prio e.name) entries,
      0 ≤ x.1.delta := fun x hx =>
    delta_nonneg hlen x.1 (List.fst_mem_of_mem_zipIdx (mem_offered.mp hx).1)
  have hspare :
      S.budget - S.size (S.bottom entries) ≤ budget - S.size (S.bottom entries) := by omega
  have hspent : S.spent entries ≤ S'.spent entries := taken_mono hoffered hspare
  have htotal : (S.demotions entries).total = S.size (S.bottom entries) + S.spent entries := rfl
  have htotal' : (S'.demotions entries).total = S.size (S.bottom entries) + S'.spent entries := rfl
  refine ⟨by omega, ?_⟩
  rcases fit_eq_or_lt hoffered hspare with heq | hlt
  · have hdecisions : S'.decisions entries = S.decisions entries := heq
    refine .inl ?_
    rw [Settings.demotions, Settings.demotions, Settings.spent, Settings.spent, hdecisions]
    rfl
  · have hlt' : S.budget - S.size (S.bottom entries) < S'.spent entries := hlt
    exact .inr (by omega)

/-- **The budget is a ceiling**, and no spend: with a larger one there is a report, with no smaller
a listing, and either it is the same one, as where the listing has fitted, or its listing is larger
than the budget was. -/
theorem budget_is_ceiling (S : Settings P) (content : Text) {budget : ℤ} (h : S.budget ≤ budget)
    {r : Report} (hr : S.simulate (parseListing content) = .ok r) :
    ∃ r', { S with budget }.simulate (parseListing content) = .ok r' ∧ r.total ≤ r'.total ∧
      (r' = r ∨ S.budget < r'.total) ∧
      (r.mode = .fits → r' = r) := by
  have hlen : ∀ e ∈ parseListing content, e.bareLen ≤ e.entryLen := fun _ => bareLen_le
  have hrelaxes : S.Relaxes { S with budget } := ⟨h, fun _ hn => hn, rfl, rfl, rfl⟩
  rcases hrelaxes.exists_report hlen hr with ⟨-, hr'⟩ | ⟨-, hr', -, rfl⟩
  · refine ⟨_, hr', ?_⟩
    obtain ⟨-, rfl⟩ | ⟨hover, -, rfl⟩ := simulate_eq_ok_iff.mp hr
    · exact ⟨le_rfl, .inl rfl, fun _ => rfl⟩
    · have hdemotes := demotes_demotions S hlen
      have hsize := size_le_inFull S (hdemotes.listing ▸ hlen)
      rw [hdemotes.listing, ← hdemotes.total] at hsize
      exact ⟨hsize, .inr (not_le.mp hover), fun hmode => (by cases hmode)⟩
  · obtain ⟨htotal, hsame⟩ := demotions_raised S hlen h
    exact ⟨_, hr', htotal, hsame, fun hmode => (by cases hmode)⟩

/-- Three skills, of which the first is used most, and the last one is not used. -/
def sampleListing : Text := "- a: aaa\n- b: bbbbbb\n- c: cc".toList

/-- There is room for the descriptions of `a` and `c`, and not for that of `b` with the one of
`a`. -/
def sampleSettings : Settings ℕ where
  budget := 20
  nameOnly := []
  prio n := if n = ['a'] then 2 else if n = ['b'] then 1 else 0
  protectBuiltin := false
  tiers := []

theorem simulate_sample : sampleSettings.simulate (parseListing sampleListing) =
    .ok (sampleSettings.demotions (parseListing sampleListing)) :=
  simulate_eq_ok_iff.mpr (.inr ⟨by decide +kernel, by decide +kernel, rfl⟩)

/-- The budget is raised, and `c` is demoted for `b`. -/
theorem budget_is_ceiling_sample :
    ∃ r', { sampleSettings with budget := 24 }.simulate (parseListing sampleListing) = .ok r' ∧
      (sampleSettings.demotions (parseListing sampleListing)).total ≤ r'.total ∧
      (r' = sampleSettings.demotions (parseListing sampleListing) ∨ 20 < r'.total) ∧
      ((sampleSettings.demotions (parseListing sampleListing)).mode = .fits →
        r' = sampleSettings.demotions (parseListing sampleListing)) :=
  budget_is_ceiling sampleSettings sampleListing (by decide) simulate_sample

/-- **None is demoted for a skill of lower priority**: with a larger budget, and more skills
name-only, there is a report, and the listing fits, and is no larger, if it has fitted. If it does
not fit, an entry that is demoted, and was not, comes behind another one that is not demoted any
more, and is not name-only: by its priority, or else by its place. -/
theorem name_only_gives_way (h : S.Relaxes S') (content : Text) {r : Report}
    (hr : S.simulate (parseListing content) = .ok r) :
    ∃ r', S'.simulate (parseListing content) = .ok r' ∧
      (r.mode = .fits → r'.mode = .fits ∧ r'.total ≤ r.total) ∧
      (r'.mode = .priority → r.mode = .priority ∧
        S.Demotes (parseListing content) r (S.marked (parseListing content)) ∧
        S'.Demotes (parseListing content) r' (S'.marked (parseListing content)) ∧
        ∀ (j : ℕ) (e : Entry), (S.marked (parseListing content))[j]? = some (e, false) →
          (S'.marked (parseListing content))[j]? = some (e, true) →
          ∃ i d, (S.marked (parseListing content))[i]? = some (d, true) ∧
            (S'.marked (parseListing content))[i]? = some (d, false) ∧
            d.name ∉ S'.nameOnly ∧
                (S.prio e.name < S.prio d.name ∨ S.prio e.name = S.prio d.name ∧ i < j)) := by
  have hlen : ∀ e ∈ parseListing content, e.bareLen ≤ e.entryLen := fun _ => bareLen_le
  rcases h.exists_report hlen hr with ⟨-, hr'⟩ | ⟨-, hr', -, rfl⟩
  · refine ⟨_, hr', fun hmode => ⟨rfl, ?_⟩, fun hmode => (by cases hmode)⟩
    obtain ⟨-, rfl⟩ | ⟨-, -, rfl⟩ := simulate_eq_ok_iff.mp hr
    · exact h.size_inFull_le hlen
    · cases hmode
  · exact ⟨_, hr', fun hmode => (by cases hmode), fun _ =>
      ⟨rfl, demotes_demotions S hlen, demotes_demotions S' hlen,
        fun _ _ hold hnew => h.gives_way hlen hold hnew⟩⟩

/-- The settings with the first of them name-only. -/
def freedSettings : Settings ℕ := { sampleSettings with nameOnly := [['a']] }

/-- The marks of a listing whose entries are in the order of their priorities. -/
theorem Settings.marked_of_pairwise
    (h : (entries.zipIdx.filter fun x => !S.isProtected x.1).Pairwise fun x y =>
      S.prio y.1.name ≤ S.prio x.1.name) :
    S.marked entries = entries.zipIdx.map fun x =>
      (x.1, (fit (fun x => x.1.delta) (S.budget - S.size (S.bottom entries))
        (entries.zipIdx.filter fun x => !S.isProtected x.1)).any
        fun d => decide (d.1.2 = x.2) && !d.2) := by
  unfold Settings.marked marks passed decided
  rw [offered_of_pairwise (fun e => !S.isProtected e) (fun e => S.prio e.name) entries h]

theorem marked_sample : sampleSettings.marked (parseListing sampleListing) =
    [(entryOf "- a: aaa".toList, false), (entryOf "- b: bbbbbb".toList, true),
        (entryOf "- c: cc".toList, false)] := by
  rw [Settings.marked_of_pairwise (by decide +kernel)]
  decide +kernel

theorem marked_freed : freedSettings.marked (parseListing sampleListing) =
    [(entryOf "- a: aaa".toList, false), (entryOf "- b: bbbbbb".toList, false),
        (entryOf "- c: cc".toList, true)] := by
  rw [Settings.marked_of_pairwise (by decide +kernel)]
  decide +kernel

/-- `c` is demoted for `b`, which has been demoted, and comes before it. -/
theorem name_only_gives_way_sample :
    ∃ i d, (sampleSettings.marked (parseListing sampleListing))[i]? = some (d, true) ∧
      (freedSettings.marked (parseListing sampleListing))[i]? = some (d, false) ∧
        d.name ∉ freedSettings.nameOnly ∧
      (sampleSettings.prio ['c'] < sampleSettings.prio d.name ∨
        sampleSettings.prio ['c'] = sampleSettings.prio d.name ∧ i < 2) := by
  have hrelaxes : sampleSettings.Relaxes freedSettings :=
    ⟨le_rfl, fun _ hn => absurd hn List.not_mem_nil, rfl, rfl, rfl⟩
  obtain ⟨r', hr', -, hgives⟩ := name_only_gives_way hrelaxes sampleListing simulate_sample
  have hfreed : freedSettings.simulate (parseListing sampleListing) =
      .ok (freedSettings.demotions (parseListing sampleListing)) :=
    simulate_eq_ok_iff.mpr (.inr ⟨by decide +kernel, by decide +kernel, rfl⟩)
  obtain rfl := Except.ok.inj (hfreed.symm.trans hr')
  obtain ⟨-, -, -, hbehind⟩ := hgives rfl
  exact hbehind 2 (entryOf "- c: cc".toList) (by rw [marked_sample]; rfl)
    (by rw [marked_freed]; rfl)

end OracleSkills.Listing
