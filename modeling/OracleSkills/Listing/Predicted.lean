import Mathlib.Data.Finset.SDiff
import OracleSkills.Listing.Accounts
import OracleSkills.Listing.Budget

/-!
# The prediction and what is measured

"A prediction is worth only as much as its agreement with a real demoted listing". A listing is sent
with an entry for each skill, whole or as its bare name. Of what was sent, `listing_report.py` has
the text alone: it counts its characters, and it takes for demoted the bare entries that no override
explains.

`prediction_measured`: what the report measures of the listing that its simulator predicts is what
was predicted. It parses to the entries, it is as long as the report's total, and what is taken for
demoted are the demoted, with those that were bare before; and the simulator, given the listing it
predicted, finds that it fits.
-/

namespace OracleSkills.Listing

open Python Coding Greedy

universe u

/-! ### What is sent, and measured -/

/-- An entry as it is sent: whole, or as its bare name. -/
def sentText (bare : Bool) (text : Text) : Text := if bare then (entryOf text).bareForm else text

/-- The listing that is sent, of the texts of the entries with the demoted ones marked. -/
def Settings.sent {P : Type u} (S : Settings P) (marked : List (Text × Bool)) : Text :=
  join ['\n'] (marked.map fun m => sentText (decide ((entryOf m.1).name ∈ S.nameOnly) || m.2) m.1)

/-- The bare names of a listing that no override explains: `bare - name_only`. -/
def residual (nameOnly : List Text) (content : Text) : Finset Text :=
  (((parseListing content).filter Entry.bare).map Entry.name).toFinset \ nameOnly.toFinset

/-- What a bare entry is parsed to. -/
def Entry.bared (e : Entry) : Entry := ⟨e.name, e.bareLen, true⟩

/-- The report predicts what is measured of the listing that is sent by it. -/
structure Predicted {P : Type u} [LinearOrder P] (S : Settings P) (content : Text) (r : Report)
    (marked : List (Text × Bool)) : Prop where
  listing : marked.map Prod.fst = entryTexts content
  names : r.demoted.Perm ((marked.filter (·.2)).map fun m => (entryOf m.1).name)
  size : ((S.sent marked).length : ℤ) = r.total
  parsed : parseListing (S.sent marked) =
    marked.map fun m => if (entryOf m.1).name ∈ S.nameOnly ∨ m.2 = true then
      (entryOf m.1).bared else entryOf m.1
  /-- Those that are taken for demoted. -/
  residual : residual S.nameOnly (S.sent marked) = r.demoted.toFinset ∪ residual S.nameOnly content
  settled : r.total ≤ S.budget →
    S.simulate (parseListing (S.sent marked)) = .ok ⟨.fits, r.total, []⟩

/-! ### Bare names -/

variable {line t : Text} {ts : List Text} {content : Text}

theorem isNameChar_not_space {c : Char} (h : isNameChar c = true) : isSpace c = false := by
  by_contra hspace
  rw [Bool.not_eq_false] at hspace
  have hcode : c.toNat ∈ spaceCodes := by simpa [isSpace] using hspace
  simp only [isNameChar, isNameStart, Bool.or_eq_true, Bool.and_eq_true, decide_eq_true_eq] at h
  rcases h with ((h | rfl) | rfl) | rfl
  · simp only [spaceCodes, List.mem_cons, List.not_mem_nil, or_false] at hcode
    omega
  all_goals exact absurd hcode (by decide)

/-- Up to a colon there are characters of names. -/
theorem isNameChar_of_entryRe {c : Char} {rest : Text}
    (h : entryRe ('-' :: ' ' :: c :: rest) = true) (hl : '\n' ∉ rest) :
    isNameStart c = true ∧ ∀ d ∈ rest.takeWhile (· ≠ ':'), isNameChar d = true := by
  simp only [entryRe, Bool.and_eq_true, Bool.or_eq_true, decide_eq_true_eq] at h
  obtain ⟨hc, hrest⟩ := h
  refine ⟨hc, fun d hd => ?_⟩
  rcases hrest with (hrest | hrest) | hrest
  · -- the run of the name goes on behind the colon
    obtain ⟨x, y, hxy, hx⟩ := List.eq_append_cons_of_mem (List.contains_iff_mem.mp hrest)
    have hall : ∀ e ∈ x, decide (e ≠ ':') = true := fun e he => decide_eq_true fun heq =>
      hx (heq ▸ he)
    have hrun : rest.takeWhile (· ≠ ':') = x := by
      conv_lhs => rw [← List.takeWhile_append_dropWhile (p := isNameChar) (l := rest), hxy,
        List.append_assoc, List.cons_append]
      rw [List.takeWhile_append_of_pos hall, List.takeWhile_cons_of_neg (by simp), List.append_nil]
    exact List.mem_takeWhile_imp (hxy ▸ List.mem_append_left _ (hrun ▸ hd))
  · rw [List.dropWhile_eq_nil_iff] at hrest
    exact hrest d ((List.takeWhile_prefix _).subset hd)
  · exact absurd ((List.dropWhile_suffix isNameChar).subset (hrest ▸ List.mem_singleton.mpr rfl)) hl

/-- A text of characters of names, without a colon, is its own name. -/
structure BareName (n : Text) : Prop where
  start : n.head?.any isNameStart = true
  chars : ∀ c ∈ n, isNameChar c = true ∧ c ≠ ':'

theorem bareName_nameOn (h : entryRe line = true) (hl : '\n' ∉ line) : BareName (nameOn line) := by
  obtain ⟨c, rest, rfl⟩ : ∃ c rest, line = '-' :: ' ' :: c :: rest := by
    unfold entryRe at h
    split at h
    · exact ⟨_, _, rfl⟩
    · cases h
  have hrest : '\n' ∉ rest := fun hm => hl (by simp [hm])
  obtain ⟨hc, hchars⟩ := isNameChar_of_entryRe h hrest
  have hcolon : c ≠ ':' := by
    rintro rfl
    exact absurd hc (by decide)
  have hname : ∀ d ∈ c :: rest.takeWhile (· ≠ ':'), isNameChar d = true ∧ d ≠ ':' := by
    intro d hd
    rcases List.mem_cons.mp hd with rfl | hd
    · exact ⟨by simp [isNameChar, hc], hcolon⟩
    · exact ⟨hchars d hd, by simpa using List.mem_takeWhile_imp hd⟩
  have heq : nameOn ('-' :: ' ' :: c :: rest) = c :: rest.takeWhile (· ≠ ':') := by
    rw [nameOn, List.drop_succ_cons, List.drop_succ_cons, List.drop_zero,
      List.takeWhile_cons_of_pos (by simpa using hcolon)]
    exact stripped_of_noSpace fun d hd => isNameChar_not_space (hname d hd).1
  rw [heq]
  exact ⟨hc, hname⟩

variable {n : Text}

theorem BareName.newline (h : BareName n) : '\n' ∉ "- ".toList ++ n := by
  intro hm
  rw [List.mem_append] at hm
  rcases hm with hm | hm
  · exact absurd hm (by decide)
  · exact absurd (h.chars _ hm).1 (by decide)

/-- A bare name begins an entry, -/
theorem BareName.entryRe (h : BareName n) : entryRe ("- ".toList ++ n) = true := by
  cases n with
  | nil => cases h.start
  | cons c w =>
    have hw : w.dropWhile isNameChar = [] :=
      List.dropWhile_eq_nil_iff.mpr fun d hd => (h.chars d (List.mem_cons_of_mem _ hd)).1
    have hc : isNameStart c = true := h.start
    show Listing.entryRe ('-' :: ' ' :: c :: w) = true
    simp [Listing.entryRe, hc, hw]

/-- which is bare, and of this name. -/
theorem BareName.entryOf (h : BareName n) :
    entryOf ("- ".toList ++ n) = ⟨n, n.length + 2, true⟩ := by
  have hcolon : n.takeWhile (· ≠ ':') = n := List.takeWhile_eq_self_iff.mpr fun c hc =>
    decide_eq_true (h.chars c hc).2
  have hline : n.takeWhile (· ≠ '\n') = n := List.takeWhile_eq_self_iff.mpr fun c hc =>
    decide_eq_true fun heq => h.newline (List.mem_append_right _ (heq ▸ hc))
  have hstrip : strip n = n := stripped_of_noSpace fun c hc => isNameChar_not_space (h.chars c hc).1
  have hnone : hasDescription n = false := by
    have hcut : cut ": ".toList n = none := cut_eq_none_iff.mpr fun hin =>
      (h.chars ':' (hin.subset (by decide))).2 rfl
    rw [hasDescription, hcut]
    rfl
  show (⟨strip ((n.takeWhile (· ≠ ':')).takeWhile (· ≠ '\n')), ("- ".toList ++ n).length,
    !hasDescription (n.takeWhile (· ≠ '\n'))⟩ : Entry) = _
  rw [hcolon, hline, hstrip, hnone, List.length_append, Nat.add_comm]
  rfl

/-! ### Texts of entries -/

/-- The text of an entry: a block of lines. -/
def IsEntryText (t : Text) : Prop :=
  ∃ b : Headed Listing.entryRe, (∀ l ∈ b.items, '\n' ∉ l) ∧ t = join ['\n'] b.items

theorem isEntryText_of_mem (h : t ∈ entryTexts content) : IsEntryText t := by
  obtain ⟨skipped, bs, hlines, -, htexts⟩ := exists_entryTexts content
  rw [htexts] at h
  obtain ⟨b, hb, rfl⟩ := List.mem_map.mp h
  refine ⟨b, fun l hl => Format.sep_notMem_of_mem_splitOn (t := content) ?_, rfl⟩
  rw [hlines]
  exact List.mem_append_right _ (List.mem_flatMap.mpr ⟨b, hb, hl⟩)

theorem exists_blocks (h : ∀ t ∈ ts, IsEntryText t) : ∃ bs : List (Headed Listing.entryRe),
    (∀ b ∈ bs, ∀ l ∈ b.items, '\n' ∉ l) ∧ ts = bs.map fun b => join ['\n'] b.items := by
  induction ts with
  | nil => exact ⟨[], fun b hb => absurd hb List.not_mem_nil, rfl⟩
  | cons t ts ih =>
    obtain ⟨⟨b, hb, rfl⟩, hts⟩ := List.forall_mem_cons.mp h
    obtain ⟨bs, hbs, rfl⟩ := ih hts
    exact ⟨b :: bs, List.forall_mem_cons.mpr ⟨hb, hbs⟩, rfl⟩

/-- **Entries that are joined are parsed again.** -/
theorem entryTexts_join (h : ∀ t ∈ ts, IsEntryText t) : entryTexts (join ['\n'] ts) = ts := by
  obtain ⟨bs, hlines, rfl⟩ := exists_blocks h
  by_cases hbs : bs = []
  · subst hbs
    rfl
  · have hne : bs.flatMap Headed.items ≠ [] := by
      obtain ⟨b, hb⟩ := List.exists_mem_of_ne_nil _ hbs
      exact List.ne_nil_of_mem (List.mem_flatMap.mpr ⟨b, hb, List.mem_cons_self ..⟩)
    have hjoin : join ['\n'] (bs.map fun b => join ['\n'] b.items) =
        join ['\n'] (bs.flatMap Headed.items) :=
      (Format.intercalate_flatMap Headed.items_ne_nil bs).symm
    have hsplit : (join ['\n'] (bs.flatMap Headed.items)).splitOn '\n' =
        bs.flatMap Headed.items := by
      refine List.splitOn_intercalate _ (fun l hl => ?_) hne
      obtain ⟨b, hb, hl⟩ := List.mem_flatMap.mp hl
      exact hlines b hb l hl
    rw [hjoin, entryTexts, hsplit, foldl_addLine_items, List.nil_append]

theorem IsEntryText.bareName (h : IsEntryText t) : BareName (entryOf t).name := by
  obtain ⟨b, hb, rfl⟩ := h
  have hname : (entryOf (join ['\n'] b.items)).name = nameOn b.head :=
    congrArg Prod.fst (entryOf_items b (hb _ (List.mem_cons_self ..)))
  rw [hname]
  exact bareName_nameOn b.isHead_head (hb _ (List.mem_cons_self ..))

theorem IsEntryText.bareForm (h : IsEntryText t) : IsEntryText (entryOf t).bareForm := by
  refine ⟨⟨(entryOf t).bareForm, [], h.bareName.entryRe, fun a ha => absurd ha List.not_mem_nil⟩,
    ?_, ?_⟩
  · rintro l (_ | ⟨_, hl⟩)
    · exact h.bareName.newline
    · cases hl
  · exact (List.intercalate_singleton ..).symm

theorem IsEntryText.entryOf_bareForm (h : IsEntryText t) :
    entryOf (entryOf t).bareForm = (entryOf t).bared := h.bareName.entryOf

/-! ### The listing that is sent -/

section

variable {P : Type u} {S : Settings P} {marked : List (Text × Bool)}

/-- The entries of the listing that is sent. -/
theorem parseListing_sent (h : ∀ m ∈ marked, IsEntryText m.1) : parseListing (S.sent marked) =
    marked.map fun m => if (entryOf m.1).name ∈ S.nameOnly ∨ m.2 = true then
        (entryOf m.1).bared else entryOf m.1 := by
  rw [parseListing_eq, Settings.sent, entryTexts_join, List.map_map]
  · refine List.map_congr_left fun m hm => ?_
    by_cases hbare : (entryOf m.1).name ∈ S.nameOnly ∨ m.2 = true
    · have hb : (decide ((entryOf m.1).name ∈ S.nameOnly) || m.2) = true := by simpa using hbare
      rw [Function.comp_apply, sentText, if_pos hb, if_pos hbare, (h m hm).entryOf_bareForm]
    · have hb : ¬ (decide ((entryOf m.1).name ∈ S.nameOnly) || m.2) = true := by simpa using hbare
      rw [Function.comp_apply, sentText, if_neg hb, if_neg hbare]
  · intro t ht
    obtain ⟨m, hm, rfl⟩ := List.mem_map.mp ht
    rw [sentText]
    split_ifs
    · exact (h m hm).bareForm
    · exact h m hm

/-- It is as long as the simulator counts. -/
theorem length_sent :
    ((S.sent marked).length : ℤ) = S.size (marked.map fun m => (entryOf m.1, m.2)) := by
  rw [Settings.sent, length_join, total_map, Settings.size, total_map, List.length_map,
    List.length_map]
  congr 1
  refine total_congr fun m _ => ?_
  by_cases hbare : (entryOf m.1).name ∈ S.nameOnly ∨ m.2 = true
  · have hb : (decide ((entryOf m.1).name ∈ S.nameOnly) || m.2) = true := by simpa using hbare
    rw [sentText, if_pos hb, if_pos hbare, Entry.bareForm, List.length_append, Nat.add_comm]
    rfl
  · have hb : ¬ (decide ((entryOf m.1).name ∈ S.nameOnly) || m.2) = true := by simpa using hbare
    rw [sentText, if_neg hb, if_neg hbare]
    rfl

/-- To the simulator it is that long as well. -/
theorem size_inFull_sent (h : ∀ m ∈ marked, IsEntryText m.1) :
    S.size (inFull (parseListing (S.sent marked))) = (S.sent marked).length := by
  rw [length_sent, parseListing_sent h, Settings.size, Settings.size, inFull, total_map,
    total_map, total_map]
  simp only [List.length_map]
  congr 1
  refine total_congr fun m _ => ?_
  by_cases hname : (entryOf m.1).name ∈ S.nameOnly
  · simp [hname, Entry.bared, Entry.bareLen]
  · cases hm : m.2 <;> simp [hname, Entry.bared, Entry.bareLen]

/-- What is taken for demoted: the marked entries, and those that were bare. -/
theorem residual_sent (h : ∀ m ∈ marked, IsEntryText m.1)
    (hlisting : marked.map Prod.fst = entryTexts content)
    (hname : ∀ m ∈ marked, m.2 = true → (entryOf m.1).name ∉ S.nameOnly) :
    residual S.nameOnly (S.sent marked) =
      ((marked.filter (·.2)).map fun m => (entryOf m.1).name).toFinset ∪
        residual S.nameOnly content := by
  have hcontent : parseListing content = marked.map fun m => entryOf m.1 := by
    rw [parseListing_eq, ← hlisting, List.map_map]
    rfl
  ext n
  rw [residual, residual, parseListing_sent h, hcontent]
  simp only [Finset.mem_sdiff, Finset.mem_union, List.mem_toFinset, List.mem_map, List.mem_filter]
  constructor
  · rintro ⟨⟨e, ⟨⟨m, hm, rfl⟩, hbare⟩, rfl⟩, hn⟩
    by_cases hsent : (entryOf m.1).name ∈ S.nameOnly ∨ m.2 = true
    · rw [if_pos hsent] at hn ⊢
      exact Or.inl ⟨m, ⟨hm, hsent.resolve_left hn⟩, rfl⟩
    · rw [if_neg hsent] at hbare hn ⊢
      exact Or.inr ⟨⟨_, ⟨⟨m, hm, rfl⟩, hbare⟩, rfl⟩, hn⟩
  · rintro (⟨m, ⟨hm, hmark⟩, rfl⟩ | ⟨⟨e, ⟨⟨m, hm, rfl⟩, hbare⟩, rfl⟩, hn⟩)
    · refine ⟨⟨_, ⟨⟨m, hm, rfl⟩, ?_⟩, ?_⟩, hname m hm hmark⟩
      · rw [if_pos (Or.inr hmark)]
        rfl
      · rw [if_pos (Or.inr hmark)]
        rfl
    · refine ⟨⟨_, ⟨⟨m, hm, rfl⟩, ?_⟩, ?_⟩, hn⟩
      · split_ifs
        · rfl
        · exact hbare
      · split_ifs <;> rfl

/-- Decisions about entries are decisions about their texts. -/
theorem exists_marked {ms : List (Entry × Bool)} (h : ms.map Prod.fst = ts.map entryOf) :
    ∃ marked : List (Text × Bool), marked.map Prod.fst = ts ∧
        marked.map (fun m => (entryOf m.1, m.2)) = ms := by
  induction ts generalizing ms with
  | nil => exact ⟨[], rfl, (List.map_eq_nil_iff.mp h).symm⟩
  | cons t ts ih =>
    cases ms with
    | nil => cases h
    | cons m ms =>
      rw [List.map_cons, List.map_cons, List.cons.injEq] at h
      obtain ⟨marked, hlisting, rfl⟩ := ih h.2
      exact ⟨(t, m.2) :: marked, by rw [List.map_cons, hlisting], by rw [List.map_cons, ← h.1]⟩

/-- Where a report counts what its decisions come to, it predicts what is measured. -/
theorem predicted_of_size [LinearOrder P] {r : Report} (ms : List (Entry × Bool))
    (hlisting : ms.map Prod.fst = parseListing content)
    (hnames : r.demoted.Perm ((ms.filter (·.2)).map (·.1.name))) (htotal : r.total = S.size ms)
    (hname : ∀ m ∈ ms, m.2 = true → m.1.name ∉ S.nameOnly) :
    ∃ marked, Predicted S content r marked := by
  obtain ⟨marked, htexts, rfl⟩ := exists_marked hlisting
  have hentry : ∀ m ∈ marked, IsEntryText m.1 := fun m hm =>
    isEntryText_of_mem (htexts ▸ List.mem_map_of_mem hm)
  have hdemoted : r.demoted.Perm ((marked.filter (·.2)).map fun m => (entryOf m.1).name) := by
    rw [List.filter_map, List.map_map] at hnames
    exact hnames
  have hsize : ((S.sent marked).length : ℤ) = r.total := length_sent.trans htotal.symm
  refine ⟨marked, htexts, hdemoted, hsize, parseListing_sent hentry, ?_, fun hle => ?_⟩
  · rw [residual_sent hentry htexts fun m hm hmark => hname _ (List.mem_map_of_mem hm) hmark,
      List.toFinset_eq_of_perm _ _ hdemoted]
  · rw [simulate_eq, size_inFull_sent hentry, hsize, if_pos hle]

end

/-- **What is predicted is what is measured**: whatever the listing, the budget, the overrides, the
priorities and the tiers, if there is a report, the listing that is sent by its decisions is as long
as its total, it parses to the entries, whole or bare, and what is taken for demoted of it is what
was demoted, with what was bare in the first place. Within the budget, it is settled. -/
theorem prediction_measured {P : Type u} [LinearOrder P] (S : Settings P) (content : Text)
    {r : Report}
    (hr : S.simulate (parseListing content) = .ok r) : ∃ marked, Predicted S content r marked := by
  obtain ⟨-, rfl⟩ | ⟨-, -, rfl⟩ := simulate_eq_ok_iff.mp hr
  · refine predicted_of_size (inFull (parseListing content)) ?_ ?_ rfl ?_
    · rw [inFull, List.map_map]
      exact List.map_id _
    · simp [inFull]
    · simp [inFull]
  · have hdemotes : S.Demotes (parseListing content) (S.demotions (parseListing content))
        (S.marked (parseListing content)) :=
      demotes_demotions S fun _ => bareLen_le
    exact predicted_of_size _ hdemotes.listing hdemotes.names hdemotes.total fun m hm hmark =>
      (hdemotes.unprotected m hm hmark).1

/-- `b` loses its description. -/
theorem prediction_measured_sample :
    ∃ marked, Predicted sampleSettings sampleListing
        (sampleSettings.demotions (parseListing sampleListing)) marked :=
  prediction_measured sampleSettings sampleListing simulate_sample

end OracleSkills.Listing
