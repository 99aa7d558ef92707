import OracleSkills.Listing.Simulate

/-!
# The characters of the listing

"Counting those lines as entries silently drops their characters from the total": a description may
go on over lines, empty ones among them, and each such line is counted with the entry that it
belongs to. `parse_listing_accounted` says that no character from the first entry on is counted
twice or left out, except the line ends between two entries, which the simulator adds
(`separators`). Its size of a listing in full is therefore the length of the text
(`size_inFull_parseListing`).
-/

namespace OracleSkills.Listing

open Python Coding Greedy

/-! ### What is claimed -/

/-- The lines that begin an entry. -/
def entryLines (content : Text) : List Text := (content.splitOn '\n').filter entryRe

/-- The lines before the first of them. -/
def skippedLines (content : Text) : List Text := (content.splitOn '\n').takeWhile fun line =>
    !entryRe line

/-- The content from the first of them to the end. -/
def fromFirst (content : Text) : Text :=
  join ['\n'] ((content.splitOn '\n').dropWhile fun line => !entryRe line)

/-- The name on a line that begins an entry. -/
def nameOn (line : Text) : Text := strip ((line.drop 2).takeWhile (· ≠ ':'))

/-- The bare form of an entry. -/
def Entry.bareForm (e : Entry) : Text := "- ".toList ++ e.name

/-- What is claimed of `parse_listing`. -/
structure Accounted (content : Text) : Prop where
  /-- There is an entry for each line that begins one, in the order of the lines. -/
  entries : (parseListing content).map (fun e => (e.name, e.bare)) =
    (entryLines content).map fun line => (nameOn line, !hasDescription (line.drop 2))
  /-- `fromFirst` is what is left behind the lines that are skipped. -/
  begins : entryLines content ≠ [] → content = unlines (skippedLines content) ++ fromFirst content
  none : entryLines content = [] → fromFirst content = []
  chars : total (fun e => (e.entryLen : ℤ)) (parseListing content) +
    separators (parseListing content).length =
    (fromFirst content).length
  bare : ∀ e ∈ parseListing content, e.bareForm.length ≤ e.entryLen

/-! ### Lines that are joined -/

theorem length_join (ls : List Text) :
    ((join ['\n'] ls).length : ℤ) = total (fun l => (l.length : ℤ)) ls + separators ls.length := by
  induction ls with
  | nil => rfl
  | cons l ls ih =>
    cases ls with
    | nil => simp [join, total, separators]
    | cons m ms =>
      simp only [separators, List.length_cons, total] at ih ⊢
      rw [join_cons_cons]
      simp only [List.length_append, List.length_singleton]
      omega

theorem join_append {ls ms : List Text} (h : ms ≠ []) :
    join ['\n'] (ls ++ ms) = unlines ls ++ join ['\n'] ms := by
  by_cases hl : ls = []
  · rw [hl, List.nil_append, unlines_nil, List.nil_append]
  · rw [join, Format.intercalate_append hl h, ← join_append_newline hl]
    rfl

/-! ### The entry of a block of lines -/

section Block

variable (b : Headed entryRe)

/-- An entry is named, and bare or not, by the line that begins it, if that is a line. -/
theorem entryOf_items (h : '\n' ∉ b.head) :
    ((entryOf (join ['\n'] b.items)).name, (entryOf (join ['\n'] b.items)).bare) =
        (nameOn b.head, !hasDescription (b.head.drop 2)) := by
  obtain ⟨t, ht, hend⟩ := exists_join_cons b.head b.more
  have hlen : 2 ≤ b.head.length := two_le_of_entryRe b.isHead_head
  have hdrop : (join ['\n'] b.items).drop 2 = b.head.drop 2 ++ t := by
    rw [Headed.items, ht, List.drop_append_of_le_length hlen]
  -- the first line of what is behind the dash
  have hline : ((join ['\n'] b.items).drop 2).takeWhile (· ≠ '\n') = b.head.drop 2 := by
    rw [hdrop, List.takeWhile_append_of_pos fun c hc => ?_]
    · cases t with
      | nil => simp
      | cons c t => simp [hend c rfl]
    · have hne : c ≠ '\n' := fun hn => h (hn ▸ List.mem_of_mem_drop hc)
      simpa using hne
  have hname : (((join ['\n'] b.items).drop 2).takeWhile (· ≠ ':')).takeWhile (· ≠ '\n') =
      (b.head.drop 2).takeWhile (· ≠ ':') := by
    rw [← hline, List.takeWhile_takeWhile, List.takeWhile_takeWhile]
    simp only [and_comm]
  simp only [entryOf, hname, hline, nameOn]

/-- The lengths of the entries are those of the joined blocks. -/
theorem total_entryOf (bs : List (Headed entryRe)) :
    total (fun e : Entry => (e.entryLen : ℤ)) (bs.map fun b => entryOf (join ['\n'] b.items)) +
      separators (bs.map fun b => entryOf (join ['\n'] b.items)).length =
          (join ['\n'] (bs.flatMap Headed.items)).length := by
  rw [join, Format.intercalate_flatMap Headed.items_ne_nil]
  refine Eq.trans ?_ (length_join _).symm
  rw [total_map, total_map, List.length_map, List.length_map]
  rfl

end Block

/-! ### The listing -/

/-- **Every character is accounted for.** -/
theorem parse_listing_accounted (content : Text) : Accounted content := by
  obtain ⟨skipped, bs, hlines, hskipped, hentries⟩ := exists_parseListing content
  have hheads : entryLines content = bs.map Headed.head := by
    rw [entryLines, hlines, filter_flatMap_items bs hskipped]
  have hfrom : fromFirst content = join ['\n'] (bs.flatMap Headed.items) := by
    rw [fromFirst, hlines, dropWhile_flatMap_items bs hskipped]
  refine ⟨?_, fun hne => ?_, fun hnil => ?_, ?_, fun e he => ?_⟩
  · rw [hentries, hheads, List.map_map, List.map_map]
    refine List.map_congr_left fun b hb =>
      entryOf_items b (Format.sep_notMem_of_mem_splitOn (t := content) ?_)
    rw [hlines]
    exact List.mem_append_right _ (List.mem_flatMap.mpr ⟨b, hb, List.mem_cons_self ..⟩)
  · have hdrop : (content.splitOn '\n').dropWhile (fun line => !entryRe line) ≠ [] := by
      rw [hlines, dropWhile_flatMap_items bs hskipped]
      intro hnil
      rw [hheads] at hne
      cases bs with
      | nil => exact hne rfl
      | cons b bs => simp [Headed.items] at hnil
    rw [skippedLines, fromFirst, ← join_append hdrop, List.takeWhile_append_dropWhile]
    exact (List.intercalate_splitOn '\n').symm
  · rw [hheads, List.map_eq_nil_iff] at hnil
    rw [hfrom, hnil]
    rfl
  · rw [hentries, hfrom, total_entryOf]
  · have hbare : e.bareLen ≤ e.entryLen := bareLen_le he
    rw [Entry.bareForm, List.length_append, Nat.add_comm]
    exact hbare

/-- To the simulator, a listing with no name-only skill is as long as its text. -/
theorem size_inFull_parseListing {P : Type*} (S : Settings P) (h : S.nameOnly = [])
    (content : Text) :
    S.size (inFull (parseListing content)) = (fromFirst content).length := by
  obtain ⟨skipped, bs, hlines, hskipped, hentries⟩ := exists_parseListing content
  rw [fromFirst, hlines, dropWhile_flatMap_items bs hskipped, ← total_entryOf, ← hentries,
    Settings.size, inFull, total_map, List.length_map, h]
  simp

end OracleSkills.Listing
