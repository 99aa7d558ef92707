import OracleSkills.Coding.Headed
import OracleSkills.Python.Text

/-!
# The skill listing

`listing_report.py` measures the listing of skills that Claude Code sends, "from what Claude Code
actually sent, not from an estimate of it". `parse_listing` cuts it into entries: "a new entry
starts at `- <kebab-name>` followed by ": " or end of line. Any other line is a continuation", which
is added to the entry before it.
-/

namespace OracleSkills.Listing

open Python Coding

/-- An entry of the listing. -/
structure Entry where
  name : Text
  /-- `entry_len`. -/
  entryLen : ℕ
  bare : Bool
  deriving DecidableEq

/-- `[a-z0-9]`. -/
def isNameStart (c : Char) : Bool := 97 ≤ c.toNat && c.toNat ≤ 122 || 48 ≤ c.toNat && c.toNat ≤ 57

/-- `[a-z0-9:_-]`. -/
def isNameChar (c : Char) : Bool := isNameStart c || c = ':' || c = '_' || c = '-'

/-- `ENTRY_RE.match(line)`: `- [a-z0-9][a-z0-9:_-]*(:|$)`. The run is given up for a shorter one
that a colon follows. -/
def entryRe : Text → Bool
  | '-' :: ' ' :: c :: rest =>
    isNameStart c &&
      ((rest.takeWhile isNameChar).contains ':' || rest.dropWhile isNameChar = [] ||
        rest.dropWhile isNameChar = ['\n'])
  | _ => false

/-- A line of the listing, to the lines that are there: an entry of its own, or more of the last
one. -/
def addLine (lines : List Text) (line : Text) : List Text :=
  if "- ".toList.isPrefixOf line ∧ entryRe line then lines ++ [line]
  else
    match lines.getLast? with
    | none => lines
    | some last => lines.dropLast ++ [last ++ '\n' :: line]

/-- `": " in t`. -/
def hasDescription (t : Text) : Bool := (cut ": ".toList t).isSome

/-- What `parse_listing` keeps of an entry. -/
def entryOf (line : Text) : Entry where
  name := strip (((line.drop 2).takeWhile (· ≠ ':')).takeWhile (· ≠ '\n'))
  entryLen := line.length
  bare := !hasDescription ((line.drop 2).takeWhile (· ≠ '\n'))

/-- `parse_listing`. -/
def parseListing (content : Text) : List Entry :=
  ((content.splitOn '\n').foldl addLine []).map entryOf

/-- The length of the entry as a bare name. -/
def Entry.bareLen (e : Entry) : ℕ := e.name.length + 2

/-- A line with a dash and a blank before it is no shorter than its bare name. -/
theorem bareLen_entryOf {line : Text} (h : 2 ≤ line.length) :
    (entryOf line).bareLen ≤ (entryOf line).entryLen := by
  have hname : (entryOf line).name.length ≤ (line.drop 2).length :=
    (infix_stripBy _ _).length_le.trans
      (((List.takeWhile_prefix _).length_le).trans (List.takeWhile_prefix _).length_le)
  rw [List.length_drop] at hname
  show (entryOf line).name.length + 2 ≤ line.length
  omega

/-- A line that begins an entry begins with a dash and a blank. -/
theorem isPrefixOf_of_entryRe {line : Text} (h : entryRe line = true) :
    "- ".toList.isPrefixOf line := by
  unfold entryRe at h
  split at h
  · rfl
  · cases h

theorem two_le_of_entryRe {line : Text} (h : entryRe line = true) : 2 ≤ line.length :=
  (List.isPrefixOf_iff_prefix.mp (isPrefixOf_of_entryRe h)).length_le

/-! ### Lines and entries -/

theorem addLine_of_entryRe {line : Text} (h : entryRe line = true) (lines : List Text) :
    addLine lines line = lines ++ [line] :=
  if_pos ⟨isPrefixOf_of_entryRe h, h⟩

theorem addLine_nil {line : Text} (h : entryRe line = false) : addLine [] line = [] :=
  if_neg fun hl => Bool.false_ne_true (h.symm.trans hl.2)

theorem addLine_concat {line : Text} (h : entryRe line = false) (lines : List Text) (last : Text) :
    addLine (lines ++ [last]) line = lines ++ [last ++ '\n' :: line] := by
  rw [addLine, if_neg fun hl => Bool.false_ne_true (h.symm.trans hl.2), List.getLast?_concat]
  simp only [List.dropLast_concat]

/-- Lines that begin no entry are added to the last one. -/
theorem foldl_addLine_concat {ls : List Text} (h : ∀ l ∈ ls, entryRe l = false) (lines : List Text)
    (last : Text) :
    ls.foldl addLine (lines ++ [last]) = lines ++ [join ['\n'] (last :: ls)] := by
  induction ls generalizing last with
  | nil => rw [List.foldl_nil, join, List.intercalate_singleton]
  | cons l ls ih =>
    rw [List.foldl_cons, addLine_concat (h l (List.mem_cons_self ..)),
      ih fun m hm => h m (List.mem_cons_of_mem _ hm)]
    cases ls with
    | nil => simp [join]
    | cons m ms => simp [join_cons_cons]

theorem foldl_addLine_skipped {ls : List Text} (h : ∀ l ∈ ls, entryRe l = false) :
    ls.foldl addLine [] = [] := by
  induction ls with
  | nil => rfl
  | cons l ls ih => rw [List.foldl_cons, addLine_nil (h l (List.mem_cons_self ..)),
    ih fun m hm => h m (List.mem_cons_of_mem _ hm)]

/-- Every block of lines is an entry. -/
theorem foldl_addLine_items (bs : List (Headed entryRe)) (lines : List Text) :
    (bs.flatMap Headed.items).foldl addLine lines = lines ++ bs.map fun b =>
        join ['\n'] b.items := by
  induction bs generalizing lines with
  | nil => simp
  | cons b bs ih =>
    rw [List.flatMap_cons, List.foldl_append, Headed.items, List.foldl_cons,
      addLine_of_entryRe b.isHead_head, foldl_addLine_concat b.isHead_more, ih, List.append_assoc,
      List.map_cons, List.singleton_append, Headed.items]

/-- The texts of the entries. -/
def entryTexts (content : Text) : List Text := (content.splitOn '\n').foldl addLine []

theorem exists_entryTexts (content : Text) : ∃ (skipped : List Text) (bs : List (Headed entryRe)),
    content.splitOn '\n' = skipped ++ bs.flatMap Headed.items ∧ (∀ l ∈ skipped, entryRe l = false) ∧
      entryTexts content = bs.map fun b => join ['\n'] b.items := by
  obtain ⟨skipped, bs, hlines, hskipped⟩ := exists_headed entryRe (content.splitOn '\n')
  refine ⟨skipped, bs, hlines, hskipped, ?_⟩
  rw [entryTexts, hlines, List.foldl_append, foldl_addLine_skipped hskipped, foldl_addLine_items,
    List.nil_append]

theorem parseListing_eq (content : Text) :
    parseListing content = (entryTexts content).map entryOf := rfl

/-- **The entries are the blocks of the lines that begin one.** -/
theorem exists_parseListing (content : Text) : ∃ (skipped : List Text) (bs : List (Headed entryRe)),
    content.splitOn '\n' = skipped ++ bs.flatMap Headed.items ∧ (∀ l ∈ skipped, entryRe l = false) ∧
      parseListing content = bs.map fun b => entryOf (join ['\n'] b.items) := by
  obtain ⟨skipped, bs, hlines, hskipped, htexts⟩ := exists_entryTexts content
  refine ⟨skipped, bs, hlines, hskipped, ?_⟩
  rw [parseListing_eq, htexts, List.map_map]
  rfl

/-- **No entry is shorter than its bare name.** -/
theorem bareLen_le {content : Text} {e : Entry} (h : e ∈ parseListing content) :
    e.bareLen ≤ e.entryLen := by
  obtain ⟨skipped, bs, -, -, hentries⟩ := exists_parseListing content
  rw [hentries] at h
  obtain ⟨b, -, rfl⟩ := List.mem_map.mp h
  obtain ⟨t, ht, -⟩ := exists_join_cons b.head b.more
  have hhead : 2 ≤ b.head.length := two_le_of_entryRe b.isHead_head
  apply bareLen_entryOf
  rw [Headed.items, ht, List.length_append]
  omega

end OracleSkills.Listing
