import OracleSkills.Python.Lines
import OracleSkills.Tools.Collect

/-!
# The name of a renamed copy

`collect_commit.py` writes the `SKILL.md` of a renamed skill with
`text.replace(f"name: {name}", f"name: {target}", 1)`: whatever the first occurrence is. The copy is
read under its new name if that occurrence is the line which the reader has the name from
(`NameLine`) and no fence comes up when the target is in its place (`RenamesAt`). What else its
reader finds in the copy, the body too, is then as it was (`RenamesAt.read`, `Renames.readsAs`).

Of a file that is written as the writer writes it nothing else makes such a copy
(`Regular.renames`): where the first occurrence is in the description, say, or in a longer name, or
behind the frontmatter, the copy keeps the old name, or has one that is neither.

What is *not* formalized: files that do not decode are not renamed but read as having no name, and
so no statement is made of their bytes; and `Regular` leaves out files whose closing fence is inside
a line or which name themselves twice, where a replacement can cut the frontmatter at another place.
-/

namespace OracleSkills.Tools

open Python Frontmatter Files

/-! ### Names that become directories -/

/-- A letter or a digit, or one of `.`, `_` and `-`. -/
structure Segment (v : Text) : Prop where
  chars : ∀ c ∈ v, isSegmentChar c = true
  head : ∃ c r, v = c :: r ∧ c.isAlphanum = true

theorem segment_of_badSegment {v : Text} (h : badSegment v = none) (hline : OneLine v) :
    Segment v := by
  unfold badSegment at h
  split_ifs at h with hdot hsep hmatch
  have hlast : v.getLast? ≠ some '\n' := by
    intro he
    exact absurd (hline '\n' (List.mem_of_getLast? he)) (by decide)
  rw [matchesSegment, if_neg hlast] at hmatch
  rcases v with - | ⟨c, r⟩
  · cases hmatch
  · simp only [Bool.and_eq_true, List.all_eq_true] at hmatch
    obtain ⟨⟨hc, -⟩, hr⟩ := hmatch
    refine ⟨fun d hd => ?_, c, r, rfl, hc⟩
    rcases List.mem_cons.mp hd with rfl | hd
    · simp [isSegmentChar, hc]
    · exact hr d hd

/-- None of them is white space, a colon or a quote. -/
theorem plain_of_isSegmentChar {c : Char} (h : isSegmentChar c = true) :
    isSpace c = false ∧ c ≠ ':' ∧ c ≠ '"' ∧ c ≠ '\'' := by
  refine ⟨?_, ?_, ?_, ?_⟩
  · by_contra hspace
    have hall : ∀ n ∈ spaceCodes, isSegmentChar (Char.ofNat n) = false := by decide
    have hc := hall c.toNat (by simpa [isSpace] using hspace)
    rw [Char.ofNat_toNat, h] at hc
    cases hc
  all_goals
    rintro rfl
    exact absurd h (by decide)

theorem Segment.noSpace {v : Text} (h : Segment v) : ∀ c ∈ v, isSpace c = false := fun c hc =>
  (plain_of_isSegmentChar (h.chars c hc)).1

/-- What the reader makes of such a value: blanks behind it are stripped, and it is in no quotes. -/
theorem Segment.read {v l : Text} (h : Segment v) (hl : ∀ c ∈ l, isSpace c = true) :
    unquote (strip (v ++ l)) = v := by
  have hstrip : strip v = v := stripped_of_noSpace h.noSpace
  rw [strip_append_right hl, hstrip]
  obtain ⟨c, r, rfl, -⟩ := h.head
  obtain ⟨-, -, hquote, hquote'⟩ := plain_of_isSegmentChar (h.chars c List.mem_cons_self)
  exact unquote_of_head (by simpa using hquote) (by simpa using hquote')

/-- The text under the frontmatter, stripped. -/
def File.body (x : File) : Text := strip ((x.read.map fun text => (readFrontmatter text).2).getD [])

/-! ### The line of the name -/

/-- `name: <name>`. -/
def nameField (name : Text) : Text := field "name".toList name

/-- The first `name: <name>` of a text is where its reader finds the name: a line of its
frontmatter, which is `before ++ nameField name ++ after`. -/
structure NameLine (name text before after body : Text) : Prop where
  first : cut (nameField name) text = some (fence ++ before, after ++ (fence ++ body))
  block : NoFence (before ++ nameField name ++ after ++ ['-', '-'])
  /-- It begins a line, with nothing but blanks behind it, -/
  starts : ∀ c ∈ before.getLast?, isLineEnd c = true
  ends : ∀ c ∈ (splitlines after).headD [], isSpace c = true
  /-- and no line behind it has a name. -/
  last : values "name".toList (splitlines after).tail = []

/-- What is asked of single characters can be computed. -/
theorem NameLine.of_all {name text before after body : Text}
    (hfirst : cut (nameField name) text = some (fence ++ before, after ++ (fence ++ body)))
    (hblock : NoFence (before ++ nameField name ++ after ++ ['-', '-']))
    (hstarts : before.getLast?.all isLineEnd = true)
    (hends : ((splitlines after).headD []).all isSpace = true)
    (hlast : values "name".toList (splitlines after).tail = []) :
    NameLine name text before after body := by
  refine ⟨hfirst, hblock, fun c hc => ?_, List.all_eq_true.mp hends, hlast⟩
  rwa [Option.mem_def.mp hc] at hstarts

/-- With the target in its place no fence comes up. -/
structure RenamesAt (name target text before after body : Text) : Prop
    extends NameLine name text before after body where
  unfenced : NoFence (target ++ after ++ ['-', '-'])

/-- `.replace(f"name: {name}", f"name: {target}", 1)` meets the line that the name is read from. -/
def Renames (name target text : Text) : Prop :=
  ∃ before after body, RenamesAt name target text before after body

variable {name target text before after body l t : Text} {x : File}

theorem nameField_ne_nil : nameField name ≠ [] := by simp [nameField, field]

theorem nameField_head (name t : Text) : (nameField name ++ t).head? = some 'n' := rfl

theorem oneLine_nameField (h : OneLine name) : OneLine (nameField name) :=
  oneLine_field (by decide) h

theorem lineValue_nameField (h : Segment name) (hl : ∀ c ∈ l, isSpace c = true) (k : Text) :
    lineValue k (nameField name ++ l) = if k = "name".toList then some name else none := by
  have happend : nameField name ++ l = field "name".toList (name ++ l) := by simp [nameField, field]
  rw [lineValue, happend, lineItem_field plainKey_name, Option.bind_some, h.read hl]
  exact if_congr eq_comm rfl rfl

/-- The lines of a frontmatter with a name in it. -/
theorem splitlines_nameField (hstarts : ∀ c ∈ before.getLast?, isLineEnd c = true)
    (hname : OneLine name) (after : Text) :
    splitlines (before ++ nameField name ++ after) =
      splitlines before ++ (nameField name ++ (splitlines after).headD []) ::
          (splitlines after).tail := by
  have hhead : (nameField name ++ after).head? ≠ some '\n' := by
    rw [nameField_head]
    decide
  rw [List.append_assoc, splitlines_append_of_lineEnd hstarts hhead,
    splitlines_append_oneLine (oneLine_nameField hname) nameField_ne_nil]

/-- A frontmatter with such a line, and nothing behind it that has a name. -/
theorem parseLines_nameField (hstarts : ∀ c ∈ before.getLast?, isLineEnd c = true)
    (hends : ∀ c ∈ (splitlines after).headD [], isSpace c = true) (hline : OneLine name)
    (hname : Segment name) (k : Text) :
    (parseLines (splitlines (before ++ nameField name ++ after))).get? k =
      (values k (splitlines before) ++ (if k = "name".toList then [name] else []) ++
          values k (splitlines after).tail).getLast? := by
  rw [get?_parseLines, splitlines_nameField hstarts hline, values_append, values, values,
    List.filterMap_cons, lineValue_nameField hname hends, List.append_assoc]
  rcases eq_or_ne k "name".toList with hk | hk
  · rw [if_pos hk, if_pos hk]
    rfl
  · rw [if_neg hk, if_neg hk]
    rfl

/-- A blank stands in a line of the name, where no fence goes through. -/
theorem noFence_nameField :
    NoFence (before ++ nameField name ++ after) ↔ NoFence (before ++ "name:".toList) ∧
    NoFence (name ++ after) := by
  have happend : before ++ nameField name ++ after = (before ++ "name:".toList) ++ ' ' ::
      (name ++ after) := by
    simp [nameField, field]
  rw [NoFence, happend, infix_append_cons_iff (by decide) (by decide), not_or]
  rfl

theorem RenamesAt.replaced (h : RenamesAt name target text before after body) :
    replaceFirst (nameField name) (nameField target) text = fence ++
        (before ++ nameField target ++ after ++ (fence ++ body)) := by
  rw [replaceFirst, h.first]
  simp

theorem RenamesAt.text_eq (h : RenamesAt name target text before after body) :
    text = fence ++ (before ++ nameField name ++ after ++ (fence ++ body)) := by
  rw [cut_eq_append h.first]
  simp

/-- **The copy is read as the target**, and otherwise as the skill is. -/
theorem RenamesAt.read (h : RenamesAt name target text before after body) (hname : Segment name)
    (hline : OneLine name) (htarget : Segment target) (htline : OneLine target) :
    let text' := replaceFirst (nameField name) (nameField target) text
    (collectFm text').get? "name".toList = some target ∧
      (∀ k, k ≠ "name".toList → (collectFm text').get? k = (collectFm text).get? k) ∧
      (readFrontmatter text').2 = (readFrontmatter text).2 := by
  intro text'
  have hsplit : fenceSplit text = some (before ++ nameField name ++ after, body) :=
    fenceSplit_eq_some_iff.mpr ⟨h.text_eq, h.block⟩
  have hsplit' : fenceSplit text' = some (before ++ nameField target ++ after, body) := by
    have hblock := h.block
    rw [List.append_assoc, noFence_nameField] at hblock
    refine fenceSplit_eq_some_iff.mpr ⟨h.replaced, ?_⟩
    rw [List.append_assoc, noFence_nameField]
    exact ⟨hblock.1, by simpa using h.unfenced⟩
  refine ⟨?_, fun k hk => ?_, ?_⟩
  · rw [collectFm, hsplit']
    simp only
    rw [parseLines_nameField h.starts h.ends htline htarget, if_pos rfl, h.last]
    simp
  · rw [collectFm, hsplit', collectFm, hsplit]
    simp only
    rw [parseLines_nameField h.starts h.ends htline htarget,
      parseLines_nameField h.starts h.ends hline hname, if_neg hk, if_neg hk]
  · rw [readFrontmatter, hsplit', readFrontmatter, hsplit]

/-- A name with a number behind it has a fence only where the name with a hyphen has one. -/
theorem noFence_candidate {base : Text} (h : NoFence (base ++ ['-'])) (k : ℕ) :
    NoFence (candidate base k) := by
  cases k with
  | zero => exact h.mono (List.prefix_append base _).isInfix
  | succ k =>
    have hdigits : ∀ c ∈ (Nat.repr (k + 2)).toList, c ≠ '-' := by
      rintro c hc rfl
      rw [Nat.toList_repr] at hc
      exact absurd (Nat.isDigit_of_mem_toDigits (by decide) le_rfl hc) (by decide)
    rw [candidate, numbered]
    generalize (Nat.repr (k + 2)).toList = digits at hdigits
    rcases digits with - | ⟨d, digits⟩
    · exact h
    · have hd : d ∉ fence := fun hmem => hdigits d List.mem_cons_self (by simpa [fence] using hmem)
      rw [NoFence, List.append_cons, infix_append_cons_iff hd (by decide), not_or]
      refine ⟨h, fun hin => ?_⟩
      exact hdigits '-' (List.mem_cons_of_mem d (hin.subset (by decide))) rfl

/-- Where the line ends behind the name, any name without a fence can stand. -/
theorem NameLine.renames (h : NameLine name text before after body)
    (hafter : ∃ c r, after = c :: r ∧ c ≠ '-')
    (htarget : NoFence target) : Renames name target text := by
  refine ⟨before, after, body, h, ?_⟩
  have hblock := h.block
  obtain ⟨c, r, rfl, hc⟩ := hafter
  have hc' : c ∉ fence := fun hmem => hc (by simpa [fence] using hmem)
  rw [NoFence, List.append_assoc, List.cons_append, infix_append_cons_iff hc' (by decide), not_or]
  refine ⟨htarget, fun hin => hblock (hin.trans ?_)⟩
  exact ⟨before ++ nameField name ++ [c], [], by simp⟩

/-! ### A renamed copy -/

theorem renameText_of_read (h : x.read = some text) :
    renameText name target x = .text (replaceFirst (nameField name) (nameField target) text) := by
  rw [renameText, h]
  rfl

theorem read_renameText (name : Text) (h : x.read = some text) (htarget : OneLine target) :
    (renameText name target x).read =
        some (replaceFirst (nameField name) (nameField target) text) := by
  have htext : '\r' ∉ text := by
    rcases x with t | bytes
    · cases h
      exact not_mem_universalNewlines t
    · cases h
  have htarget' : '\r' ∉ nameField target :=
    fun hc => absurd (oneLine_nameField htarget _ hc) (by decide)
  rw [renameText_of_read h, File.read, universalNewlines_eq_self]
  rw [replaceFirst]
  split
  · exact htext
  · next a b hcut =>
    rw [cut_eq_append hcut] at htext
    simp only [List.mem_append, not_or] at htext ⊢
    exact ⟨⟨htext.1.1, htarget'⟩, htext.2⟩

/-- What the reader finds in the file of a renamed copy. -/
structure ReadsAs (target : Text) (x y : File) : Prop where
  name : y.name = target
  hash : y.hash = x.hash
  identity : identity y.fm = identity x.fm
  body : y.body = x.body

theorem Renames.readsAs (h : Renames name target text) (hread : x.read = some text)
    (hname : Segment name) (hline : OneLine name)
    (htarget : Segment target) (htline : OneLine target) :
    ReadsAs target x (renameText name target x) := by
  obtain ⟨before, after, body, h⟩ := h
  obtain ⟨hfm, hother, hbody⟩ := h.read hname hline htarget htline
  have hread' := read_renameText name hread htline
  have hkey : ∀ k, k ≠ "name".toList →
      (renameText name target x).fm.getD k [] = x.fm.getD k [] := fun k hk => by
    rw [File.fm, hread', File.fm, hread, Option.map_some, Option.map_some, Option.getD_some,
      Option.getD_some, Dict.getD, hother k hk]
    rfl
  refine ⟨?_, hkey _ (by decide), ?_, ?_⟩
  · rw [File.name, File.fm, hread', Option.map_some, Option.getD_some, Dict.getD, hfm]
    rfl
  · rw [identity, identity, hkey _ (by decide), hkey _ (by decide)]
  · rw [File.body, hread', File.body, hread, Option.map_some, Option.map_some, hbody]

/-! ### Names that are read are on one line -/

theorem oneLine_fm {k v : Text} (h : x.fm.get? k = some v) : OneLine v := by
  have hnil : ∀ {v : Text}, Dict.get? k ([] : Dict Text Text) = some v → OneLine v :=
    fun h => by cases h
  rw [File.fm] at h
  cases hread : x.read with
  | none =>
    rw [hread] at h
    exact hnil h
  | some text =>
    rw [hread, Option.map_some, Option.getD_some, collectFm] at h
    split at h
    · exact hnil h
    · exact oneLine_of_mem_parseLines (fun l hl => oneLine_of_mem_splitlines hl)
        (Dict.mem_of_get? h)

theorem oneLine_getD {k d : Text} (hd : OneLine d) : OneLine (x.fm.getD k d) := by
  rw [Dict.getD]
  cases h : x.fm.get? k with
  | none => exact hd
  | some v => exact oneLine_fm h

variable {s : Skill}

theorem Skill.Of.oneLine_name (h : s.Of x) : OneLine s.name := by
  rw [h.name, File.name]
  exact oneLine_getD (by decide)

theorem Skill.Of.oneLine_author (h : s.Of x) : OneLine s.author := by
  rw [Skill.author, h.fm]
  split_ifs
  · decide
  · exact oneLine_getD (by decide)

theorem oneLine_numbered {base : Text} (h : OneLine base) (n : ℕ) : OneLine (numbered base n) := by
  refine h.append fun c hc => ?_
  rcases List.mem_cons.mp hc with rfl | hc
  · decide
  · rw [Nat.toList_repr] at hc
    have hdigit := Nat.isDigit_of_mem_toDigits (by decide) le_rfl hc
    have hseg : isSegmentChar c = true := by simp [isSegmentChar, Char.isAlphanum, hdigit]
    by_contra hl
    have hspace := isSpace_of_isLineEnd (c := c) (by simpa using hl)
    rw [(plain_of_isSegmentChar hseg).1] at hspace
    cases hspace

/-- The loop that looks for a new name tries the candidates. -/
theorem freshFrom_candidate (taken : List Text) (base : Text) (fuel k : ℕ) :
    ∃ m, freshFrom taken base fuel (k + 2) (candidate base k) = candidate base m := by
  induction fuel generalizing k with
  | zero => exact ⟨k, rfl⟩
  | succ fuel ih =>
    rw [freshFrom]
    split_ifs
    · exact ih (k + 1)
    · exact ⟨k, rfl⟩

theorem oneLine_candidate {base : Text} (h : OneLine base) (k : ℕ) :
    OneLine (candidate base k) := by
  cases k with
  | zero => exact h
  | succ k => exact oneLine_numbered h _

theorem oneLine_freshTarget (taken : List Text) {author : Text} (hname : OneLine name)
    (hauthor : OneLine author) :
    OneLine (freshTarget taken name author) := by
  have hbase : OneLine (name ++ '-' :: author) :=
    hname.append ((by decide : OneLine ['-']).append hauthor)
  obtain ⟨k, hk⟩ := freshFrom_candidate taken (name ++ '-' :: author) (taken.length + 1) 0
  have htarget : freshTarget taken name author = candidate (name ++ '-' :: author) k := hk
  rw [htarget]
  exact oneLine_candidate hbase k

/-! ### Nothing else renames -/

/-- What a strip and the quotes take off a value is white space and quotes. -/
theorem mem_unquote_strip {c : Char} (hspace : isSpace c = false) (hq : c ≠ '"') (hq' : c ≠ '\'')
    (h : c ∈ t) :
    c ∈ unquote (strip t) := by
  have hs : c ∈ strip t := by
    obtain ⟨x, y, heq, hx, hy⟩ := exists_strip t
    rw [heq, List.mem_append, List.mem_append] at h
    rcases h with (h | h) | h
    · rw [hx c h] at hspace
      cases hspace
    · exact h
    · rw [hy c h] at hspace
      cases hspace
  have hinner : ∀ v : Text, c ∈ v → v.head? = v.getLast? →
      (v.head? = some '"' ∨ v.head? = some '\'') → c ∈ v.tail.dropLast := by
    intro v hv hends hquote
    rcases v with - | ⟨d, r⟩
    · cases hv
    have hd : c ≠ d := by
      rintro rfl
      rw [List.head?_cons, Option.some.injEq, Option.some.injEq] at hquote
      exact hquote.elim hq hq'
    have hr : c ∈ r := (List.mem_cons.mp hv).resolve_left hd
    have hne : r ≠ [] := List.ne_nil_of_mem hr
    rw [List.tail_cons]
    rw [← List.dropLast_concat_getLast hne, List.mem_append, List.mem_singleton] at hr
    refine hr.resolve_right ?_
    rintro rfl
    rw [List.head?_cons, List.getLast?_cons, List.getLast?_eq_some_getLast hne, Option.getD_some,
      Option.some.injEq] at hends
    exact hd hends.symm
  rw [unquote]
  split_ifs with hquoted hsingle
  · refine mem_replaceFrom_of_notMem (n := 0) (by simp [hq']) (by simp)
      (hinner _ hs hquoted.2.1 hquoted.2.2)
  · exact hinner _ hs hquoted.2.1 hquoted.2.2
  · exact hs

/-- What the reader takes from a line in which a name field begins in the middle is not the name in
the field: it is nothing, or it has the colon of the field in it. -/
theorem lineValue_inside {p : Text} (hp : p ≠ []) :
    (∀ u, lineValue "name".toList (p ++ ("name:".toList ++ u)) = none) ∨
      ∀ u, ∃ z, lineValue "name".toList (p ++ ("name:".toList ++ u)) = some z ∧ ':' ∈ z := by
  obtain ⟨d, r, rfl⟩ := List.exists_cons_of_ne_nil hp
  by_cases hd : isSpace d = true
  · -- the line is indented
    refine Or.inl fun u => ?_
    have hindent : lstrip (d :: r ++ ("name:".toList ++ u)) ≠ d :: r ++ ("name:".toList ++ u) := by
      rw [List.cons_append, lstrip, List.dropWhile_cons, if_pos hd]
      intro h
      have hlen := (List.dropWhile_suffix (l := r ++ ("name:".toList ++ u)) isSpace).length_le
      rw [h, List.length_cons] at hlen
      omega
    rw [lineValue, lineItem, if_pos (Or.inr hindent)]
    rfl
  have hd' : isSpace d = false := by simpa using hd
  have hitem : ∀ u, lineItem (d :: r ++ ("name:".toList ++ u)) =
      (cut [':'] (d :: r ++ ("name:".toList ++ u))).map fun kv =>
          (strip kv.1, unquote (strip kv.2)) := fun u => by
    rw [lineItem, List.cons_append, if_neg]
    rw [not_or, not_not]
    exact ⟨strip_cons_ne_nil hd' _, lstrip_cons_of_not_space hd' _⟩
  by_cases hcolon : ':' ∈ d :: r
  · obtain ⟨k, w, hkw, hk⟩ := List.eq_append_cons_of_mem hcolon
    have hcut : ∀ u, cut [':'] (d :: r ++ ("name:".toList ++ u)) =
        some (k, w ++ ("name:".toList ++ u)) := fun u => by
      rw [hkw, List.append_assoc, List.cons_append, cut_singleton hk]
    by_cases hname : strip k = "name".toList
    · refine Or.inr fun u => ⟨unquote (strip (w ++ ("name:".toList ++ u))), ?_, ?_⟩
      · rw [lineValue, hitem, hcut, Option.map_some, Option.bind_some, if_pos hname]
      · exact mem_unquote_strip (by decide) (by decide) (by decide) (by simp)
    · refine Or.inl fun u => ?_
      rw [lineValue, hitem, hcut, Option.map_some, Option.bind_some, if_neg hname]
  · refine Or.inl fun u => ?_
    have hno : ':' ∉ d :: r ++ "name".toList := by
      rw [List.mem_append, not_or]
      exact ⟨hcolon, by decide⟩
    have hcut : cut [':'] (d :: r ++ ("name:".toList ++ u)) =
        some (d :: r ++ "name".toList, u) := by
      rw [← cut_singleton hno]
      simp
    have hstrip : strip (d :: r ++ "name".toList) = d :: r ++ "name".toList := by
      refine stripped_of_ends (fun c hc => ?_) fun c hc => ?_
      · cases hc
        exact hd'
      · rw [List.getLast?_append_of_ne_nil _ (by decide)] at hc
        cases hc
        decide
    rw [lineValue, hitem, hcut, Option.map_some, Option.bind_some, if_neg]
    rw [hstrip]
    intro h
    have hlen := congrArg List.length h
    simp at hlen

/-- A fence that comes up when the target is in its place comes up in the target. -/
theorem exists_cut_target (body : Text) (hafter : NoFence (after ++ ['-', '-']))
    (hopen : ¬ NoFence (target ++ after ++ ['-', '-'])) :
    ∃ z rest, cut fence (target ++ (after ++ (fence ++ body))) = some (z, rest) ∧ z <+: target ∧
        z ≠ target := by
  have hfence : fence.dropLast = ['-', '-'] := rfl
  cases hcut : cut fence (target ++ (after ++ (fence ++ body))) with
  | none => exact absurd ⟨target ++ after, body, by simp⟩ (cut_eq_none_iff.mp hcut)
  | some zr =>
    obtain ⟨z, rest⟩ := zr
    obtain ⟨heq, hfirst⟩ := (cut_eq_some_iff (by decide)).mp hcut
    rw [hfence] at hfirst
    refine ⟨z, rest, rfl, ?_⟩
    have hz : z <+: target ++ (after ++ (fence ++ body)) :=
      ⟨fence ++ rest, by rw [heq, List.append_assoc]⟩
    by_cases hlt : z.length < target.length
    · refine ⟨List.prefix_of_prefix_length_le hz (List.prefix_append target _) hlt.le, ?_⟩
      rintro rfl
      exact lt_irrefl _ hlt
    -- the first fence would not be in the target
    exfalso
    obtain ⟨y, rfl⟩ :=
      List.prefix_of_prefix_length_le (List.prefix_append target _) hz (not_lt.mp hlt)
    have hrest : after ++ (fence ++ body) = y ++ (fence ++ rest) := by simpa using heq
    have hdash : ∀ t : Text, ['-', '-'] <+: fence ++ t := fun t => ⟨'-' :: t, rfl⟩
    rcases List.append_eq_append_iff.mp hrest with ⟨w, rfl, hw⟩ | ⟨w, rfl, hw⟩
    · have hlong : target ++ after ++ ['-', '-'] <+: target ++ (after ++ w) ++ ['-', '-'] := by
        have hshort : target ++ after ++ ['-', '-'] <+: target ++ after ++ (fence ++ body) :=
          (List.prefix_append_right_inj _).mpr (hdash body)
        refine List.prefix_of_prefix_length_le hshort ?_ (by simp)
        rw [hw]
        simpa using hdash rest
      exact hopen fun hin => hfirst (hin.trans hlong.isInfix)
    · have hin : fence <+: w ++ ['-', '-'] ∨ w = [] := by
        rcases w with - | ⟨d, w⟩
        · exact Or.inr rfl
        have hfront : fence <+: d :: w ++ (fence ++ body) := hw ▸ List.prefix_append _ _
        refine Or.inl (List.prefix_of_prefix_length_le hfront ?_ (by simp [fence]))
        exact (List.prefix_append_right_inj _).mpr (hdash body)
      rcases hin with hin | rfl
      · exact hafter (hin.isInfix.trans ⟨y, [], by simp⟩)
      · rw [List.append_nil] at hopen
        exact hopen fun hin => hfirst hin

/-- A `SKILL.md` as the writer writes it: the fence that closes its frontmatter begins a line, and
one line has a name. -/
def Regular (text : Text) : Prop :=
  ∃ raw body, fenceSplit text = some (raw, body) ∧
    (∃ raw₀ c, raw = raw₀ ++ [c] ∧ isLineEnd c = true) ∧
    ∃ v, values "name".toList (splitlines raw) = [v]

theorem collectFm_of_split {raw : Text} (h : fenceSplit text = some (raw, body)) :
    collectFm text = parseLines (splitlines raw) := by
  rw [collectFm, h]

/-- A name that begins behind a fence does not begin in it. -/
theorem exists_behind_fence {a b t : Text} (h : fence ++ t = a ++ nameField name ++ b) :
    ∃ a', a = fence ++ a' ∧ t = a' ++ nameField name ++ b := by
  rw [List.append_assoc, List.append_eq_append_iff] at h
  rcases h with ⟨a', rfl, ht⟩ | ⟨w, hfence, ht⟩
  · exact ⟨a', rfl, by rw [ht, List.append_assoc]⟩
  · rcases w with - | ⟨d, w⟩
    · exact ⟨[], by simpa using hfence.symm, by simpa using ht.symm⟩
    · -- it would have the first letter of the name's key
      have hd : d = 'n' := by
        have hhead := congrArg List.head? ht
        rw [nameField_head] at hhead
        exact (Option.some.inj hhead).symm
      have hmem : d ∈ fence := by
        rw [hfence]
        simp
      rw [hd] at hmem
      exact absurd hmem (by decide)

/-- A value that is read as a segment has nothing but blanks behind it. -/
theorem Segment.blank_of_read (h : Segment name) (hread : unquote (strip (name ++ l)) = name) :
    ∀ c ∈ l, isSpace c = true := by
  obtain ⟨c, r, rfl, -⟩ := h.head
  obtain ⟨hspace, -, hquote, hquote'⟩ := plain_of_isSegmentChar (h.chars c List.mem_cons_self)
  obtain ⟨x, y, heq, hx, hy⟩ := exists_strip (c :: r ++ l)
  have hnil : x = [] := by
    rcases x with - | ⟨d, x⟩
    · rfl
    · obtain ⟨rfl, -⟩ := List.cons.inj heq
      rw [hx c List.mem_cons_self] at hspace
      cases hspace
  subst hnil
  rw [List.nil_append] at heq
  have hhead : (strip (c :: r ++ l)).head? = some c := by
    have hne : strip (c :: r ++ l) ≠ [] := strip_cons_ne_nil hspace _
    have h := congrArg List.head? heq
    rw [List.head?_append_of_ne_nil _ hne] at h
    exact h.symm
  rw [unquote_of_head (by rw [hhead]; simpa using hquote)
    (by rw [hhead]; simpa using hquote')] at hread
  rw [hread, List.append_cancel_left_eq] at heq
  exact heq ▸ hy

/-- The names that are read from a frontmatter with a field of one in it, which goes on with `u`. -/
theorem values_field {a p : Text} (ha : ∀ c ∈ a.getLast?, isLineEnd c = true) (hp : OneLine p)
    (u : Text) :
    values "name".toList (splitlines (a ++ (p ++ ("name:".toList ++ u)))) =
      values "name".toList (splitlines a) ++
        (lineValue "name".toList (p ++ ("name:".toList ++ (splitlines u).headD []))).toList ++
        values "name".toList (splitlines u).tail := by
  have hone : OneLine (p ++ "name:".toList) := hp.append (by decide)
  have hhead : (p ++ ("name:".toList ++ u)).head? ≠ some '\n' := by
    rcases p with - | ⟨c, p⟩
    · exact fun h => by cases h
    · intro h
      cases h
      exact absurd (hp '\n' List.mem_cons_self) (by decide)
  rw [splitlines_append_of_lineEnd ha hhead, ← List.append_assoc,
    splitlines_append_oneLine hone (by simp), values_append, List.append_assoc, List.append_assoc]
  congr 1
  rw [values, List.filterMap_cons]
  cases lineValue "name".toList (p ++ ("name:".toList ++ (splitlines u).headD [])) <;> rfl

theorem headD_splitlines_append {v : Text} (hv : OneLine v) (hne : v ≠ []) (t : Text) :
    (splitlines (v ++ t)).headD [] = v ++ (splitlines t).headD [] ∧
        (splitlines (v ++ t)).tail = (splitlines t).tail := by
  rw [splitlines_append_oneLine hv hne]
  exact ⟨rfl, rfl⟩

/-- What is read of the name where the field of the target has been put, with the fence in its place
or coming up in the target. -/
theorem fenceSplit_target (body : Text)
    (hblock : NoFence (before ++ nameField name ++ after ++ ['-', '-'])) (target : Text) :
    fenceSplit (fence ++ (before ++ nameField target ++ after ++ (fence ++ body))) =
        some (before ++ ("name:".toList ++ ' ' :: (target ++ after)), body) ∧
          NoFence (target ++ after ++ ['-', '-']) ∨
      ∃ z rest, fenceSplit (fence ++ (before ++ nameField target ++ after ++ (fence ++ body))) =
        some (before ++ ("name:".toList ++ ' ' :: z), rest) ∧ z <+: target ∧ z ≠ target := by
  have hfield : ∀ v, nameField v = "name:".toList ++ ' ' :: v := fun v => rfl
  rw [List.append_assoc, noFence_nameField] at hblock
  by_cases hopen : NoFence (target ++ after ++ ['-', '-'])
  · refine Or.inl ⟨?_, hopen⟩
    have hsplit : fenceSplit (fence ++ (before ++ nameField target ++ after ++ (fence ++ body))) =
        some (before ++ nameField target ++ after, body) := by
      refine fenceSplit_eq_some_iff.mpr ⟨rfl, ?_⟩
      rw [List.append_assoc, noFence_nameField]
      exact ⟨hblock.1, by simpa using hopen⟩
    rw [hsplit, hfield]
    simp
  · refine Or.inr ?_
    have hafter : NoFence (after ++ ['-', '-']) := hblock.2.mono (List.suffix_append name _).isInfix
    obtain ⟨z, rest, hcut, hz, hne⟩ := exists_cut_target body hafter hopen
    obtain ⟨heq, hfirst⟩ := (cut_eq_some_iff (by decide)).mp hcut
    refine ⟨z, rest, fenceSplit_eq_some_iff.mpr ⟨?_, ?_⟩, hz, hne⟩
    · rw [hfield]
      simp only [List.append_assoc, List.cons_append, heq]
    · have hz' : before ++ ("name:".toList ++ ' ' :: z) ++ ['-', '-'] = before ++ nameField z ++
          ['-', '-'] := by simp [hfield]
      rw [hz', noFence_nameField]
      exact ⟨hblock.1, hfirst⟩

/-- The first `name: <name>` stands in the frontmatter, if the copy is read as another name. -/
theorem Regular.exists_field (h : Regular text) (hline : OneLine name) (hne : target ≠ name)
    (hread : (collectFm text).get? "name".toList = some name)
    (hread' : (collectFm (replaceFirst (nameField name) (nameField target) text)).get?
      "name".toList = some target) :
    ∃ before after body, cut (nameField name) text =
      some (fence ++ before, after ++ (fence ++ body)) ∧
      NoFence (before ++ nameField name ++ after ++ ['-', '-']) ∧
      values "name".toList (splitlines (before ++ nameField name ++ after)) = [name] := by
  obtain ⟨raw, body, hsplit, ⟨raw₀, c, rfl, hc⟩, v, hvalues⟩ := h
  obtain ⟨htext, hblock⟩ := fenceSplit_eq_some_iff.mp hsplit
  rw [collectFm_of_split hsplit, get?_parseLines, hvalues, List.getLast?_singleton,
    Option.some.injEq] at hread
  subst hread
  have hcName : c ∉ nameField v := fun hmem => by
    rw [oneLine_nameField hline c hmem] at hc
    cases hc
  have htext' : text = fence ++ raw₀ ++ c :: (fence ++ body) := by
    rw [htext]
    simp
  have hin : nameField v <:+: fence ++ raw₀ := by
    by_contra hout
    -- the frontmatter is as it was, and the name in it
    have hcut := cut_append_cons (y := fence ++ body) hcName nameField_ne_nil hout
    rw [← htext'] at hcut
    obtain ⟨body', hsplit'⟩ :
        ∃ body', fenceSplit (replaceFirst (nameField v) (nameField target) text) =
            some (raw₀ ++ [c], body') := by
      rw [replaceFirst, hcut]
      cases hb : cut (nameField v) (fence ++ body) with
      | none => exact ⟨body, hsplit⟩
      | some ab =>
        obtain ⟨a, b⟩ := ab
        obtain ⟨a', rfl, -⟩ := exists_behind_fence (cut_eq_append hb)
        exact ⟨a' ++ nameField target ++ b, fenceSplit_eq_some_iff.mpr ⟨by simp, hblock⟩⟩
    rw [collectFm_of_split hsplit', get?_parseLines, hvalues, List.getLast?_singleton,
      Option.some.injEq] at hread'
    exact hne hread'.symm
  obtain ⟨⟨a, b⟩, hcut⟩ := Option.ne_none_iff_exists'.mp fun hnone => cut_eq_none_iff.mp hnone hin
  obtain ⟨before, rfl, rfl⟩ := exists_behind_fence (cut_eq_append hcut)
  refine ⟨before, b ++ [c], body, ?_, by simpa using hblock, by simpa using hvalues⟩
  rw [htext', cut_append hcut]
  simp

/-- **Nothing else renames** a file that is written as it should be: if the copy is read as the
target, the first `name: <name>` is the line that its name is read from. -/
theorem Regular.renames (h : Regular text) (hname : Segment name) (hline : OneLine name)
    (htarget : Segment target) (htline : OneLine target) (hne : target ≠ name)
    (hread : (collectFm text).get? "name".toList = some name)
    (hread' : (collectFm (replaceFirst (nameField name) (nameField target) text)).get?
      "name".toList = some target) :
    Renames name target text := by
  obtain ⟨before, after, body, hfirst, hblock, hvalues⟩ := h.exists_field hline hne hread hread'
  have hfield : ∀ w u, before ++ nameField w ++ u = before ++
      ("name:".toList ++ ' ' :: (w ++ u)) := fun w u => by
    simp [nameField, field]
  have hreplaced : replaceFirst (nameField name) (nameField target) text =
      fence ++ (before ++ nameField target ++ after ++ (fence ++ body)) := by
    rw [replaceFirst, hfirst]
    simp
  rw [hreplaced] at hread'
  rw [hfield] at hvalues
  have htail : ∀ {v : Text}, OneLine v →
      ∀ t, (splitlines (' ' :: (v ++ t))).headD [] = ' ' :: (v ++ (splitlines t).headD []) ∧
      (splitlines (' ' :: (v ++ t))).tail = (splitlines t).tail := fun hv t =>
    headD_splitlines_append (OneLine.append (by decide : OneLine [' ']) hv)
      (List.cons_ne_nil ' ' _) t
  obtain ⟨a, p, rfl, ha, hp⟩ := exists_lineStart before
  rcases eq_or_ne p [] with rfl | hne'
  · have hvalue : ∀ w, lineValue "name".toList ([] ++ ("name:".toList ++ ' ' :: w)) =
        some (unquote (strip w)) := fun w => by
      have hitem := lineItem_field plainKey_name w
      rw [show field "name".toList w = [] ++ ("name:".toList ++ ' ' :: w) from rfl] at hitem
      rw [lineValue, hitem, Option.bind_some, if_pos rfl]
    rw [List.append_assoc, values_field ha hp, (htail hline after).1, (htail hline after).2, hvalue,
      Option.toList_some, List.append_assoc, List.append_eq_singleton_iff] at hvalues
    obtain ⟨hnone, hvalues⟩ := hvalues.resolve_right fun h => List.cons_ne_nil _ _ h.2
    obtain ⟨hname', hlast⟩ := List.cons.inj hvalues
    rw [List.append_nil] at hfirst hblock hread'
    refine ⟨a, after, body, ⟨hfirst, hblock, ha, hname.blank_of_read hname', hlast⟩, ?_⟩
    rcases fenceSplit_target body hblock target with ⟨-, hopen⟩ | ⟨z, rest, hsplit, hz, hzne⟩
    · exact hopen
    · -- the name would be cut short
      exfalso
      have hzline : OneLine z := htline.of_subset hz.subset
      have hz' := htail hzline []
      rw [List.append_nil] at hz'
      rw [collectFm_of_split hsplit, get?_parseLines,
        ← List.nil_append ("name:".toList ++ ' ' :: z),
        values_field ha hp, hz'.1, hz'.2, hvalue, hnone] at hread'
      have hread'' : unquote (strip z) = target := by simpa [splitlines, values] using hread'
      have hzread : unquote (strip z) = z := by
        rcases z with - | ⟨c, r⟩
        · decide
        · obtain ⟨d, r', rfl, hd⟩ := htarget.head
          obtain ⟨rfl, -⟩ := List.cons_prefix_cons.mp hz
          have hseg : Segment (c :: r) :=
            ⟨fun e he => htarget.chars e (hz.subset he), c, r, rfl, hd⟩
          simpa using hseg.read (l := []) (by simp)
      exact hzne (hzread.symm.trans hread'')
  · -- the field is not at the beginning of its line, so that the name is read from another one
    exfalso
    rw [List.append_assoc, values_field ha hp, (htail hline after).1,
      (htail hline after).2] at hvalues
    rcases lineValue_inside hne' with hnone | hsome
    · rw [hnone, Option.toList_none, List.append_nil] at hvalues
      have hmem : target ∈ [name] := by
        rw [← hvalues]
        rcases fenceSplit_target body hblock target with ⟨hsplit, -⟩ | ⟨z, rest, hsplit, hz, -⟩
        · rw [collectFm_of_split hsplit, get?_parseLines, List.append_assoc, values_field ha hp,
            hnone, Option.toList_none, List.append_nil, (htail htline after).2] at hread'
          exact List.mem_of_getLast? hread'
        · have hzline : OneLine z := htline.of_subset hz.subset
          have hz' := htail hzline []
          rw [List.append_nil] at hz'
          rw [collectFm_of_split hsplit, get?_parseLines, List.append_assoc, values_field ha hp,
            hnone, Option.toList_none, List.append_nil, hz'.2] at hread'
          exact List.mem_append_left _
            (List.mem_of_getLast? (by simpa [splitlines, values] using hread'))
      exact hne (List.mem_singleton.mp hmem)
    · obtain ⟨z, hz, hcolon⟩ := hsome (' ' :: (name ++ (splitlines after).headD []))
      have hmem : z ∈ [name] := by
        rw [← hvalues, hz]
        simp
      rw [List.mem_singleton.mp hmem] at hcolon
      exact (plain_of_isSegmentChar (hname.chars ':' hcolon)).2.1 rfl

/-- The same of a file that can be read. -/
def File.Regular (x : File) : Prop := ∀ text, x.read = some text → Tools.Regular text

theorem File.get?_name (h : x.read = some text) (hne : x.name ≠ []) :
    (collectFm text).get? "name".toList = some x.name := by
  have hname : x.name = (collectFm text).getD "name".toList [] := by
    rw [File.name, File.fm, h, Option.map_some, Option.getD_some]
  rw [hname] at hne ⊢
  rw [Dict.getD] at hne ⊢
  cases hget : (collectFm text).get? "name".toList with
  | none => exact absurd (by rw [hget]; rfl) hne
  | some v => rfl

theorem File.Regular.renames (h : x.Regular) (hof : s.Of x) (hread : x.read = some text)
    (hname : Segment s.name)
    (htarget : Segment target) (htline : OneLine target) (hne : target ≠ s.name)
    (hcopy : (renameText s.name target x).name = target) : Renames s.name target text := by
  have htargetne : target ≠ [] := by
    obtain ⟨c, r, rfl, -⟩ := htarget.head
    exact List.cons_ne_nil c r
  have hget := File.get?_name hread (hof.name ▸ hof.named)
  have hget' :=
    File.get?_name (read_renameText s.name hread htline) (by rw [hcopy]; exact htargetne)
  rw [hcopy] at hget'
  rw [← hof.name] at hget
  exact (h text hread).renames hname hof.oneLine_name htarget htline hne hget hget'

end OracleSkills.Tools
