import OracleSkills.Python.Occurs
import OracleSkills.Python.Reencode
import OracleSkills.Server.StampLines

/-!
# What a patch leaves as it is

`skill_patch` is a "targeted in-place edit", and `_raw_frontmatter` is there "to edit in place while
preserving key order/format". A `FileParts` is the old file cut up (`Cuts`): the two fence lines,
the frontmatter lines between them, the blank lines behind, the body around the place that is
replaced, and a last line end. `expected` is the same file with the new text and the stamps in their
places, every other byte as it was, and `Framed` that the new file is this one, up to a last line
feed.

The tool goes through `decode`, `splitlines`, a join with line feeds and `encode`, so that it is so
exactly if the file is `Exact` outside of what it replaces: both fence lines are bare, every line
ends in a line feed alone, and every byte belongs to some UTF-8. **`patch_framed_iff`** is this for
any call that succeeds.
-/

namespace OracleSkills.Server

open Python Frontmatter Writer

/-! ### A file cut up -/

/-- A line of a file, with the cell that ends it. -/
structure Line where
  cells : List Cell
  ending : Cell
deriving DecidableEq

namespace Line

/-- What the line says. -/
def text (l : Line) : Text := Python.text l.cells

def all (l : Line) : List Cell := l.cells ++ [l.ending]

/-- A line that ends somehow and has no line end in it. -/
structure Ends (l : Line) : Prop where
  oneLine : OneLine l.text
  ending : l.ending.char = '\n'

instance (l : Line) : Decidable l.Ends :=
  decidable_of_iff (OneLine l.text ∧ l.ending.char = '\n') ⟨fun h => ⟨h.1, h.2⟩,
    fun h => ⟨h.oneLine, h.ending⟩⟩

end Line

/-- The parts of a file with a frontmatter. -/
structure FileParts where
  opening : Line
  fm : List Line
  closing : Line
  blanks : List Cell
  before : List Cell
  matched : List Cell
  after : List Cell
  final : List Cell
deriving DecidableEq

namespace FileParts

/-- The body as it is read, up to the last line end. -/
def body (p : FileParts) : List Cell := p.before ++ (p.matched ++ p.after)

/-- The file. -/
def cells (p : FileParts) : List Cell :=
  p.opening.all ++ (p.fm.flatMap Line.all ++ (p.closing.all ++ (p.blanks ++ (p.body ++ p.final))))

end FileParts

/-- A file with these bytes has these parts, where `old` is what is replaced. -/
structure Cuts (p : FileParts) (bs : Bytes) (old : Text) : Prop where
  cells : Python.cells (pieces bs) = p.cells
  opening : p.opening.Ends
  fm : ∀ l ∈ p.fm, l.Ends ∧ strip l.text ≠ fence
  closing : p.closing.Ends ∧ strip p.closing.text = fence
  blanks : ∀ c ∈ p.blanks, c.char = '\n'
  start : (text p.body).head? ≠ some '\n'
  matched : text p.matched = old
  first : cut old (text p.body) = some (text p.before, text p.after)
  final : p.final = [] ∧ (text p.body).getLast? ≠ some '\n' ∨ ∃ c, p.final = [c] ∧ c.char = '\n'

/-- "A closed frontmatter". -/
def Closed (file : Text) : Prop := fence <+: file ∧ (blockLines file).isSome = true

/-! ### The new file -/

/-- A line that is written. -/
def written (t : Text) (ending : Cell) : Line := ⟨ofText t, ending⟩

/-- A line feed. -/
def lineFeed : Cell := ⟨[0x0A], '\n'⟩

/-- `_set_fm_key` on the lines of a file: a line that is set keeps its end. -/
def setKey (lines : List Line) (key value : Text) (quote : Bool) : List Line :=
  let out := lines.map fun l => if isKeyLine key l.text then
    written (field key (fmValue value quote)) l.ending else l
  if lines.any (isKeyLine key ·.text) then out else
    out ++ [written (field key (fmValue value quote)) lineFeed]

/-- The frontmatter lines with the stamps set. -/
def stamped (env : PatchEnv) (lines : List Line) (hash : Digest) (source : Text) : List Line :=
  setKey (setKey (setKey lines "content_hash".toList hash.text false) "edited_at".toList
    env.now.text false)
    "edited_by".toList source true

/-- **The old file** with the new text and the stamps in their places, without the blank lines
behind the fence and the last line end. -/
def expected (env : PatchEnv) (p : FileParts) (hash : Digest) (source new : Text) : Bytes :=
  raw p.opening.all ++
    (raw ((stamped env p.fm hash source).flatMap Line.all) ++ (raw p.closing.all ++
    (raw p.before ++ (encode new ++ raw p.after))))

/-- Nothing else has changed, up to a last line feed. -/
def Framed (env : PatchEnv) (p : FileParts) (hash : Digest) (source new : Text)
    (bs : Bytes) : Prop :=
  bs = expected env p hash source new ∨ bs = expected env p hash source new ++ [0x0A]

/-- A line of one of the stamps. -/
def IsStamp (t : Text) : Prop := ∃ key ∈ stampKeys, isKeyLine key t = true

/-- The file is exact outside of what is replaced: the fence lines are bare, every line ends in a
line feed and the rest is UTF-8 without another line end. -/
structure FileParts.Exact (p : FileParts) : Prop where
  opening : p.opening.text = fence ∧ ∀ c ∈ p.opening.all, c.Exact
  fm : ∀ l ∈ p.fm, l.ending.Exact ∧ (IsStamp l.text ∨ ∀ c ∈ l.cells, c.Exact)
  closing : p.closing.text = fence ∧ ∀ c ∈ p.closing.all, c.Exact
  around : ∀ c ∈ p.before ++ p.after, c.Exact

/-! ### The frontmatter lines -/

section Lines

variable {lines ls : List Line} {l n : Line} {key value : Text} {quote : Bool} {keys : List Text}

@[simp] theorem text_written (t : Text) (ending : Cell) :
    (written t ending).text = t := text_ofText t

theorem map_text_setKey (lines : List Line) (key value : Text) (quote : Bool) :
    (setKey lines key value quote).map Line.text =
        setFmKey (lines.map Line.text) key value quote := by
  have hmap : (lines.map fun l =>
        if isKeyLine key l.text then written (field key (fmValue value quote)) l.ending else l).map
          Line.text =
      (lines.map Line.text).map fun ln => if isKeyLine key ln then
          field key (fmValue value quote) else ln := by
    rw [List.map_map, List.map_map]
    refine List.map_congr_left fun l _ => ?_
    by_cases hkey : isKeyLine key l.text = true <;> simp [hkey]
  have hany : lines.any (isKeyLine key ·.text) = (lines.map Line.text).any (isKeyLine key) := by
    rw [List.any_map]
    rfl
  simp only [setKey, setFmKey, hany]
  split_ifs
  · exact hmap
  · rw [List.map_append, hmap, List.map_singleton, text_written]

/-- The lines say what the tool writes. -/
theorem map_text_stamped (env : PatchEnv) (lines : List Line) (hash : Digest) (source : Text) :
    (stamped env lines hash source).map Line.text =
        restamp env (lines.map Line.text) hash source := by
  rw [stamped, map_text_setKey, map_text_setKey, map_text_setKey, restamp]

/-- A line that was there: as it was, if it is of none of the keys, or else written anew, with the
same end. -/
def Stamps (keys : List Text) (l n : Line) : Prop :=
  (n = l ∧ ∀ key ∈ keys, isKeyLine key l.text = false) ∨
    (∃ t, n = written t l.ending) ∧ ∃ key ∈ keys, isKeyLine key l.text = true

/-- The lines that were there, and some that are new. -/
def StampedAs (keys : List Text) (lines ns : List Line) : Prop :=
  ∃ old new, ns = old ++ new ∧ List.Forall₂ (Stamps keys) lines old ∧
    ∀ n ∈ new, ∃ t, n = written t lineFeed

theorem Stamps.set (h : Stamps keys l n) (key value : Text) (quote : Bool) :
    Stamps (keys ++ [key]) l (if isKeyLine key n.text then
        written (field key (fmValue value quote)) n.ending else n) := by
  rcases h with ⟨rfl, hno⟩ | ⟨⟨t, rfl⟩, other, hother, hline⟩
  · by_cases hkey : isKeyLine key n.text = true
    · rw [if_pos hkey]
      exact .inr ⟨⟨_, rfl⟩, key, by simp, hkey⟩
    · rw [if_neg hkey]
      refine .inl ⟨rfl, fun other hother => ?_⟩
      rcases List.mem_append.mp hother with hother | hother
      · exact hno other hother
      · rw [List.mem_singleton.mp hother]
        simpa using hkey
  · refine .inr ⟨?_, other, List.mem_append_left _ hother, hline⟩
    split_ifs
    · exact ⟨_, rfl⟩
    · exact ⟨t, rfl⟩

/-- Setting a key. -/
theorem StampedAs.setKey (h : StampedAs keys lines ls) (key value : Text) (quote : Bool) :
    StampedAs (keys ++ [key]) lines (setKey ls key value quote) := by
  obtain ⟨old, new, rfl, hold, hnew⟩ := h
  let f : Line → Line := fun l => if isKeyLine key l.text then
    written (field key (fmValue value quote)) l.ending else l
  have hf : List.Forall₂ (Stamps (keys ++ [key])) lines (old.map f) := by
    rw [List.forall₂_map_right_iff]
    exact hold.imp fun _ _ hs => hs.set key value quote
  have hg : ∀ n ∈ new.map f, ∃ t, n = written t lineFeed := by
    intro n hn
    obtain ⟨m, hm, rfl⟩ := List.mem_map.mp hn
    obtain ⟨t, rfl⟩ := hnew m hm
    by_cases hkey : isKeyLine key (written t lineFeed).text = true
    · exact ⟨_, if_pos hkey⟩
    · exact ⟨t, if_neg hkey⟩
  have hout : (old ++ new).map f = old.map f ++ new.map f := List.map_append
  simp only [Server.setKey]
  split_ifs
  · exact ⟨old.map f, new.map f, hout, hf, hg⟩
  · refine ⟨old.map f, new.map f ++ [written (field key (fmValue value quote)) lineFeed], ?_, hf,
      fun n hn => ?_⟩
    · rw [← List.append_assoc, ← hout]
    · rcases List.mem_append.mp hn with hn | hn
      · exact hg n hn
      · exact ⟨_, List.mem_singleton.mp hn⟩

theorem stampedAs_stamped (env : PatchEnv) (lines : List Line) (hash : Digest) (source : Text) :
    StampedAs stampKeys lines (stamped env lines hash source) := by
  have hnone : StampedAs [] lines lines :=
    ⟨lines, [], (List.append_nil _).symm,
      List.forall₂_same.mpr fun _ _ => .inl ⟨rfl, by simp⟩, by simp⟩
  exact ((hnone.setKey _ _ _).setKey _ _ _).setKey _ _ _

/-- A line in its place in some data. -/
structure Stands (l : Line) : Prop where
  run : Run l.all
  ending : l.ending.char = '\n'

theorem stands_written (t : Text) {ending : Cell} (hread : ending.Read)
    (hchar : ending.char = '\n') :
    Stands (written t ending) := ⟨run_ofText t hread, hchar⟩

theorem exact_lineFeed : lineFeed.Exact := by
  unfold Cell.Exact
  decide

/-- A line that is written is exact if its end is. -/
theorem exact_written {t : Text} {ending : Cell} :
    (∀ c ∈ (written t ending).all, c.Exact) ↔ ending.Exact := by
  refine ⟨fun h => h ending (by simp [Line.all, written]), fun h c hc => ?_⟩
  rcases List.mem_append.mp hc with hc | hc
  · exact exact_ofText t c hc
  · exact List.mem_singleton.mp hc ▸ h

/-- What holds of all lines, of the one list and the other. -/
theorem forall_iff_of_forall₂ {R : Line → Line → Prop} {P Q : Line → Prop}
    (hR : ∀ l n, R l n → (P l ↔ Q n))
    (h : List.Forall₂ R lines ls) : (∀ l ∈ lines, P l) ↔ ∀ n ∈ ls, Q n := by
  induction h with
  | nil => simp
  | cons hln _ ih => rw [List.forall_mem_cons, List.forall_mem_cons, hR _ _ hln, ih]

/-- The stamped lines stand in the data if the old ones do, -/
theorem StampedAs.stands (h : StampedAs keys lines ls)
    (hlines : ∀ l ∈ lines, Stands l ∧ l.ending.Read) :
    ∀ l ∈ ls, Stands l := by
  obtain ⟨old, new, rfl, hold, hnew⟩ := h
  have hstands : ∀ l n, (Stands l ∧ l.ending.Read) ∧ Stamps keys l n → (True ↔ Stands n) := by
    rintro l n ⟨⟨hl, hread⟩, ⟨rfl, -⟩ | ⟨⟨t, rfl⟩, -⟩⟩
    · exact ⟨fun _ => hl, fun _ => trivial⟩
    · exact ⟨fun _ => stands_written t hread hl.ending, fun _ => trivial⟩
  have hall := (List.forall₂_and_left lines old).mpr ⟨hlines, hold⟩
  intro n hn
  rcases List.mem_append.mp hn with hn | hn
  · exact (forall_iff_of_forall₂ hstands hall).mp (fun _ _ => trivial) n hn
  · obtain ⟨t, rfl⟩ := hnew n hn
    exact stands_written t (.exact exact_lineFeed) rfl

/-- and are exact if these are, but for those of the keys. -/
theorem StampedAs.exact_iff (h : StampedAs keys lines ls) : (∀ n ∈ ls, ∀ c ∈ n.all, c.Exact) ↔
    ∀ l ∈ lines, l.ending.Exact ∧
        ((∃ key ∈ keys, isKeyLine key l.text = true) ∨ ∀ c ∈ l.cells, c.Exact) := by
  obtain ⟨old, new, rfl, hold, hnew⟩ := h
  have hline : ∀ l n, Stamps keys l n → (l.ending.Exact ∧
      ((∃ key ∈ keys, isKeyLine key l.text = true) ∨ ∀ c ∈ l.cells, c.Exact) ↔
          ∀ c ∈ n.all, c.Exact) := by
    rintro l n (⟨rfl, hno⟩ | ⟨⟨t, rfl⟩, hkey⟩)
    · have hnone : ¬ ∃ key ∈ keys, isKeyLine key n.text = true := by simpa using hno
      simp only [hnone, false_or, Line.all, List.mem_append, List.mem_singleton, or_imp,
        forall_and, forall_eq]
      exact and_comm
    · simp only [hkey, true_or, and_true]
      exact exact_written.symm
  have hnew' : ∀ n ∈ new, ∀ c ∈ n.all, c.Exact := by
    intro n hn
    obtain ⟨t, rfl⟩ := hnew n hn
    exact exact_written.mpr exact_lineFeed
  rw [forall_iff_of_forall₂ hline hold]
  simp only [List.mem_append, or_imp, forall_and]
  exact and_iff_left hnew'

theorem text_all (hl : l.ending.char = '\n') : text l.all = l.text ++ ['\n'] := by
  rw [Line.all, text_append, text_cons, hl]
  rfl

theorem text_flatMap_all (h : ∀ l ∈ lines, l.ending.char = '\n') :
    text (lines.flatMap Line.all) = unlines (lines.map Line.text) := by
  induction lines with
  | nil => rfl
  | cons l lines ih =>
    obtain ⟨hl, hlines⟩ := List.forall_mem_cons.mp h
    rw [List.flatMap_cons, text_append, text_all hl, ih hlines, List.map_cons, unlines_cons,
      List.append_assoc]
    rfl

/-- **Lines in a row** are exact, or apart from what they say encoded again. -/
theorem lines_exact_or_apart (h : ∀ l ∈ lines, Stands l) :
    (∀ l ∈ lines, ∀ c ∈ l.all, c.Exact) ∨
      ∀ X Y, Apart (raw (lines.flatMap Line.all) ++ X)
          (encode (unlines (lines.map Line.text)) ++ Y) := by
  induction lines with
  | nil => exact .inl (by simp)
  | cons l lines ih =>
    obtain ⟨hl, hlines⟩ := List.forall_mem_cons.mp h
    have hlast : ∀ X, ∀ c ∈ l.all.getLast?, c.Stops X := by
      intro X c hc hchar
      have hno : '\n' ≠ replacement := by decide
      rw [Line.all, List.getLast?_concat, Option.mem_def, Option.some.injEq] at hc
      rw [← hc, hl.ending] at hchar
      exact absurd hchar hno
    have htext : encode (unlines ((l :: lines).map Line.text)) = encode (text l.all) ++
        encode (unlines (lines.map Line.text)) := by
      rw [List.map_cons, unlines_cons, text_all hl.ending]
      simp
    by_cases hexact : ∀ c ∈ l.all, c.Exact
    · refine (ih hlines).imp (fun hrest => List.forall_mem_cons.mpr ⟨hexact, hrest⟩)
        fun hapart X Y => ?_
      rw [htext, encode_text_of_exact hexact, List.flatMap_cons, raw_append, List.append_assoc,
        List.append_assoc]
      exact (hapart X Y).append_left _
    · refine .inr fun X Y => ?_
      rw [htext, List.flatMap_cons, raw_append, List.append_assoc, List.append_assoc]
      exact (hl.run.exact_or_apart (hlast _) _).resolve_left hexact

end Lines

/-! ### The whole file -/

section Parts

variable {p : FileParts} {bs : Bytes} {old new : Text} {env : PatchEnv} {hash : Digest}
  {source : Text}

theorem Cuts.run (h : Cuts p bs old) : Run p.cells := h.cells ▸ run_cells bs

theorem Cuts.run_of_infix (h : Cuts p bs old) {cs : List Cell} (hcs : cs <:+: p.cells) :
    Run cs := h.run.infix hcs

theorem infix_flatMap {l : Line} {lines : List Line} (h : l ∈ lines) :
    l.all <:+: lines.flatMap Line.all := by
  obtain ⟨a, b, rfl⟩ := List.append_of_mem h
  exact ⟨a.flatMap Line.all, b.flatMap Line.all, by simp⟩

theorem Cuts.run_opening (h : Cuts p bs old) :
    Run p.opening.all := h.run_of_infix (List.prefix_append _ _).isInfix

theorem Cuts.run_fm (h : Cuts p bs old) {l : Line} (hl : l ∈ p.fm) : Run l.all := by
  refine h.run_of_infix ((infix_flatMap hl).trans ?_)
  exact ⟨p.opening.all,
    p.closing.all ++ (p.blanks ++ (p.body ++ p.final)), by simp [FileParts.cells]⟩

theorem Cuts.run_closing (h : Cuts p bs old) : Run p.closing.all :=
  h.run_of_infix ⟨p.opening.all ++ p.fm.flatMap Line.all,
    p.blanks ++ (p.body ++ p.final), by simp [FileParts.cells]⟩

theorem Cuts.run_before (h : Cuts p bs old) : Run p.before :=
  h.run_of_infix ⟨p.opening.all ++ (p.fm.flatMap Line.all ++ (p.closing.all ++ p.blanks)),
    p.matched ++ (p.after ++ p.final), by simp [FileParts.cells, FileParts.body]⟩

theorem Cuts.run_after (h : Cuts p bs old) : Run p.after :=
  h.run_of_infix
    ⟨p.opening.all ++
    (p.fm.flatMap Line.all ++ (p.closing.all ++ (p.blanks ++ (p.before ++ p.matched)))), p.final,
    by simp [FileParts.cells, FileParts.body]⟩

/-- What the tool writes, up to a last line feed. -/
def reencoded (env : PatchEnv) (p : FileParts) (hash : Digest) (source new : Text) : Bytes :=
  encode (fence ++ ['\n']) ++ (encode (unlines (restamp env (p.fm.map Line.text) hash source)) ++
    (encode (fence ++ ['\n']) ++ (encode (text p.before) ++ (encode new ++ encode (text p.after)))))

theorem ascii_fence : ∀ c ∈ fence, c.toNat < 0x80 ∧ isLineEnd c = false := by
  intro c hc
  rw [show fence = List.replicate 3 '-' from rfl] at hc
  rw [List.eq_of_mem_replicate hc]
  decide

/-- The frontmatter lines stand in the file, as they are and with the stamps set. -/
theorem Cuts.stands_stamped (h : Cuts p bs old) (env : PatchEnv) (hash : Digest) (source : Text) :
    ∀ l ∈ stamped env p.fm hash source, Stands l :=
  (stampedAs_stamped env p.fm hash source).stands fun l hl =>
    ⟨⟨h.run_fm hl, (h.fm l hl).1.ending⟩, (h.run_fm hl).read l.ending (by simp [Line.all])⟩

theorem exact_stamped_iff : (∀ n ∈ stamped env p.fm hash source, ∀ c ∈ n.all, c.Exact) ↔
    ∀ l ∈ p.fm, l.ending.Exact ∧ (IsStamp l.text ∨ ∀ c ∈ l.cells, c.Exact) :=
  (stampedAs_stamped env p.fm hash source).exact_iff

/-- Exact lines are what they say, encoded again, -/
theorem Cuts.encode_stamped (h : Cuts p bs old)
    (hexact : ∀ n ∈ stamped env p.fm hash source, ∀ c ∈ n.all, c.Exact) :
    encode (unlines ((stamped env p.fm hash source).map Line.text)) =
        raw ((stamped env p.fm hash source).flatMap Line.all) := by
  rw [← text_flatMap_all fun l hl => (h.stands_stamped env hash source l hl).ending]
  refine encode_text_of_exact fun c hc => ?_
  obtain ⟨l, hl, hc⟩ := List.mem_flatMap.mp hc
  exact hexact l hl c hc

/-- and so is a fence line that is bare. -/
theorem encode_fence {l : Line} (hl : l.Ends) (hexact : l.text = fence ∧ ∀ c ∈ l.all, c.Exact) :
    encode (fence ++ ['\n']) = raw l.all := by
  rw [← encode_text_of_exact hexact.2, text_all hl.ending, hexact.1]

/-- **An exact file is written as expected.** -/
theorem Cuts.expected_eq (h : Cuts p bs old) (hexact : p.Exact) (env : PatchEnv) (hash : Digest)
    (source new : Text) :
    expected env p hash source new = reencoded env p hash source new := by
  have hfm := h.encode_stamped
    (exact_stamped_iff.mpr hexact.fm : ∀ n ∈ stamped env p.fm hash source, _)
  have hbefore : encode (text p.before) = raw p.before :=
    encode_text_of_exact fun c hc => hexact.around c (List.mem_append_left _ hc)
  have hafter : encode (text p.after) = raw p.after :=
    encode_text_of_exact fun c hc => hexact.around c (List.mem_append_right _ hc)
  rw [expected, reencoded, ← map_text_stamped, hfm, hbefore, hafter,
    ← encode_fence h.opening hexact.opening, ← encode_fence h.closing.1 hexact.closing]

/-- **A file that is not exact is written apart from it.** -/
theorem Cuts.exact_or_apart (h : Cuts p bs old) (env : PatchEnv) (hash : Digest)
    (source new : Text) :
    p.Exact ∨ Apart (expected env p hash source new) (reencoded env p hash source new) := by
  unfold expected reencoded
  rw [← map_text_stamped]
  rcases h.run_opening.line_exact_or_apart (text_all h.opening.ending) h.opening.oneLine
    ascii_fence with hopening | hapart
  swap
  · exact .inr (hapart _ _)
  rw [encode_fence h.opening hopening]
  rcases lines_exact_or_apart (h.stands_stamped env hash source) with hfm | hapart
  swap
  · exact .inr ((hapart _ _).append_left _)
  rw [h.encode_stamped hfm, ← encode_fence h.opening hopening]
  rcases h.run_closing.line_exact_or_apart (text_all h.closing.1.ending) h.closing.1.oneLine
    ascii_fence with hclosing | hapart
  swap
  · exact .inr (((hapart _ _).append_left _).append_left _)
  rw [← encode_fence h.closing.1 hclosing]
  rcases h.run_before.around h.run_after new with haround | hapart
  swap
  · exact .inr (((hapart.append_left _).append_left _).append_left _)
  exact .inl ⟨hopening, exact_stamped_iff.mp hfm, hclosing, haround⟩

/-! ### What the tool reads -/

theorem Cuts.lfLines_eq (h : Cuts p bs old) : lfLines (decode bs) =
    p.opening.text ++ '\n' :: (unlines (p.fm.map Line.text) ++ (p.closing.text ++ '\n' ::
      (text p.blanks ++ (text p.body ++ text p.final)))) := by
  rw [decode, ← text_cells, h.cells, FileParts.cells, text_append, text_append, text_append,
    text_append, text_append,
    text_all h.opening.ending, text_all h.closing.1.ending, text_flatMap_all fun l hl =>
      (h.fm l hl).1.ending]
  simp

theorem Cuts.body_eq (h : Cuts p bs old) :
    text p.body = text p.before ++ old ++ text p.after := cut_eq_append h.first

/-- **What the tool reads**: the frontmatter lines and the body. -/
theorem Cuts.rawFrontmatter_eq (h : Cuts p bs old) (hclosed : Closed (decode bs))
    (hold : old ≠ []) :
    rawFrontmatter (decode bs) = (p.fm.map Line.text, text p.body) := by
  have hfence : fence.isPrefixOf (decode bs) = true := List.isPrefixOf_iff_prefix.mpr hclosed.1
  have hfm : ∀ l ∈ p.fm.map Line.text, OneLine l ∧ strip l ≠ fence := by
    intro l hl
    obtain ⟨m, hm, rfl⟩ := List.mem_map.mp hl
    exact ⟨(h.fm m hm).1.oneLine, (h.fm m hm).2⟩
  have hlines : blockLines (decode bs) =
      some (p.fm.map Line.text, splitlines (text p.blanks ++ (text p.body ++ text p.final))) := by
    rw [blockLines, ← splitlines_lfLines, h.lfLines_eq, splitlines_append_newline h.opening.oneLine,
      List.tail_cons, splitlines_unlines_append fun l hl => (hfm l hl).1,
      splitlines_append_newline h.closing.1.oneLine]
    exact closeAt_append (fun l hl => (hfm l hl).2) h.closing.2 _
  have hlf : LfOnly (text p.blanks ++ (text p.body ++ text p.final)) := by
    intro c hc
    refine lfOnly_lfLines (decode bs) c ?_
    rw [h.lfLines_eq]
    simp only [List.mem_append, List.mem_cons] at hc ⊢
    tauto
  have hne : text p.body ≠ [] := by
    rw [h.body_eq]
    simp [hold]
  have hdrop : dropLf (text p.blanks ++ (text p.body ++ text p.final)) = text p.blanks ++
      text p.body := by
    rcases h.final with ⟨hfinal, hlast⟩ | ⟨c, hfinal, hc⟩
    · rw [hfinal, text_nil, List.append_nil, dropLf, if_neg]
      rwa [List.getLast?_append_of_ne_nil _ hne]
    · rw [hfinal, text_cons, text_nil, hc, ← List.append_assoc, dropLf, if_pos List.getLast?_concat,
        List.dropLast_concat]
  have hbody : bodyOf (splitlines (text p.blanks ++ (text p.body ++ text p.final))) =
      text p.body := by
    rw [bodyOf, join_splitlines, lfLines_eq_self_iff.mpr hlf, hdrop, List.dropWhile_append_of_pos]
    · obtain ⟨c, t, hct⟩ := List.exists_cons_of_ne_nil hne
      have hc : c ≠ '\n' := fun hc => h.start (by rw [hct, hc]; rfl)
      rw [hct, List.dropWhile_cons_of_neg (by simpa using hc)]
    · intro c hc
      obtain ⟨b, hb, rfl⟩ := List.mem_map.mp hc
      simpa using h.blanks b hb
  rw [rawFrontmatter, if_neg (by simp [hfence]), hlines]
  simp only [hbody]

/-- The new body. -/
theorem Cuts.replaceFirst_eq (h : Cuts p bs old) (new : Text) :
    replaceFirst old new (text p.body) = text p.before ++ new ++ text p.after := by
  rw [replaceFirst, h.first]

/-- The new file is the old one encoded again, with a last line feed if it does not end in one. -/
theorem Cuts.encode_text (h : Cuts p bs old) (hclosed : Closed (decode bs)) (hold : old ≠ [])
    (env : PatchEnv) (args : PatchArgs) (new : Text) :
    let r := edited env args old new (decode bs)
    encode r.text = reencoded env p (env.bodyHash r.body) r.editedBy new ∨
      encode r.text = reencoded env p (env.bodyHash r.body) r.editedBy new ++ [0x0A] := by
  intro r
  have hraw := h.rawFrontmatter_eq hclosed hold
  have hbody : r.body = text p.before ++ new ++ text p.after := by
    show replaceFirst old new (rawFrontmatter (decode bs)).2 = _
    rw [hraw]
    exact h.replaceFirst_eq new
  have hlines : r.lines = restamp env (p.fm.map Line.text) (env.bodyHash r.body) r.editedBy := by
    show restamp env (rawFrontmatter (decode bs)).1 _ _ = _
    rw [hraw]
    rfl
  have hne : r.lines ≠ [] := List.ne_nil_of_mem (stamped_restamp env _ _ _).1
  have htext : r.text = fence ++ '\n' ::
      (unlines r.lines ++ (fence ++ '\n' :: terminated r.body)) :=
    patchText_eq hne r.body
  have hnewline : encode ['\n'] = [0x0A] := by decide
  have hwritten :
      ∀ tail, encode (fence ++ '\n' :: (unlines r.lines ++ (fence ++ '\n' :: (r.body ++ tail)))) =
      reencoded env p (env.bodyHash r.body) r.editedBy new ++ encode tail := by
    intro tail
    rw [reencoded, ← hlines, hbody]
    simp
  rw [htext, terminated]
  split_ifs
  · exact .inl (by simpa using hwritten [])
  · exact .inr (by rw [hwritten, hnewline])

/-- **The patch of a file changes nothing else exactly if the file is exact** outside of what is
replaced. -/
theorem Accepted.framed_iff {args : PatchArgs} {file : Option (ℕ × Text)} {r : Patched}
    (h : Accepted env args file r old new (decode bs)) (hcuts : Cuts p bs old)
    (hclosed : Closed (decode bs)) :
    Framed env p (env.bodyHash r.body) r.editedBy new (encode r.text) ↔ p.Exact := by
  have hwritten := hcuts.encode_text hclosed h.succeeds.old_ne env args new
  rw [← h.eq] at hwritten
  constructor
  · intro hframed
    refine (hcuts.exact_or_apart env (env.bodyHash r.body) r.editedBy new).resolve_right
      fun hapart => ?_
    rcases hframed with hframed | hframed <;> rcases hwritten with hwritten | hwritten
    · exact hapart.ne (hframed.symm.trans hwritten)
    · exact hapart.ne_right (hframed.symm.trans hwritten)
    · exact hapart.ne_left (hframed.symm.trans hwritten)
    · exact hapart.ne (List.append_cancel_right (hframed.symm.trans hwritten))
  · intro hexact
    rw [Framed, hcuts.expected_eq hexact]
    exact hwritten

/-! ### A file that is patched has parts -/

theorem exists_line {cs : List Cell} {l b : Text} (h : text cs = l ++ '\n' :: b) :
    ∃ line ds, cs = Line.all line ++ ds ∧ line.text = l ∧ line.ending.char = '\n' ∧
        text ds = b := by
  obtain ⟨front, rest, rfl, hfront, hrest⟩ := List.map_eq_append_iff.mp h
  obtain ⟨ending, ds, rfl, hending, hds⟩ := List.map_eq_cons_iff.mp hrest
  exact ⟨⟨front, ending⟩, ds, by simp [Line.all], hfront, hending, hds⟩

theorem exists_lines : ∀ {ls : List Text} {cs : List Cell} {b : Text}, text cs = unlines ls ++ b →
    ∃ (lines : List Line) (ds : List Cell), cs = lines.flatMap Line.all ++ ds ∧
      lines.map Line.text = ls ∧
      (∀ l ∈ lines, l.ending.char = '\n') ∧ text ds = b
  | [], cs, b, h => ⟨[], cs, rfl, rfl, by simp, h⟩
  | l :: ls, cs, b, h => by
    rw [unlines_cons, List.append_assoc, List.cons_append] at h
    obtain ⟨line, es, rfl, hline, hending, hes⟩ := exists_line h
    obtain ⟨lines, ds, rfl, hlines, hendings, hds⟩ := exists_lines hes
    exact ⟨line :: lines, ds, by simp, by rw [List.map_cons, hline,
      hlines], List.forall_mem_cons.mpr ⟨hending, hendings⟩, hds⟩

/-- The text of a file with a closed frontmatter: two fence lines, the lines between them, and what
the body is cut from. -/
theorem Closed.exists_text {file : Text} (h : Closed file) (hbody : (rawFrontmatter file).2 ≠ []) :
    ∃ opening fm close rest, lfLines file = opening ++ '\n' ::
      (unlines fm ++ (close ++ '\n' :: rest)) ∧
      OneLine opening ∧ (∀ l ∈ fm, OneLine l ∧ strip l ≠ fence) ∧
        (OneLine close ∧ strip close = fence) ∧
      (rawFrontmatter file).2 = (dropLf rest).dropWhile (· = '\n') := by
  obtain ⟨⟨fm, ls⟩, hblock⟩ := Option.isSome_iff_exists.mp h.2
  have hfence : fence.isPrefixOf file = true := List.isPrefixOf_iff_prefix.mpr h.1
  have hraw : (rawFrontmatter file).2 = bodyOf ls := by
    rw [rawFrontmatter, if_neg (by simp [hfence]), hblock]
  obtain ⟨close, hlines, hclose, hfm⟩ := closeAt_spec hblock
  obtain ⟨opening, hsplit⟩ : ∃ opening, splitlines file = (opening :: (fm ++ [close])) ++ ls := by
    cases hfile : splitlines file with
    | nil => simp [hfile] at hlines
    | cons opening more =>
      rw [hfile, List.tail_cons] at hlines
      exact ⟨opening, by simp [hlines]⟩
  have hls : ls ≠ [] := by
    rintro rfl
    exact hbody hraw
  have hone : ∀ l ∈ opening :: (fm ++ [close]), OneLine l := fun l hl =>
    oneLine_of_mem_splitlines (t := file) (hsplit ▸ List.mem_append_left _ hl)
  obtain ⟨rest, heq, hrest⟩ :=
    exists_unlines_append (lfOnly_lfLines file) (by rw [splitlines_lfLines, hsplit]) hls
  have hlf : LfOnly rest := fun c hc => lfOnly_lfLines file c (heq ▸ List.mem_append_right _ hc)
  refine ⟨opening, fm, close, rest, ?_, hone _ (by simp),
    fun l hl => ⟨hone l (by simp [hl]), hfm l hl⟩, ⟨hone _ (by simp), hclose⟩, ?_⟩
  · rw [heq, unlines_cons, unlines_append, unlines_cons, unlines_nil]
    simp
  · rw [hraw, ← hrest, bodyOf, join_splitlines, lfLines_eq_self_iff.mpr hlf]

theorem exists_dropLf (t : Text) : ∃ last, t = dropLf t ++ last ∧
    (last = [] ∧ (dropLf t).getLast? ≠ some '\n' ∨ last = ['\n']) := by
  by_cases hlast : t.getLast? = some '\n'
  · exact ⟨['\n'], by rw [dropLf, if_pos hlast, List.dropLast_append_getLast? _ hlast], .inr rfl⟩
  · refine ⟨[], by rw [dropLf, if_neg hlast, List.append_nil], .inl ⟨rfl, ?_⟩⟩
    rwa [dropLf, if_neg hlast]

/-- What the parts of a file say. -/
structure FileParts.Says (p : FileParts) (opening : Text) (fm : List Text)
    (close blanks before matched after final : Text) :
    Prop where
  opening : p.opening.text = opening ∧ p.opening.ending.char = '\n'
  fm : p.fm.map Line.text = fm ∧ ∀ l ∈ p.fm, l.ending.char = '\n'
  closing : p.closing.text = close ∧ p.closing.ending.char = '\n'
  blanks : text p.blanks = blanks
  before : text p.before = before
  matched : text p.matched = matched
  after : text p.after = after
  final : text p.final = final

/-- A text that is cut up cuts up its cells. -/
theorem exists_parts {cs : List Cell} {opening close blanks before matched after final : Text}
    {fm : List Text} (h : text cs = opening ++ '\n' ::
      (unlines fm ++ (close ++ '\n' :: (blanks ++ (before ++ (matched ++ after) ++ final))))) :
    ∃ p : FileParts, cs = p.cells ∧ p.Says opening fm close blanks before matched after final := by
  obtain ⟨l₁, ds, rfl, hl₁, he₁, hds⟩ := exists_line h
  obtain ⟨ls, ds, rfl, hls, hes, hds⟩ := exists_lines hds
  obtain ⟨l₂, ds, rfl, hl₂, he₂, hds⟩ := exists_line hds
  obtain ⟨blankCells, ds, rfl, hblanks, hds⟩ := List.map_eq_append_iff.mp hds
  obtain ⟨bodyCells, finalCells, rfl, hbody, hfinal⟩ := List.map_eq_append_iff.mp hds
  obtain ⟨beforeCells, ds, rfl, hbefore, hds⟩ := List.map_eq_append_iff.mp hbody
  obtain ⟨matchedCells, afterCells, rfl, hmatched, hafter⟩ := List.map_eq_append_iff.mp hds
  exact ⟨⟨l₁, ls, l₂, blankCells, beforeCells, matchedCells, afterCells, finalCells⟩, rfl,
    ⟨⟨hl₁, he₁⟩, ⟨hls, hes⟩, ⟨hl₂, he₂⟩, hblanks, hbefore, hmatched, hafter, hfinal⟩⟩

theorem FileParts.Says.body_eq {opening close blanks before matched after final : Text}
    {fm : List Text}
    (h : p.Says opening fm close blanks before matched after final) :
    text p.body = before ++ (matched ++ after) := by
  rw [FileParts.body, text_append, text_append, h.before, h.matched, h.after]

/-- **A file with a closed frontmatter**, in whose body the string is counted once. -/
theorem exists_cuts (hclosed : Closed (decode bs)) (hold : old ≠ [])
    (hcount : count old (rawFrontmatter (decode bs)).2 = 1) :
    ∃ p, Cuts p bs old := by
  have hbody : (rawFrontmatter (decode bs)).2 ≠ [] := by
    rintro hnil
    rw [hnil] at hcount
    cases hcount
  obtain ⟨i, hstarts, -⟩ := (count_eq_one_iff hold).mp hcount
  obtain ⟨opening, fm, close, rest, htext, hopening, hfm, hclose, hcut⟩ := hclosed.exists_text hbody
  obtain ⟨last, hrest, hlast⟩ := exists_dropLf rest
  have hinfix : old <:+: (rawFrontmatter (decode bs)).2 :=
    hstarts.isInfix.trans (List.drop_suffix i _).isInfix
  generalize (rawFrontmatter (decode bs)).2 = body at *
  obtain ⟨⟨x, y⟩, hxy⟩ : ∃ xy, cut old body = some xy := by
    cases hnone : cut old body with
    | none => exact absurd hinfix (cut_eq_none_iff.mp hnone)
    | some xy => exact ⟨xy, rfl⟩
  have hparts : body = x ++ (old ++ y) := by rw [← List.append_assoc]; exact cut_eq_append hxy
  have hblanks : dropLf rest = (dropLf rest).takeWhile (· = '\n') ++ body := by
    rw [hcut, List.takeWhile_append_dropWhile]
  have hwhole : text (cells (pieces bs)) = opening ++ '\n' :: (unlines fm ++ (close ++ '\n' ::
      ((dropLf rest).takeWhile (· = '\n') ++ (x ++ (old ++ y) ++ last)))) := by
    rw [text_cells, ← hparts, ← List.append_assoc (List.takeWhile _ _), ← hblanks, ← hrest]
    exact htext
  obtain ⟨p, hcells, htexts⟩ := exists_parts hwhole
  have hbodyText : text p.body = body := htexts.body_eq.trans hparts.symm
  refine ⟨p, ⟨hcells, ⟨htexts.opening.1 ▸ hopening, htexts.opening.2⟩, fun l hl => ?_,
    ⟨⟨htexts.closing.1 ▸ hclose.1, htexts.closing.2⟩, htexts.closing.1 ▸ hclose.2⟩, fun c hc =>
      ?_, ?_, htexts.matched, ?_, ?_⟩⟩
  · have hl' := hfm l.text (htexts.fm.1 ▸ List.mem_map_of_mem hl)
    exact ⟨⟨hl'.1, htexts.fm.2 l hl⟩, hl'.2⟩
  · have hmem : c.char ∈ (dropLf rest).takeWhile (· = '\n') :=
      htexts.blanks ▸ List.mem_map_of_mem hc
    simpa using List.mem_takeWhile_imp hmem
  · rw [hbodyText, hcut]
    intro hhead
    have hnot := List.head?_dropWhile_not (fun c : Char => decide (c = '\n')) (dropLf rest)
    rw [hhead] at hnot
    exact absurd hnot (by decide)
  · rw [hbodyText, hxy, htexts.before, htexts.after]
  · rw [hbodyText]
    rcases hlast with ⟨rfl, hlast⟩ | rfl
    · refine .inl ⟨List.map_eq_nil_iff.mp htexts.final, ?_⟩
      rwa [hblanks, List.getLast?_append_of_ne_nil _ hbody] at hlast
    · obtain ⟨c, ds, hfinal, hc, hnil⟩ := List.map_eq_cons_iff.mp htexts.final
      exact .inr ⟨c, by rw [hfinal, List.map_eq_nil_iff.mp hnil], hc⟩

end Parts

/-! ### The tool -/

section Tool

/-- **When a patch changes nothing but the match and the stamps**: the bytes of a file with a closed
frontmatter have parts, and after a call that succeeds the new file is the old one, with the new
text for the match and the stamps set, exactly if the old one is exact outside of these. -/
theorem patch_framed_iff {W W' : World} {env : PatchEnv} {written : Option Write}
    {cache cache' : Cache} {args : PatchArgs} {reply : PatchReply} {dir : Text} {bs : Bytes}
    (h : toolSkillPatch W env written cache args = (.ok reply, W', cache'))
    (hdir : (skillPatchDir W cache args).1 = .ok dir)
    (hfile : W.file (skillMd dir) = some (bs.length, decode bs))
    (hclosed : Closed (decode bs)) :
    ∃ old new text, args.oldString = some old ∧ args.newString = some new ∧ (∃ p, Cuts p bs old) ∧
      W'.file (skillMd dir) = some (utf8Length text, text) ∧
      ∀ p, Cuts p bs old →
          (Framed env p reply.contentHash reply.editedBy new (encode text) ↔ p.Exact) := by
  obtain ⟨dir', x, r, old, new, original, hdir', -, hacc, -, htext, rfl⟩ := toolSkillPatch_patches h
  obtain rfl : dir' = dir := by simpa [hdir'] using hdir
  obtain ⟨size, hread, -⟩ := hacc.read
  obtain rfl : decode bs = original := by
    rw [hfile, Option.some.injEq, Prod.mk.injEq] at hread
    exact hread.2
  exact ⟨old, new, r.text, hacc.succeeds.args_eq.1, hacc.succeeds.args_eq.2,
    exists_cuts hclosed hacc.succeeds.old_ne hacc.once,
    htext, fun p hcuts => hacc.framed_iff hcuts hclosed⟩

/-- The file with one body line. -/
theorem patch_framed_iff_bodyA :
    ∃ old new text, (patchArgs ['a'] ['c']).oldString = some old ∧
      (patchArgs ['a'] ['c']).newString = some new ∧
      (∃ p, Cuts p (encode bodyA) old) ∧
      ((oneSkill 17 bodyA).write (skillMd rewrittenSkill.dir)
        (edited (patchEnv fun _ => digestB) (patchArgs ['a'] ['c']) ['a'] ['c'] bodyA).text
          ⟨1, []⟩).file
        (skillMd rewrittenSkill.dir) = some (utf8Length text, text) ∧
      ∀ p, Cuts p (encode bodyA) old →
        (Framed (patchEnv fun _ => digestB) p
          ((edited (patchEnv fun _ => digestB) (patchArgs ['a'] ['c']) ['a'] ['c'] bodyA).reply
            (patchEnv fun _ => digestB)
            (patchArgs ['a'] ['c'])).contentHash
          ((edited (patchEnv fun _ => digestB) (patchArgs ['a'] ['c']) ['a'] ['c'] bodyA).reply
            (patchEnv fun _ => digestB)
            (patchArgs ['a'] ['c'])).editedBy new (encode text) ↔ p.Exact) :=
  patch_framed_iff (toolSkillPatch_oneSkill _ (by decide) (by decide) (by decide) (by decide))
    (congrArg Prod.fst (skillPatchDir_oneSkill _ _ (check_patchArgs (by decide) (by decide)) rfl))
    (congrArg (fun t => some (17, t)) (show bodyA = decode (encode bodyA) by decide))
      ⟨by decide, by decide⟩

/-! ### A carriage return -/

/-- A file of two body lines, the first of which ends in `\r\n`. -/
def crlfFile : Bytes := encode "---\nname: s\n---\na\r\nb".toList

/-- Its parts for the string `a`. -/
def crlfParts : FileParts where
  opening := written fence lineFeed
  fm := [written "name: s".toList lineFeed]
  closing := written fence lineFeed
  blanks := []
  before := []
  matched := ofText ['a']
  after := [⟨[0x0D, 0x0A], '\n'⟩, ⟨[0x62], 'b'⟩]
  final := []

theorem cuts_crlfFile : Cuts crlfParts crlfFile ['a'] where
  cells := by decide
  opening := ⟨by decide, by decide⟩
  fm := by decide
  closing := ⟨⟨by decide, by decide⟩, by decide⟩
  blanks := by decide
  start := by decide
  matched := by decide
  first := by decide
  final := .inl ⟨rfl, by decide⟩

theorem closed_crlfFile : Closed (decode crlfFile) := ⟨by decide, by decide⟩

/-- The line end is not exact. -/
theorem not_exact_crlfParts : ¬ crlfParts.Exact := by
  intro hexact
  have hcell : (⟨[0x0D, 0x0A], '\n'⟩ : Cell).Exact := hexact.around _ (by decide)
  unfold Cell.Exact at hcell
  exact absurd hcell (by decide)

/-- The patch of another line writes it as a line feed. -/
theorem patched_crlf :
    ¬ ∀ W env written cache args reply W' cache' dir bs old new text p,
      toolSkillPatch W env written cache args = (.ok reply, W', cache') →
        (skillPatchDir W cache args).1 = .ok dir →
      W.file (skillMd dir) = some (bs.length, decode bs) → Closed (decode bs) →
        args.oldString = some old →
      args.newString = some new → W'.file (skillMd dir) = some (utf8Length text, text) →
        Cuts p bs old →
      Framed env p reply.contentHash reply.editedBy new (encode text) := by
  intro hall
  have hcall := toolSkillPatch_oneSkill (fun _ => digestB) (show ['a'] ≠ [] by decide)
    (show ['a'] ≠ ['c'] by decide)
    (show crlfFile.length ≤ maxFileBytes by decide)
      (show count ['a'] (rawFrontmatter (decode crlfFile)).2 = 1 by decide)
  obtain ⟨dir, x, r, old, new, original, hdir, -, hacc, -, htext, hreply⟩ :=
    toolSkillPatch_patches hcall
  obtain ⟨size, hread, -⟩ := hacc.read
  obtain rfl : decode crlfFile = original := congrArg Prod.snd (Option.some.inj hread)
  obtain rfl : ['a'] = old := Option.some.inj hacc.succeeds.args_eq.1
  obtain rfl : ['c'] = new := Option.some.inj hacc.succeeds.args_eq.2
  have hframed := hall _ _ _ _ _ _ _ _ dir crlfFile ['a'] ['c'] r.text crlfParts hcall
    (congrArg Prod.fst hdir) rfl closed_crlfFile
    rfl rfl htext cuts_crlfFile
  rw [hreply] at hframed
  exact not_exact_crlfParts ((hacc.framed_iff cuts_crlfFile closed_crlfFile).mp hframed)

end Tool

end OracleSkills.Server
