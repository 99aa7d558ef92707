import OracleSkills.Python.Utf8
import OracleSkills.Python.Lines

/-!
# Data that is decoded, cut into lines, joined and encoded again

A `Cell` is a character of some data as the lines see it: with its bytes, and a line feed for a line
end of any kind. The text of the cells is that of the data with line feeds for line ends
(`text_cells`), so that encoding the text anew gives the data back if every cell is `Exact`: its
bytes are the encoding of its character.

If some cell is not, the data and the text encoded again are `Apart`: different, also up to a last
line feed. The first cell that is not exact shows it, unless its bytes begin like the encoding of
U+FFFD: then it is the bytes behind them, which do not go on (`Follows`), or do where something
between was taken out, and from there on the data stay behind (`shift_apart`).
-/

namespace Python

/-! ### Cells -/

/-- A character with its bytes; a line end is a line feed. -/
structure Cell where
  bytes : Bytes
  char : Char
deriving DecidableEq

/-- The cell of a piece. -/
def Piece.cell (p : Piece) : Cell := ⟨p.bytes, if isLineEnd p.char then '\n' else p.char⟩

/-- The cells of some pieces: `\r\n` is one. -/
def cells : List Piece → List Cell
  | [] => []
  | [p] => [p.cell]
  | p :: q :: ps => if p.char = '\r' ∧ q.char = '\n' then ⟨p.bytes ++ q.bytes,
    '\n'⟩ :: cells ps else p.cell :: cells (q :: ps)

/-- The bytes of the cells. -/
def raw (cs : List Cell) : Bytes := cs.flatMap (·.bytes)

/-- The characters of the cells. -/
def text (cs : List Cell) : Text := cs.map (·.char)

@[simp] theorem raw_nil : raw [] = [] := rfl

@[simp] theorem raw_cons (c : Cell) (cs : List Cell) :
    raw (c :: cs) = c.bytes ++ raw cs := List.flatMap_cons

@[simp] theorem raw_append (cs ds : List Cell) :
    raw (cs ++ ds) = raw cs ++ raw ds := List.flatMap_append

@[simp] theorem text_nil : text [] = [] := rfl

@[simp] theorem text_cons (c : Cell) (cs : List Cell) : text (c :: cs) = c.char :: text cs := rfl

@[simp] theorem text_append (cs ds : List Cell) :
    text (cs ++ ds) = text cs ++ text ds := List.map_append

@[simp] theorem encode_nil : encode [] = [] := rfl

@[simp] theorem encode_cons (c : Char) (t : Text) :
    encode (c :: t) = encodeChar c ++ encode t := List.flatMap_cons

@[simp] theorem encode_append (s t : Text) :
    encode (s ++ t) = encode s ++ encode t := List.flatMap_append

/-- The text of the cells is that of the pieces, with a line feed for every line end. -/
theorem text_cells (ps : List Piece) : text (cells ps) = lfLines (ps.map (·.char)) := by
  induction ps using cells.induct with
  | case1 => rfl
  | case2 p =>
    rw [List.map_singleton, lfLines_cons (by simp)]
    rfl
  | case3 p q ps h ih =>
    rw [cells, if_pos h, text_cons, ih, List.map_cons, List.map_cons, h.1, h.2, lfLines]
  | case4 p q ps h ih =>
    rw [cells, if_neg h, text_cons, List.map_cons, lfLines_cons (by simpa using h), ih]
    rfl

/-- The bytes are the encoding of the character. -/
def Cell.Exact (c : Cell) : Prop := c.bytes = encodeChar c.char

/-- What a cell can be: its character with its encoding, a line end other than a line feed, or
U+FFFD for bytes that are no encoding. -/
inductive Cell.Read (c : Cell) : Prop where
  | exact : c.Exact → c.Read
  | lineEnd (e : Char) (rest : Bytes) : c.char = '\n' → isLineEnd e = true → e ≠ '\n' →
    c.bytes = encodeChar e ++ rest → c.Read
  | illFormed : c.char = replacement → IllFormed c.bytes → c.Read

/-- A cell that breaks off is not gone on with by these bytes. -/
def Cell.Stops (c : Cell) (bs : Bytes) : Prop :=
  c.char = replacement → Loose c.bytes → ∀ x ∈ bs.head?, ¬ Continues x

theorem Piece.read_cell {p : Piece}
    (h : p.bytes = encodeChar p.char ∨ p.char = replacement ∧ IllFormed p.bytes) :
    p.cell.Read := by
  by_cases hend : isLineEnd p.char = true
  · have hchar : p.cell.char = '\n' := if_pos hend
    rcases h with hexact | ⟨hrepl, -⟩
    · by_cases hlf : p.char = '\n'
      · exact .exact (by rw [Cell.Exact, hchar, ← hlf]; exact hexact)
      · exact .lineEnd p.char [] hchar hend hlf (by rw [List.append_nil]; exact hexact)
    · rw [hrepl] at hend
      exact absurd hend (by decide)
  · have hchar : p.cell.char = p.char := if_neg hend
    rcases h with hexact | ⟨hrepl, hill⟩
    · exact .exact (by rw [Cell.Exact, hchar]; exact hexact)
    · exact .illFormed (hchar.trans hrepl) hill

/-- **What the cells of some data can be.** -/
theorem read_cells (bs : Bytes) : ∀ c ∈ cells (pieces bs), c.Read := by
  have hpieces := piece_cases bs
  revert hpieces
  generalize pieces bs = ps
  intro hps
  induction ps using cells.induct with
  | case1 => simp [cells]
  | case2 p => simpa [cells] using Piece.read_cell (hps p (List.mem_cons_self ..))
  | case3 p q ps h ih =>
    rw [cells, if_pos h]
    refine List.forall_mem_cons.mpr ⟨?_, ih fun r hr => hps r (by simp [hr])⟩
    have hexact : p.bytes = encodeChar p.char := by
      refine (hps p (List.mem_cons_self ..)).resolve_right fun hill => ?_
      rw [h.1] at hill
      exact absurd hill.1 (by decide)
    exact .lineEnd '\r' q.bytes rfl (by decide) (by decide) (by rw [hexact, h.1])
  | case4 p q ps h ih =>
    rw [cells, if_neg h]
    exact List.forall_mem_cons.mpr ⟨Piece.read_cell (hps p (List.mem_cons_self ..)),
      ih fun r hr => hps r (by simp [hr])⟩

/-- The first bytes of the cells are those of the first piece. -/
theorem head_cells (p : Piece) (ps : List Piece) :
    ∀ c ∈ (cells (p :: ps)).head?, ∃ rest, c.bytes = p.bytes ++ rest := by
  cases ps with
  | nil => simp [cells, Piece.cell]
  | cons q ps =>
    unfold cells
    split_ifs
    · simp
    · simp [Piece.cell]

theorem encodeChar_ne_nil (c : Char) : encodeChar c ≠ [] := by
  intro h
  have hlength := String.length_utf8EncodeChar c
  rw [encodeChar] at h
  rw [h] at hlength
  exact absurd hlength (Nat.ne_of_lt c.utf8Size_pos)

/-- No piece is empty. -/
theorem Piece.bytes_ne_nil {p : Piece}
    (h : p.bytes = encodeChar p.char ∨ p.char = replacement ∧ IllFormed p.bytes) :
    p.bytes ≠ [] := by
  rcases h with hexact | ⟨-, hill⟩
  · exact hexact ▸ encodeChar_ne_nil p.char
  · rintro hnil
    obtain ⟨b, hb, -⟩ := hill.head
    simp [hnil] at hb

/-- **A cell that breaks off is not gone on with.** -/
theorem isChain_cells (bs : Bytes) : (cells (pieces bs)).IsChain fun c d => c.Stops d.bytes := by
  have hpieces := piece_cases bs
  have hchain := isChain_pieces bs
  revert hpieces hchain
  generalize pieces bs = ps
  intro hps hchain
  induction ps using cells.induct with
  | case1 => exact .nil
  | case2 p => exact .singleton _
  | case3 p q ps h ih =>
    rw [cells, if_pos h]
    refine (ih (fun r hr => hps r (by simp [hr])) hchain.tail.tail).cons fun d _ hchar => ?_
    have hno : '\n' ≠ replacement := by decide
    exact absurd hchar hno
  | case4 p q ps h ih =>
    rw [cells, if_neg h]
    refine (ih (fun r hr => hps r (by simp [hr])) hchain.tail).cons fun d hd hchar hloose x hx => ?_
    obtain ⟨rest, hrest⟩ := head_cells q ps d hd
    have hp : p.char = replacement := by
      have hno : '\n' ≠ replacement := by decide
      by_cases hend : isLineEnd p.char = true
      · rw [Piece.cell, if_pos hend] at hchar
        exact absurd hchar hno
      · rwa [Piece.cell, if_neg hend] at hchar
    rw [hrest, List.head?_append_of_ne_nil _ (Piece.bytes_ne_nil (hps q (by simp)))] at hx
    exact (List.isChain_cons_cons.mp hchain).1 hp hloose x hx

/-! ### Data that differ -/

/-- Different, also up to a last line feed. -/
structure Apart (X Y : Bytes) : Prop where
  ne : X ≠ Y
  ne_left : X ++ [0x0A] ≠ Y
  ne_right : X ≠ Y ++ [0x0A]

theorem Apart.append_left {X Y : Bytes} (h : Apart X Y) (Z : Bytes) : Apart (Z ++ X) (Z ++ Y) where
  ne he := h.ne (List.append_cancel_left he)
  ne_left he := h.ne_left (List.append_cancel_left (by rwa [List.append_assoc] at he))
  ne_right he := h.ne_right (List.append_cancel_left (by rwa [List.append_assoc] at he))

/-- Nothing is apart from data that do not begin with a line feed. -/
theorem apart_nil {y : UInt8} (h : y ≠ 0x0A) (Y : Bytes) : Apart [] (y :: Y) where
  ne he := by simp at he
  ne_left he := h (List.cons.inj he).1.symm
  ne_right he := by simp at he

/-- Data that differ, whatever stands behind. -/
theorem apart_of_forall {A B : Bytes} (h : ∀ X Y, A ++ X ≠ B ++ Y) (X Y : Bytes) :
    Apart (A ++ X) (B ++ Y) where
  ne := h X Y
  ne_left he := h (X ++ [0x0A]) Y (by rwa [List.append_assoc] at he)
  ne_right he := h X (Y ++ [0x0A]) (by rwa [List.append_assoc] at he)

theorem apart_cons {x y : UInt8} (h : x ≠ y) (X Y : Bytes) : Apart (x :: X) (y :: Y) :=
  apart_of_forall (A := [x]) (B := [y]) (fun _ _ he => h (List.cons.inj he).1) X Y

theorem apart_encodeChar {c d : Char} (h : c ≠ d) (X Y : Bytes) :
    Apart (encodeChar c ++ X) (encodeChar d ++ Y) :=
  apart_of_forall (fun _ _ he => h (encodeChar_append_inj he)) X Y

/-- Bytes of which neither begin like the others. -/
theorem apart_of_not_prefix {A B : Bytes} (hlength : A.length ≤ B.length) (h : ¬ A <+: B)
    (X Y : Bytes) :
    Apart (A ++ X) (B ++ Y) :=
  apart_of_forall
    (fun _ _ he =>
    h (List.prefix_of_prefix_length_le (he ▸ List.prefix_append A _)
    (List.prefix_append B _) hlength))
    X Y

/-- Data that do not go on as the others do. -/
theorem apart_of_stops {X : Bytes} {y : UInt8} (hy : Continues y) (h : ∀ x ∈ X.head?, ¬ Continues x)
    (Y : Bytes) :
    Apart X (y :: Y) := by
  cases X with
  | nil =>
    refine apart_nil ?_ Y
    rintro rfl
    exact absurd hy.1 (by decide)
  | cons x X =>
    refine apart_cons ?_ X Y
    rintro rfl
    exact h x rfl hy

theorem continues_BF : Continues 0xBF := by decide

theorem continues_BD : Continues 0xBD := by decide

/-- Bytes that are no encoding, against U+FFFD. -/
theorem IllFormed.apart {bs X : Bytes} (h : IllFormed bs)
    (hstops : Loose bs → ∀ x ∈ X.head?, ¬ Continues x) (Y : Bytes) :
    Apart (bs ++ X) (encodeChar replacement ++ Y) := by
  by_cases hpre : bs <+: encodeChar replacement
  · have hloose := h.loose hpre
    have hX := hstops hloose
    rw [encodeChar_replacement]
    rcases hloose with rfl | rfl
    · exact (apart_of_stops continues_BF hX (0xBD :: Y)).append_left [0xEF]
    · exact (apart_of_stops continues_BD hX Y).append_left [0xEF, 0xBF]
  · exact apart_of_not_prefix (by rw [encodeChar_replacement]; exact h.short) hpre X Y

theorem encodeChar_ascii {c : Char} (h : c.toNat < 0x80) :
    encodeChar c = [UInt8.ofNat c.toNat] := by
  rw [encodeChar, String.utf8EncodeChar]
  exact if_pos (by change c.toNat ≤ 127; omega)

/-- Bytes that are no encoding, against a character of ASCII. -/
theorem IllFormed.apart_ascii {bs : Bytes} (h : IllFormed bs) {c : Char} (hc : c.toNat < 0x80)
    (X Y : Bytes) :
    Apart (bs ++ X) (encodeChar c ++ Y) := by
  obtain ⟨b, hb, hhigh⟩ := h.head
  obtain ⟨rest, rfl⟩ : ∃ rest, bs = b :: rest := by
    cases bs with
    | nil => simp at hb
    | cons x rest => exact ⟨rest, by simpa using hb⟩
  rw [encodeChar_ascii hc]
  refine apart_cons ?_ _ _
  rintro rfl
  rw [UInt8.toNat_ofNat'] at hhigh
  omega

namespace Cell

variable {c : Cell}

/-- **A cell that is not exact** is apart from the encoding of its character. -/
theorem Read.apart (h : c.Read) (hne : ¬ c.Exact) {X : Bytes} (hstops : c.Stops X) (Y : Bytes) :
    Apart (c.bytes ++ X) (encodeChar c.char ++ Y) := by
  cases h with
  | exact hexact => exact absurd hexact hne
  | lineEnd e rest hchar _ hlf hbytes =>
    rw [hchar, hbytes, List.append_assoc]
    exact apart_encodeChar hlf _ _
  | illFormed hchar hill =>
    rw [hchar]
    exact hill.apart (hstops hchar) Y

/-- A cell is apart from the encoding of another character of ASCII that ends no line. -/
theorem Read.apart_ascii (h : c.Read) {d : Char} (hne : c.char ≠ d) (hd : d.toNat < 0x80)
    (hline : isLineEnd d = true → d = '\n') (X Y : Bytes) :
    Apart (c.bytes ++ X) (encodeChar d ++ Y) := by
  cases h with
  | exact hexact =>
    rw [hexact]
    exact apart_encodeChar hne X Y
  | lineEnd e rest hchar hend _ hbytes =>
    rw [hbytes, List.append_assoc]
    refine apart_encodeChar ?_ _ _
    rintro rfl
    exact hne (hchar.trans (hline hend).symm)
  | illFormed _ hill => exact hill.apart_ascii hd X Y

/-- A cell with a character of a line is exact, but for U+FFFD. -/
theorem Read.exact_of_ne (h : c.Read) (hlf : c.char ≠ '\n') (hrepl : c.char ≠ replacement) :
    c.Exact := by
  cases h with
  | exact hexact => exact hexact
  | lineEnd _ _ hchar => exact absurd hchar hlf
  | illFormed hchar => exact absurd hchar hrepl

end Cell

/-! ### Runs of cells -/

section Runs

variable {cs ds : List Cell}

/-- Cells as they stand in some data. -/
structure Run (cs : List Cell) : Prop where
  read : ∀ c ∈ cs, c.Read
  chain : cs.IsChain fun c d => c.Stops d.bytes

theorem run_cells (bs : Bytes) : Run (cells (pieces bs)) := ⟨read_cells bs, isChain_cells bs⟩

theorem Run.infix (h : Run cs) (hd : ds <:+: cs) : Run ds :=
  ⟨fun c hc => h.read c (hd.subset hc), h.chain.infix hd⟩

theorem Run.tail {c : Cell} (h : Run (c :: cs)) : Run cs := h.infix (List.suffix_cons c cs).isInfix

theorem encode_text_of_exact (h : ∀ c ∈ cs, c.Exact) : encode (text cs) = raw cs := by
  induction cs with
  | nil => rfl
  | cons c cs ih =>
    have hc : c.Exact := h c (List.mem_cons_self ..)
    rw [text_cons, encode_cons, raw_cons, ih fun d hd => h d (List.mem_cons_of_mem _ hd), ← hc]

/-- No cell is empty. -/
theorem Cell.Read.bytes_ne_nil {c : Cell} (h : c.Read) : c.bytes ≠ [] := by
  cases h with
  | exact hexact => exact hexact ▸ encodeChar_ne_nil c.char
  | lineEnd e rest _ _ _ hbytes => simp [hbytes, encodeChar_ne_nil]
  | illFormed _ hill =>
    rintro hnil
    obtain ⟨b, hb, -⟩ := hill.head
    simp [hnil] at hb

/-- The first cell of a row is not gone on with, unless by what stands behind it alone. -/
theorem Run.stops {c : Cell} (h : Run (c :: cs)) {X : Bytes} (hX : cs = [] → c.Stops X) :
    c.Stops (raw cs ++ X) := by
  cases cs with
  | nil => exact hX rfl
  | cons d cs =>
    intro hchar hloose x hx
    rw [raw_cons, List.append_assoc,
      List.head?_append_of_ne_nil _ (h.read d (by simp)).bytes_ne_nil] at hx
    exact (List.isChain_cons_cons.mp h.chain).1 hchar hloose x hx

/-- **Cells in a row** are exact, or apart from their text encoded again. -/
theorem Run.exact_or_apart (h : Run cs) {X : Bytes} (hX : ∀ c ∈ cs.getLast?, c.Stops X)
    (Y : Bytes) :
    (∀ c ∈ cs, c.Exact) ∨ Apart (raw cs ++ X) (encode (text cs) ++ Y) := by
  induction cs with
  | nil => exact .inl (by simp)
  | cons c cs ih =>
    have hc := h.read c (List.mem_cons_self ..)
    rw [raw_cons, text_cons, encode_cons, List.append_assoc, List.append_assoc]
    by_cases hexact : c.Exact
    · have hlast : ∀ d ∈ cs.getLast?, d.Stops X := by
        intro d hd
        refine hX d ?_
        rw [List.getLast?_cons, hd]
        rfl
      refine (ih h.tail hlast).imp (fun hcs => List.forall_mem_cons.mpr ⟨hexact, hcs⟩)
        fun hapart => ?_
      rw [hexact]
      exact hapart.append_left _
    · refine .inr (hc.apart hexact (h.stops fun hnil => hX c ?_) _)
      rw [hnil]
      rfl

theorem replicate_text_cons {d : Cell} (hd : d.char = replacement) (k : ℕ) (ds : List Cell) :
    List.replicate k replacement ++ text (d :: ds) = List.replicate (k + 1) replacement ++
        text ds := by
  rw [text_cons, hd, List.replicate_succ', List.append_assoc]
  rfl

/-- **Data that have fallen behind** by some U+FFFD stay behind. -/
theorem Run.shift_apart (h : Run cs) (k : ℕ) :
    Apart (raw cs) (encode (List.replicate (k + 1) replacement ++ text cs)) := by
  induction cs generalizing k with
  | nil =>
    rw [List.replicate_succ, List.cons_append, encode_cons, encodeChar_replacement]
    exact apart_nil (by decide) _
  | cons c cs ih =>
    have hnext : encode (List.replicate (k + 1) replacement ++ text (c :: cs)) =
        encodeChar replacement ++ encode (List.replicate k replacement ++ text (c :: cs)) := by
      rw [List.replicate_succ, List.cons_append, encode_cons]
    rw [hnext, raw_cons]
    cases h.read c (List.mem_cons_self ..) with
    | exact hexact =>
      rw [hexact]
      by_cases hrepl : c.char = replacement
      · rw [replicate_text_cons hrepl, hrepl]
        exact (ih h.tail k).append_left _
      · exact apart_encodeChar hrepl _ _
    | lineEnd e rest _ hend _ hbytes =>
      rw [hbytes, List.append_assoc]
      refine apart_encodeChar ?_ _ _
      rintro rfl
      exact absurd hend (by decide)
    | illFormed hchar hill =>
      have hstops := h.stops (X := []) fun _ _ _ x hx => by simp at hx
      rw [List.append_nil] at hstops
      exact hill.apart (hstops hchar) _

/-- The encoding of a character goes on no other. -/
theorem not_continues_encodeChar (c : Char) : ∀ x ∈ (encodeChar c).head?, ¬ Continues x := by
  intro x hx hcont
  rw [encodeChar, String.utf8EncodeChar] at hx
  have hlow := hcont.1
  have hhigh := hcont.2
  split_ifs at hx
  all_goals
    simp only [List.head?_cons, Option.mem_def, Option.some.injEq] at hx
    rw [← hx, UInt8.toNat_ofNat'] at hlow hhigh
    omega

/-- Cells that go on an encoding begin with a byte that is read as U+FFFD. -/
theorem Run.stray_or_apart (h : Run cs) {y : UInt8} (hy : Continues y) :
    (∃ d ds, cs = d :: ds ∧ d.bytes = [y] ∧ d.char = replacement) ∨
        ∀ Y, Apart (raw cs) (y :: Y) := by
  cases cs with
  | nil => exact .inr fun Y => apart_of_stops hy (by simp) Y
  | cons d ds =>
    have hd := h.read d (List.mem_cons_self ..)
    by_cases hhead : d.bytes.head? = some y
    · have hno : ∀ (c : Char) rest, d.bytes ≠ encodeChar c ++ rest := by
        intro c rest he
        rw [he, List.head?_append_of_ne_nil _ (encodeChar_ne_nil c)] at hhead
        exact not_continues_encodeChar c y hhead hy
      cases hd with
      | exact hexact => exact absurd (by rw [List.append_nil]; exact hexact) (hno d.char [])
      | lineEnd e rest _ _ _ hbytes => exact absurd hbytes (hno e rest)
      | illFormed hchar hill => exact .inl ⟨d, ds, rfl, hill.stray y hhead hy, hchar⟩
    · obtain ⟨x, rest, hx⟩ := List.exists_cons_of_ne_nil hd.bytes_ne_nil
      have hne : x ≠ y := by
        rintro rfl
        exact hhead (by rw [hx]; rfl)
      refine .inr fun Y => ?_
      rw [raw_cons, hx]
      exact apart_cons hne _ _

theorem Run.apart_BD (h : Run cs) (k : ℕ) :
    Apart (raw cs) (0xBD :: encode (List.replicate k replacement ++ text cs)) := by
  rcases h.stray_or_apart continues_BD with ⟨d, ds, rfl, hbytes, hchar⟩ | hapart
  · rw [replicate_text_cons hchar, raw_cons, hbytes]
    exact (h.tail.shift_apart k).append_left [0xBD]
  · exact hapart _

theorem Run.apart_BF (h : Run cs) : Apart (raw cs) (0xBF :: 0xBD :: encode (text cs)) := by
  rcases h.stray_or_apart continues_BF with ⟨d, ds, rfl, hbytes, hchar⟩ | hapart
  · rw [text_cons, hchar, raw_cons, hbytes]
    exact (h.tail.apart_BD 1).append_left [0xBF]
  · exact hapart _

/-- A cell that breaks off, and cells behind it that have stood elsewhere. -/
theorem Run.apart_loose (h : Run ds) {c : Cell} (hchar : c.char = replacement)
    (hloose : Loose c.bytes) :
    Apart (c.bytes ++ raw ds) (encodeChar c.char ++ encode (text ds)) := by
  rw [hchar, encodeChar_replacement]
  rcases hloose with hbytes | hbytes
  · rw [hbytes]
    exact h.apart_BF.append_left [0xEF]
  · rw [hbytes]
    exact (h.apart_BD 0).append_left [0xEF, 0xBF]

/-- **Cells around a new text** are exact, or apart from their text encoded again, also where the
new text is empty and what broke off before it goes on behind it. -/
theorem Run.around (hpre : Run cs) (hpost : Run ds) (new : Text) :
    (∀ c ∈ cs ++ ds, c.Exact) ∨
      Apart (raw cs ++ (encode new ++ raw ds))
          (encode (text cs) ++ (encode new ++ encode (text ds))) := by
  by_cases hlast : ∀ c ∈ cs.getLast?, c.Stops (encode new ++ raw ds)
  · rcases hpre.exact_or_apart hlast (encode new ++ encode (text ds)) with hcs | hapart
    · rcases hpost.exact_or_apart (X := []) (fun _ _ _ _ x hx => by simp at hx) [] with hds | hapart
      · refine .inl fun c hc => ?_
        exact (List.mem_append.mp hc).elim (hcs c) (hds c)
      · rw [encode_text_of_exact hcs]
        rw [List.append_nil, List.append_nil] at hapart
        exact .inr ((hapart.append_left (encode new)).append_left (raw cs))
    · exact .inr hapart
  · refine .inr ?_
    simp only [Cell.Stops, not_forall, not_not] at hlast
    obtain ⟨c, hc, hchar, hloose, x, hx, hcont⟩ := hlast
    obtain ⟨front, rfl⟩ : ∃ front, cs = front ++ [c] :=
      ⟨_, (List.dropLast_append_getLast? c hc).symm⟩
    have hnew : new = [] := by
      cases new with
      | nil => rfl
      | cons d new =>
        rw [encode_cons, List.append_assoc,
          List.head?_append_of_ne_nil _ (encodeChar_ne_nil d)] at hx
        exact absurd hcont (not_continues_encodeChar d x hx)
    subst hnew
    have hfront : Run front := hpre.infix (List.prefix_append front [c]).isInfix
    have hbehind := hpost.apart_loose hchar hloose
    have hstops : ∀ d ∈ front.getLast?, d.Stops (c.bytes ++ raw ds) := by
      intro d hd hdchar hdloose x hx
      rw [List.head?_append_of_ne_nil _ (hpre.read c (by simp)).bytes_ne_nil] at hx
      exact (List.isChain_append.mp hpre.chain).2.2 d hd c rfl hdchar hdloose x hx
    simp only [raw_append, text_append, raw_cons, raw_nil, text_cons, text_nil, encode_append,
      encode_cons, encode_nil, List.append_nil, List.append_assoc, List.nil_append]
    rcases hfront.exact_or_apart hstops (encodeChar c.char ++ encode (text ds)) with hexact | hapart
    · rw [encode_text_of_exact hexact]
      exact hbehind.append_left _
    · exact hapart

/-- **A line** is the one that is asked for and exact, or apart from it. -/
theorem Run.line_exact_or_apart (h : Run cs) {l m : Text} (hcs : text cs = l ++ ['\n'])
    (hl : OneLine l) (hm : ∀ c ∈ m, c.toNat < 0x80 ∧ isLineEnd c = false) :
    (l = m ∧ ∀ c ∈ cs, c.Exact) ∨ ∀ X Y, Apart (raw cs ++ X) (encode (m ++ ['\n']) ++ Y) := by
  induction cs generalizing l m with
  | nil => simp at hcs
  | cons c cs ih =>
    have hc := h.read c (List.mem_cons_self ..)
    cases l with
    | nil =>
      obtain ⟨hchar, htail⟩ : c.char = '\n' ∧ cs = [] := by simpa [text] using hcs
      subst htail
      cases m with
      | nil =>
        by_cases hexact : c.Exact
        · exact .inl ⟨rfl, by simpa using hexact⟩
        · refine .inr fun X Y => ?_
          have hno : '\n' ≠ replacement := by decide
          have hstops : c.Stops X := fun hrepl => absurd (hchar.symm.trans hrepl) hno
          simpa [hchar] using hc.apart hexact hstops Y
      | cons d m =>
        obtain ⟨hd, hline⟩ := hm d (List.mem_cons_self ..)
        refine .inr fun X Y => ?_
        have hne : c.char ≠ d := by
          rintro rfl
          rw [hchar] at hline
          exact absurd hline (by decide)
        simpa using hc.apart_ascii hne hd (by simp [hline]) X (encode (m ++ ['\n']) ++ Y)
    | cons b l =>
      obtain ⟨hchar, htail⟩ : c.char = b ∧ text cs = l ++ ['\n'] := by simpa using hcs
      have hb : b ≠ '\n' := by
        rintro rfl
        exact absurd (hl '\n' (List.mem_cons_self ..)) (by decide)
      cases m with
      | nil =>
        refine .inr fun X Y => ?_
        simpa using hc.apart_ascii (d := '\n') (by rwa [hchar]) (by decide) (by decide)
          (raw cs ++ X) Y
      | cons d m =>
        obtain ⟨hd, hline⟩ := hm d (List.mem_cons_self ..)
        by_cases hsame : c.char = d
        · have hrepl : c.char ≠ replacement := by
            rintro he
            rw [← hsame, he] at hd
            exact absurd hd (by decide)
          have hexact := hc.exact_of_ne (by rwa [hchar]) hrepl
          have hrest := ih h.tail htail (fun x hx => hl x (List.mem_cons_of_mem _ hx)) fun x hx =>
            hm x (List.mem_cons_of_mem _ hx)
          refine hrest.imp
            (fun hok => ⟨by rw [← hchar, hsame, hok.1], List.forall_mem_cons.mpr ⟨hexact, hok.2⟩⟩)
            ?_
          intro hapart X Y
          rw [raw_cons, hexact, hsame, List.cons_append, encode_cons, List.append_assoc,
            List.append_assoc]
          exact (hapart X Y).append_left _
        · refine .inr fun X Y => ?_
          simpa using hc.apart_ascii hsame hd (by simp [hline]) (raw cs ++ X)
            (encode (m ++ ['\n']) ++ Y)

/-! ### A text as cells -/

/-- The cells of a text that is written. -/
def ofText (t : Text) : List Cell := t.map fun c => ⟨encodeChar c, c⟩

@[simp] theorem text_ofText (t : Text) :
    text (ofText t) = t := by simp [text, ofText, Function.comp_def]

theorem exact_ofText (t : Text) : ∀ c ∈ ofText t, c.Exact := by
  intro c hc
  obtain ⟨d, -, rfl⟩ := List.mem_map.mp hc
  rfl

/-- An exact cell does not break off. -/
theorem Cell.Exact.stops {c : Cell} (h : c.Exact) (X : Bytes) : c.Stops X := by
  intro hchar hloose
  rw [h, hchar] at hloose
  exact absurd hloose not_loose_replacement

/-- A text before a cell. -/
theorem run_ofText (t : Text) {c : Cell} (hc : c.Read) : Run (ofText t ++ [c]) where
  read d hd := by
    rcases List.mem_append.mp hd with hd | hd
    · exact .exact (exact_ofText t d hd)
    · exact List.mem_singleton.mp hd ▸ hc
  chain := by
    refine List.isChain_append.mpr ⟨?_, .singleton _,
      fun d hd e _ => (exact_ofText t d (List.mem_of_getLast? hd)).stops _⟩
    rw [List.isChain_iff_forall_rel_of_append_cons_cons]
    intro d e l₁ l₂ hl
    exact (exact_ofText t d (by simp [hl])).stops _

end Runs

end Python
