import Mathlib.Data.List.Chain
import OracleSkills.Python.Text

/-!
# UTF-8

`text.encode("utf-8")` and `data.decode("utf-8", errors="replace")`. Decoding goes through the data
in `pieces`, each with the bytes it was made of: a character with its encoding, or U+FFFD for bytes
that are none, as many as begin one ("maximal subpart").

`piece_cases` says what a piece can be, and `isChain_pieces` that a piece which begins like the
encoding of U+FFFD and breaks off is not continued by the next one.
-/

namespace Python

/-- A Python `bytes`. -/
abbrev Bytes := List UInt8

/-- The encoding of a character. -/
def encodeChar (c : Char) : Bytes := String.utf8EncodeChar c

/-- `text.encode("utf-8")`. -/
def encode (t : Text) : Bytes := t.flatMap encodeChar

/-- U+FFFD. -/
def replacement : Char := '\uFFFD'

/-! ### Decoding -/

/-- What may follow a byte that leads an encoding, byte by byte from one bound to another; `none`
for a byte that leads none. -/
def follow (lead : ℕ) : Option (List (ℕ × ℕ)) :=
  if lead < 0x80 then some []
  else if lead < 0xC2 then none
  else if lead < 0xE0 then some [(0x80, 0xBF)]
  else if lead = 0xE0 then some [(0xA0, 0xBF), (0x80, 0xBF)]
  else if lead = 0xED then some [(0x80, 0x9F), (0x80, 0xBF)]
  else if lead < 0xF0 then some [(0x80, 0xBF), (0x80, 0xBF)]
  else if lead = 0xF0 then some [(0x90, 0xBF), (0x80, 0xBF), (0x80, 0xBF)]
  else if lead < 0xF4 then some [(0x80, 0xBF), (0x80, 0xBF), (0x80, 0xBF)]
  else if lead = 0xF4 then some [(0x80, 0x8F), (0x80, 0xBF), (0x80, 0xBF)]
  else none

/-- The bytes that follow, as far as they are within the bounds. -/
def takeFollow : List (ℕ × ℕ) → Bytes → Bytes
  | (lo, hi) :: bounds, b :: bs =>
    if lo ≤ b.toNat ∧ b.toNat ≤ hi then b :: takeFollow bounds bs else []
  | _, _ => []

/-- The code point of an encoding. -/
def codePoint : Bytes → ℕ
  | [a] => a.toNat
  | [a, b] => (a.toNat - 0xC0) * 64 + (b.toNat - 0x80)
  | [a, b, c] => (a.toNat - 0xE0) * 4096 + (b.toNat - 0x80) * 64 + (c.toNat - 0x80)
  | [a, b, c, d] =>
    (a.toNat - 0xF0) * 262144 + (b.toNat - 0x80) * 4096 + (c.toNat - 0x80) * 64 + (d.toNat - 0x80)
  | _ => 0xFFFD

/-- A character as it was decoded, with its bytes. -/
structure Piece where
  bytes : Bytes
  char : Char

/-- The first piece of some data. -/
def firstPiece (lead : UInt8) (bs : Bytes) : Piece :=
  match follow lead.toNat with
  | none => ⟨[lead], replacement⟩
  | some bounds =>
    let seq := lead :: takeFollow bounds bs
    if seq.length = bounds.length + 1 then ⟨seq, Char.ofNat (codePoint seq)⟩ else ⟨seq, replacement⟩

/-- The pieces of the data behind its first bytes. -/
def piecesFrom : ℕ → Bytes → List Piece
  | _, [] => []
  | skip + 1, _ :: bs => piecesFrom skip bs
  | 0, b :: bs => firstPiece b bs :: piecesFrom ((firstPiece b bs).bytes.length - 1) bs

/-- The pieces of some data. -/
def pieces (bs : Bytes) : List Piece := piecesFrom 0 bs

/-- `data.decode("utf-8", errors="replace")`. -/
def decode (bs : Bytes) : Text := (pieces bs).map (·.char)

example : decode [0x61, 0xE2, 0x82, 0xAC, 0xE2, 0x82, 0x0D, 0xC3] =
    ['a', '€', '\uFFFD', '\r', '\uFFFD'] := by decide

/-! ### What a piece can be -/

/-- It goes on an encoding. -/
def Continues (b : UInt8) : Prop := 0x80 ≤ b.toNat ∧ b.toNat ≤ 0xBF

instance (b : UInt8) :
    Decidable (Continues b) := inferInstanceAs (Decidable (0x80 ≤ b.toNat ∧ b.toNat ≤ 0xBF))

/-- It begins like the encoding of U+FFFD and breaks off. -/
def Loose (bs : Bytes) : Prop := bs = [0xEF] ∨ bs = [0xEF, 0xBF]

/-- Bytes that are no encoding: three at most, and none of ASCII, the encoding of U+FFFD at most
begun, and a byte that would go on an encoding by itself. -/
structure IllFormed (bs : Bytes) : Prop where
  head : ∃ b, bs.head? = some b ∧ 0x80 ≤ b.toNat
  short : bs.length ≤ 3
  loose : bs <+: encodeChar replacement → Loose bs
  stray : ∀ b ∈ bs.head?, Continues b → bs = [b]

theorem takeFollow_prefix : ∀ (bounds : List (ℕ × ℕ)) (bs : Bytes), takeFollow bounds bs <+: bs
  | [], _ => List.nil_prefix
  | _ :: _, [] => List.nil_prefix
  | (lo, hi) :: bounds, b :: bs => by
    unfold takeFollow
    split_ifs
    · exact List.cons_prefix_cons.mpr ⟨rfl, takeFollow_prefix bounds bs⟩
    · exact List.nil_prefix

theorem length_takeFollow_le :
    ∀ (bounds : List (ℕ × ℕ)) (bs : Bytes), (takeFollow bounds bs).length ≤ bounds.length
  | [], _ => by simp [takeFollow]
  | _ :: _, [] => by simp [takeFollow]
  | (lo, hi) :: bounds, b :: bs => by
    unfold takeFollow
    split_ifs
    · simpa using length_takeFollow_le bounds bs
    · simp

theorem length_follow {lead : ℕ} {bounds : List (ℕ × ℕ)} (h : follow lead = some bounds) :
    bounds.length ≤ 3 := by
  unfold follow at h
  split_ifs at h
  all_goals
    obtain rfl := Option.some.inj h
    simp

/-- The first piece is made of the first bytes. -/
theorem firstPiece_prefix (b : UInt8) (bs : Bytes) :
    ∃ rest, (firstPiece b bs).bytes = b :: rest ∧ rest <+: bs := by
  unfold firstPiece
  split
  · exact ⟨[], rfl, List.nil_prefix⟩
  · rename_i bounds _
    dsimp only
    split_ifs
    · exact ⟨_, rfl, takeFollow_prefix bounds bs⟩
    · exact ⟨_, rfl, takeFollow_prefix bounds bs⟩

theorem piecesFrom_eq : ∀ (n : ℕ) (bs : Bytes), piecesFrom n bs = pieces (bs.drop n)
  | 0, bs => rfl
  | n + 1, [] => by simp [pieces, piecesFrom]
  | n + 1, b :: bs => by rw [piecesFrom, piecesFrom_eq n bs, List.drop_succ_cons]

theorem pieces_cons (b : UInt8) (bs : Bytes) :
    pieces (b :: bs) = firstPiece b bs ::
        pieces (bs.drop ((firstPiece b bs).bytes.length - 1)) := by
  rw [pieces, piecesFrom, piecesFrom_eq]

/-- Data that is decoded piece by piece. -/
theorem pieces_append (b : UInt8) (bs : Bytes) :
    ∃ rest, b :: bs = (firstPiece b bs).bytes ++ rest ∧
        pieces (b :: bs) = firstPiece b bs :: pieces rest := by
  obtain ⟨taken, htaken, rest, hrest⟩ := firstPiece_prefix b bs
  refine ⟨rest, by rw [htaken, ← hrest, List.cons_append], ?_⟩
  rw [pieces_cons, htaken, List.length_cons, Nat.add_sub_cancel, ← hrest, List.drop_left]

/-- Induction along the pieces. -/
theorem pieces_rec {P : Bytes → Prop} (nil : P [])
    (cons : ∀ b bs rest, b :: bs = (firstPiece b bs).bytes ++ rest →
      pieces (b :: bs) = firstPiece b bs :: pieces rest →
      P rest → P (b :: bs)) (bs : Bytes) : P bs := by
  induction hn : bs.length using Nat.strong_induction_on generalizing bs with
  | _ n ih =>
    cases bs with
    | nil => exact nil
    | cons b bs =>
      obtain ⟨rest, hbs, hpieces⟩ := pieces_append b bs
      obtain ⟨taken, htaken, -⟩ := firstPiece_prefix b bs
      have hlength : rest.length < n := by
        rw [← hn, hbs, htaken, List.length_append, List.length_cons]
        omega
      exact cons b bs rest hbs hpieces (ih rest.length hlength rest rfl)

/-- The bytes are within the bounds, one by one. -/
def Within (bounds : List (ℕ × ℕ)) (bs : Bytes) : Prop :=
  List.Forall₂ (fun bound b => bound.1 ≤ b.toNat ∧ b.toNat ≤ bound.2) bounds bs

theorem within_takeFollow :
    ∀ {bounds : List (ℕ × ℕ)} {bs : Bytes}, (takeFollow bounds bs).length = bounds.length →
    Within bounds (takeFollow bounds bs)
  | [], bs, _ => .nil
  | bound :: bounds, [], h => by simp [takeFollow] at h
  | (lo, hi) :: bounds, b :: bs, h => by
    unfold takeFollow at h ⊢
    split_ifs at h ⊢ with hb
    exact .cons hb (within_takeFollow (by simpa using h))

theorem Within.nil_left {bs : Bytes} (h : Within [] bs) : bs = [] := List.forall₂_nil_left_iff.mp h

theorem Within.cons_left {bound : ℕ × ℕ} {bounds : List (ℕ × ℕ)} {bs : Bytes}
    (h : Within (bound :: bounds) bs) :
    ∃ b rest, (bound.1 ≤ b.toNat ∧ b.toNat ≤ bound.2) ∧ Within bounds rest ∧ bs = b :: rest :=
  List.forall₂_cons_left_iff.mp h

theorem Within.one {x : ℕ × ℕ} {bs : Bytes} (h : Within [x] bs) :
    ∃ b, (x.1 ≤ b.toNat ∧ b.toNat ≤ x.2) ∧ bs = [b] := by
  obtain ⟨b, rest, hb, hrest, rfl⟩ := h.cons_left
  exact ⟨b, hb, by rw [hrest.nil_left]⟩

theorem Within.two {x y : ℕ × ℕ} {bs : Bytes} (h : Within [x, y] bs) :
    ∃ b c, (x.1 ≤ b.toNat ∧ b.toNat ≤ x.2) ∧ (y.1 ≤ c.toNat ∧ c.toNat ≤ y.2) ∧ bs = [b, c] := by
  obtain ⟨b, rest, hb, hrest, rfl⟩ := h.cons_left
  obtain ⟨c, hc, rfl⟩ := hrest.one
  exact ⟨b, c, hb, hc, rfl⟩

theorem Within.three {x y z : ℕ × ℕ} {bs : Bytes} (h : Within [x, y, z] bs) :
    ∃ b c d, (x.1 ≤ b.toNat ∧ b.toNat ≤ x.2) ∧ (y.1 ≤ c.toNat ∧ c.toNat ≤ y.2) ∧
      (z.1 ≤ d.toNat ∧ d.toNat ≤ z.2) ∧
      bs = [b, c, d] := by
  obtain ⟨b, rest, hb, hrest, rfl⟩ := h.cons_left
  obtain ⟨c, d, hc, hd, rfl⟩ := hrest.two
  exact ⟨b, c, d, hb, hc, hd, rfl⟩

/-- A code point is that of its character. -/
theorem toNat_ofNat {n : ℕ} (h : n.isValidChar) : (Char.ofNat n).val.toNat = n := by
  rw [Char.ofNat, dif_pos h]
  rfl

/-- The encoding of a character, by its code point. -/
theorem encodeChar_ofNat {n : ℕ} (h : n.isValidChar) : encodeChar (Char.ofNat n) =
    if n ≤ 0x7F then [UInt8.ofNat n]
    else if n ≤ 0x7FF then [UInt8.ofNat (n / 64 % 0x20 + 0xC0), UInt8.ofNat (n % 0x40 + 0x80)]
    else if n ≤ 0xFFFF then
      [UInt8.ofNat (n / 4096 % 0x10 + 0xE0), UInt8.ofNat (n / 64 % 0x40 + 0x80),
        UInt8.ofNat (n % 0x40 + 0x80)]
    else
      [UInt8.ofNat (n / 262144 % 0x08 + 0xF0), UInt8.ofNat (n / 4096 % 0x40 + 0x80),
        UInt8.ofNat (n / 64 % 0x40 + 0x80), UInt8.ofNat (n % 0x40 + 0x80)] := by
  rw [encodeChar, String.utf8EncodeChar, toNat_ofNat h]

theorem ofNat_eq_of_toNat {n : ℕ} {b : UInt8} (h : n = b.toNat) : UInt8.ofNat n = b := by
  rw [h, UInt8.ofNat_toNat]

section Lead

variable {a b c d : UInt8}

theorem encodeChar_two (hlo : 0xC2 ≤ a.toNat) (hhi : a.toNat < 0xE0)
    (hb : 0x80 ≤ b.toNat ∧ b.toNat ≤ 0xBF) :
    encodeChar (Char.ofNat (codePoint [a, b])) = [a, b] := by
  have hcode : codePoint [a, b] = (a.toNat - 0xC0) * 64 + (b.toNat - 0x80) := rfl
  rw [hcode, encodeChar_ofNat (by left; omega), if_neg (by omega), if_pos (by omega),
    ofNat_eq_of_toNat (b := a) (by omega), ofNat_eq_of_toNat (b := b) (by omega)]

/-- No overlong encoding (`0xE0`) and no surrogate (`0xED`). -/
theorem encodeChar_three (hlo : 0xE0 ≤ a.toNat) (hhi : a.toNat < 0xF0)
    (hover : a.toNat = 0xE0 → 0xA0 ≤ b.toNat)
    (hsurrogate : a.toNat = 0xED → b.toNat ≤ 0x9F) (hb : 0x80 ≤ b.toNat ∧ b.toNat ≤ 0xBF)
    (hc : 0x80 ≤ c.toNat ∧ c.toNat ≤ 0xBF) :
    encodeChar (Char.ofNat (codePoint [a, b, c])) = [a, b, c] := by
  have hcode : codePoint [a, b, c] = (a.toNat - 0xE0) * 4096 + (b.toNat - 0x80) * 64 +
      (c.toNat - 0x80) := rfl
  have hvalid : (codePoint [a, b, c]).isValidChar := by
    rw [hcode]
    by_cases hlow : a.toNat ≤ 0xED
    · left
      omega
    · right
      omega
  rw [encodeChar_ofNat hvalid, hcode, if_neg (by omega), if_neg (by omega), if_pos (by omega),
    ofNat_eq_of_toNat (b := a) (by omega), ofNat_eq_of_toNat (b := b) (by omega),
      ofNat_eq_of_toNat (b := c) (by omega)]

/-- No overlong encoding (`0xF0`) and nothing above U+10FFFF (`0xF4`). -/
theorem encodeChar_four (hlo : 0xF0 ≤ a.toNat) (hhi : a.toNat < 0xF5)
    (hover : a.toNat = 0xF0 → 0x90 ≤ b.toNat)
    (hlast : a.toNat = 0xF4 → b.toNat ≤ 0x8F) (hb : 0x80 ≤ b.toNat ∧ b.toNat ≤ 0xBF)
    (hc : 0x80 ≤ c.toNat ∧ c.toNat ≤ 0xBF) (hd : 0x80 ≤ d.toNat ∧ d.toNat ≤ 0xBF) :
    encodeChar (Char.ofNat (codePoint [a, b, c, d])) = [a, b, c, d] := by
  have hcode : codePoint [a, b, c, d] =
      (a.toNat - 0xF0) * 262144 + (b.toNat - 0x80) * 4096 + (c.toNat - 0x80) * 64 +
        (d.toNat - 0x80) := rfl
  rw [hcode, encodeChar_ofNat (by right; omega), if_neg (by omega), if_neg (by omega),
    if_neg (by omega), ofNat_eq_of_toNat (b := a) (by omega), ofNat_eq_of_toNat (b := b) (by omega),
    ofNat_eq_of_toNat (b := c) (by omega), ofNat_eq_of_toNat (b := d) (by omega)]

/-- The code point of bytes that may follow their lead has these bytes as its encoding. -/
theorem encodeChar_codePoint {bounds : List (ℕ × ℕ)} {seq : Bytes}
    (h : follow a.toNat = some bounds)
    (hseq : Within bounds seq) : encodeChar (Char.ofNat (codePoint (a :: seq))) = a :: seq := by
  unfold follow at h
  split_ifs at h with h1 h2 h3 h4 h5 h6 h7 h8 h9
  all_goals obtain rfl := Option.some.inj h
  · obtain rfl := hseq.nil_left
    have hcode : codePoint [a] = a.toNat := rfl
    rw [hcode, encodeChar_ofNat (by left; omega), if_pos (by omega), UInt8.ofNat_toNat]
  · obtain ⟨b, hb, rfl⟩ := hseq.one
    exact encodeChar_two (by omega) h3 hb
  · obtain ⟨b, c, hb, hc, rfl⟩ := hseq.two
    exact encodeChar_three (by omega) (by omega) (by omega) (by omega) (by omega) hc
  · obtain ⟨b, c, hb, hc, rfl⟩ := hseq.two
    exact encodeChar_three (by omega) (by omega) (by omega) (by omega) (by omega) hc
  · obtain ⟨b, c, hb, hc, rfl⟩ := hseq.two
    exact encodeChar_three (by omega) (by omega) (by omega) (by omega) hb hc
  · obtain ⟨b, c, d, hb, hc, hd, rfl⟩ := hseq.three
    exact encodeChar_four (by omega) (by omega) (by omega) (by omega) (by omega) hc hd
  · obtain ⟨b, c, d, hb, hc, hd, rfl⟩ := hseq.three
    exact encodeChar_four (by omega) (by omega) (by omega) (by omega) hb hc hd
  · obtain ⟨b, c, d, hb, hc, hd, rfl⟩ := hseq.three
    exact encodeChar_four (by omega) (by omega) (by omega) (by omega) (by omega) hc hd

end Lead

/-- Bytes that break off are not gone on with. -/
theorem takeFollow_stop {bs rest : Bytes} {bounds : List (ℕ × ℕ)}
    (hall : ∀ bound ∈ bounds, bound = (0x80, 0xBF))
    (hshort : (takeFollow bounds bs).length < bounds.length)
    (hrest : bs = takeFollow bounds bs ++ rest) :
    ∀ x ∈ rest.head?, ¬ Continues x := by
  induction bounds generalizing bs with
  | nil => simp at hshort
  | cons bound bounds ih =>
    obtain rfl := hall bound (List.mem_cons_self ..)
    cases bs with
    | nil =>
      obtain rfl : rest = [] := by simpa [takeFollow] using hrest.symm
      simp
    | cons b bs =>
      by_cases hb : 0x80 ≤ b.toNat ∧ b.toNat ≤ 0xBF
      · have htake : takeFollow ((0x80, 0xBF) :: bounds) (b :: bs) = b :: takeFollow bounds bs :=
          if_pos hb
        rw [htake] at hshort hrest
        exact ih (fun bound hbound => hall bound (List.mem_cons_of_mem _ hbound))
          (by simpa using hshort)
          (by simpa using hrest)
      · have htake : takeFollow ((0x80, 0xBF) :: bounds) (b :: bs) = [] := if_neg hb
        rw [htake, List.nil_append] at hrest
        subst hrest
        simpa [Continues] using hb

theorem encodeChar_replacement : encodeChar replacement = [0xEF, 0xBF, 0xBD] := by decide

/-- What may follow the first byte of U+FFFD. -/
theorem follow_EF : follow (0xEF : UInt8).toNat = some [(0x80, 0xBF), (0x80, 0xBF)] := by decide

/-- A byte that leads no encoding. -/
theorem illFormed_of_follow_none {b : UInt8} (h : follow b.toNat = none) :
    IllFormed [b] ∧ ¬ Loose [b] := by
  have hne : b ≠ 0xEF := by
    rintro rfl
    exact absurd (follow_EF.symm.trans h) (by simp)
  have hhigh : 0x80 ≤ b.toNat := by
    by_contra hlow
    simp [follow, show b.toNat < 0x80 by omega] at h
  refine ⟨⟨⟨b, rfl, hhigh⟩, by simp, fun hpre => ?_, by simp⟩, fun hloose => ?_⟩
  · rw [encodeChar_replacement, List.cons_prefix_cons] at hpre
    exact absurd hpre.1 hne
  · rcases hloose with h | h
    · exact hne (List.cons.inj h).1
    · simp at h

/-- A byte that leads one, where too few may follow. -/
theorem illFormed_of_short {b : UInt8} {bs : Bytes} {bounds : List (ℕ × ℕ)}
    (h : follow b.toNat = some bounds)
    (hshort : (takeFollow bounds bs).length < bounds.length) :
    IllFormed (b :: takeFollow bounds bs) where
  head := by
    refine ⟨b, rfl, ?_⟩
    by_contra hlow
    have hnil : bounds = [] := by simpa [follow, show b.toNat < 0x80 by omega] using h.symm
    rw [hnil] at hshort
    simp at hshort
  short := by
    have hthree := length_follow h
    rw [List.length_cons]
    omega
  loose hpre := by
    rw [encodeChar_replacement, List.cons_prefix_cons] at hpre
    obtain ⟨rfl, hpre⟩ := hpre
    obtain rfl := Option.some.inj (follow_EF.symm.trans h)
    rw [List.prefix_cons_iff] at hpre
    rcases hpre with hnil | ⟨rest, hone, hpre⟩
    · exact .inl (by rw [hnil])
    · rw [List.prefix_cons_iff] at hpre
      rcases hpre with rfl | ⟨rest', rfl, hpre⟩
      · exact .inr (by rw [hone])
      · rw [hone, List.length_cons, List.length_cons, List.length_cons] at hshort
        exact absurd hshort (by simp)
  stray := by
    rintro x hx ⟨hlow, hhigh⟩
    obtain rfl : b = x := by simpa using hx
    simp [follow, show ¬ b.toNat < 0x80 by omega, show b.toNat < 0xC2 by omega] at h

/-- **The first piece** is a character with its encoding, or U+FFFD for bytes that are none. -/
theorem firstPiece_cases (b : UInt8) (bs : Bytes) :
    (firstPiece b bs).bytes = encodeChar (firstPiece b bs).char ∨
      (firstPiece b bs).char = replacement ∧ IllFormed (firstPiece b bs).bytes ∧
        (Loose (firstPiece b bs).bytes → ∀ rest, b :: bs = (firstPiece b bs).bytes ++ rest →
            ∀ x ∈ rest.head?, ¬ Continues x) := by
  unfold firstPiece
  split
  · rename_i hnone
    obtain ⟨hill, hnot⟩ := illFormed_of_follow_none hnone
    exact .inr ⟨rfl, hill, fun hloose => absurd hloose hnot⟩
  · rename_i bounds hsome
    dsimp only
    split_ifs with hfull
    · exact .inl (encodeChar_codePoint hsome (within_takeFollow (by simpa using hfull))).symm
    · have hshort : (takeFollow bounds bs).length < bounds.length := by
        have hle := length_takeFollow_le bounds bs
        rw [List.length_cons] at hfull
        omega
      refine .inr ⟨rfl, illFormed_of_short hsome hshort, fun hbreaks rest hrest => ?_⟩
      obtain rfl : b = 0xEF := by rcases hbreaks with h | h <;> exact (List.cons.inj h).1
      obtain rfl := Option.some.inj (follow_EF.symm.trans hsome)
      exact takeFollow_stop (by simp) hshort (List.cons.inj hrest).2

/-- The first byte of some data is that of its first piece. -/
theorem head_pieces (bs : Bytes) : ∀ p ∈ (pieces bs).head?, p.bytes.head? = bs.head? := by
  cases bs with
  | nil => simp [pieces, piecesFrom]
  | cons b bs =>
    obtain ⟨taken, htaken, -⟩ := firstPiece_prefix b bs
    simp [pieces_cons, htaken]

/-- **What a piece can be.** -/
theorem piece_cases (bs : Bytes) :
    ∀ p ∈ pieces bs, p.bytes = encodeChar p.char ∨ p.char = replacement ∧ IllFormed p.bytes := by
  induction bs using pieces_rec with
  | nil => simp [pieces, piecesFrom]
  | cons b bs rest hbs hpieces ih =>
    intro p hp
    rw [hpieces, List.mem_cons] at hp
    rcases hp with rfl | hp
    · exact (firstPiece_cases b bs).imp_right fun h => ⟨h.1, h.2.1⟩
    · exact ih p hp

/-- The encoding of U+FFFD does not break off. -/
theorem not_loose_replacement : ¬ Loose (encodeChar replacement) := by
  unfold Loose
  decide

/-- **A piece that breaks off is not gone on with.** -/
theorem isChain_pieces (bs : Bytes) :
    (pieces bs).IsChain fun p q => p.char = replacement → Loose p.bytes →
        ∀ x ∈ q.bytes.head?, ¬ Continues x := by
  induction bs using pieces_rec with
  | nil => exact .nil
  | cons b bs rest hbs hpieces ih =>
    rw [hpieces]
    refine ih.cons fun q hq hchar hloose x hx => ?_
    rw [head_pieces rest q hq] at hx
    rcases firstPiece_cases b bs with hexact | ⟨-, -, hstop⟩
    · rw [hexact, hchar] at hloose
      exact absurd hloose not_loose_replacement
    · exact hstop hloose rest hbs x hx

/-! ### Encoding -/

/-- What begins with the encodings of two characters begins with one. -/
theorem encodeChar_append_inj {c d : Char} {s t : Bytes}
    (h : encodeChar c ++ s = encodeChar d ++ t) : c = d := by
  have hdecode : ∀ (c : Char) (s : Bytes), (encodeChar c ++ s).toByteArray.utf8DecodeChar? 0 =
      some c := by
    intro c s
    rw [encodeChar, List.toByteArray_append]
    exact ByteArray.utf8DecodeChar?_utf8EncodeChar_append
  have hc := hdecode c s
  rw [h, hdecode d t, Option.some.injEq] at hc
  exact hc.symm

end Python
