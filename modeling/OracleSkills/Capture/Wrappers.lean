import OracleSkills.Capture.Records
import OracleSkills.Coding.Enclosed

/-!
# The wrappers that are left over

`stripHarnessTags` "removes harness wrappers; what is left is what a person actually wrote". It
takes the tags in turn, and each pattern goes through the text once. What a removal leaves grows
together: in `<comm<command-name>…</command-name>and-name>…</command-name>` the halves of a tag, so
that there is a wrapper again whose turn is over.

`noWrapperLeft_iff`: no wrapper is left, and stripping again changes nothing, exactly if no wrapper
is put together in this way to stay (`PutTogether`): in the text before no turn can the tags of one
whose own turn has come be read, one of them in halves, by passing over the wrappers that this turn
takes out, and stay out of the wrappers of the turns behind. It never happens in a text in which no
tag opens right behind an unfinished one (`Untorn`).

The replacement is that of a global, non-greedy pattern, as it is specified. What is *not*
formalized is the engine that carries it out.
-/

namespace OracleSkills.Capture

open Coding

/-- `<tag>`. -/
def openingTag (tag : String) : JsText := utf16 ('<' :: tag.toList ++ ['>'])

/-- `</tag>`. -/
def closingTag (tag : String) : JsText := utf16 ('<' :: '/' :: tag.toList ++ ['>'])

/-- A complete `<tag>...</tag>` is in the text. -/
def Wraps (tag : String) (text : JsText) : Prop :=
  ∃ before inside behind, text = before ++ openingTag tag ++ inside ++ closingTag tag ++ behind

/-- No wrapper is left of the text when it has been stripped, and there is nothing to strip any
more. -/
def NoWrapperLeft (text : JsText) : Prop :=
  (∀ tag ∈ harnessTags, ¬ Wraps tag (stripHarnessTags text)) ∧
    stripHarnessTags (stripHarnessTags text) = stripHarnessTags text

/-- The text before the turn of the `k`-th tag, unit by unit with the place it came from: the tags
before have taken out what stands from an opening tag of theirs to the first closing tag behind
it. -/
noncomputable def leftAt (text : JsText) (k : ℕ) : List (UInt16 × ℕ) :=
  (harnessTags.take k).foldl (fun l tag => outside Prod.fst (openingTag tag) (closingTag tag) l)
    text.zipIdx

/-- In `l`, the opening tag `o` and behind it the closing tag `c` of `torn` can be read if wrappers
of `tag` are passed over, and they are not both in one piece. -/
structure Joins (tag torn : String) (l o c : List (UInt16 × ℕ)) : Prop where
  legible : Legible Prod.fst (openingTag tag) (closingTag tag) l o c
  opening : o.map Prod.fst = openingTag torn
  closing : c.map Prod.fst = closingTag torn
  torn : ¬ (o <:+: l ∧ c <:+: l)

/-- In some turn, the halves of the tags of one whose own turn has come are joined, and no letter of
the two stands in a wrapper when the turn of that wrapper's tag comes. -/
def PutTogether (text : JsText) : Prop :=
  ∃ k tag, harnessTags[k]? = some tag ∧ ∃ torn ∈ harnessTags.take (k + 1), ∃ o c,
    Joins tag torn (leftAt text k) o c ∧
    ∀ j later, k < j → harnessTags[j]? = some later →
      ∀ x ∈ o ++ c, ¬ Enclosed Prod.fst (openingTag later) (closingTag later) (leftAt text j) x

/-- A beginning of a harness tag, that is not all of it. -/
def Unfinished (p : JsText) : Prop :=
  p ≠ [] ∧ ∃ tag ∈ harnessTags, ∃ mark ∈ [openingTag tag, closingTag tag], p <+: mark ∧ p ≠ mark

/-- No harness tag opens right behind an unfinished one. -/
def Untorn (text : JsText) : Prop :=
  ∀ p, Unfinished p → ∀ tag ∈ harnessTags, ¬ p ++ openingTag tag <:+: text

variable {α : Type*} {read : α → UInt16} {opening closing s t : JsText} {tag : String}

/-! ### A pattern -/

/-- **The replacement** takes out what stands in a block. -/
theorem map_outside (h : Marks opening closing) {n : ℕ} {l : List α} (hnodup : l.Nodup)
    (hn : l.length ≤ n) :
    (outside read opening closing l).map read = removeFrom opening closing n (l.map read) := by
  induction n generalizing l with
  | zero =>
    obtain rfl := List.length_eq_zero_iff.mp (Nat.le_zero.mp hn)
    rfl
  | succ n ih =>
    rcases l with - | ⟨u, t⟩
    · rfl
    rw [List.map_cons, removeFrom]
    split
    · next pre rest hmatch =>
      obtain ⟨s, hdrop, hcut⟩ := Option.bind_eq_some_iff.mp hmatch
      obtain ⟨rfl, hfirst⟩ := cutAt_eq_some h.closing_ne_nil hcut
      rw [dropPrefix?_eq_some, ← List.map_cons, List.map_eq_append_iff] at hdrop
      obtain ⟨o, r, hl, ho, hr⟩ := hdrop
      obtain ⟨v, d, rfl, hv, rfl⟩ := List.map_eq_append_iff.mp hr
      have hblock : Block read opening closing (o ++ v) :=
        ⟨o, v, rfl, ho, by rw [hv]; exact List.suffix_append pre closing, by rwa [hv]⟩
      rw [← List.append_assoc] at hl
      rw [hl] at hnodup hn ⊢
      rw [h.outside_append hnodup hblock]
      refine ih (List.nodup_append.mp hnodup).2.1 ?_
      have hpos : 0 < o.length := by
        rw [← List.length_map read, ho]
        exact List.length_pos_iff.mpr h.opening_ne_nil
      simp only [List.length_append] at hn
      omega
    · next hmatch =>
      rw [outside_cons hnodup, List.map_cons,
        ih (List.nodup_cons.mp hnodup).2 (Nat.le_of_succ_le_succ hn)]
      rintro w ⟨d, hd⟩ ⟨o, v, rfl, ho, hv, -⟩
      have hdrop : (read u :: t.map read).dropPrefix? opening =
          some (v.map read ++ d.map read) := by
        rw [dropPrefix?_eq_some, ← List.map_cons, ← hd, ← ho]
        simp
      rw [hdrop, Option.bind_some] at hmatch
      exact cutAt_eq_none h.closing_ne_nil hmatch (hv.isInfix.trans List.infix_append_left)

/-! ### The turns -/

theorem openingTag_eq (tag : String) : openingTag tag = 60 :: (openingTag tag).tail := rfl

theorem closingTag_eq (tag : String) : closingTag tag = 60 :: (closingTag tag).tail := rfl

theorem marks_of_mem (h : tag ∈ harnessTags) : Marks (openingTag tag) (closingTag tag) := by
  have hall : ∀ tag ∈ harnessTags, (60 ∉ (openingTag tag).tail ∧ 60 ∉ (closingTag tag).tail) ∧
      ¬ openingTag tag <+: closingTag tag ∧ ¬ closingTag tag <+: openingTag tag := by decide +kernel
  obtain ⟨⟨ho, hc⟩, hoc, hco⟩ := hall tag h
  exact ⟨⟨60, _, _, openingTag_eq tag, closingTag_eq tag, ho, hc⟩, hoc, hco⟩

theorem leftAt_succ (text : JsText) {k : ℕ} (h : harnessTags[k]? = some tag) :
    leftAt text (k + 1) = outside Prod.fst (openingTag tag) (closingTag tag) (leftAt text k) := by
  rw [leftAt, List.take_add_one, List.foldl_append, h]
  rfl

theorem leftAt_of_length_le (text : JsText) {k : ℕ} (h : harnessTags.length ≤ k) :
    leftAt text k = leftAt text harnessTags.length := by
  rw [leftAt, List.take_of_length_le h, leftAt, List.take_length]

/-- One turn more, or there are no tags any more. -/
theorem leftAt_step (text : JsText) (k : ℕ) : leftAt text (k + 1) = leftAt text k ∨
    ∃ tag ∈ harnessTags, leftAt text (k + 1) = outside Prod.fst (openingTag tag) (closingTag tag)
        (leftAt text k) := by
  rcases hk : harnessTags[k]? with - | tag
  · have hle := List.getElem?_eq_none_iff.mp hk
    rw [leftAt_of_length_le text (Nat.le_succ_of_le hle), leftAt_of_length_le text hle]
    exact Or.inl rfl
  · exact Or.inr ⟨tag, List.mem_of_getElem? hk, leftAt_succ text hk⟩

/-- What has gone does not come back. -/
theorem leftAt_sublist (text : JsText) {j k : ℕ} (h : j ≤ k) :
    (leftAt text k).Sublist (leftAt text j) := by
  induction h with
  | refl => exact List.Sublist.refl _
  | @step k _ ih =>
    refine List.Sublist.trans ?_ ih
    obtain hsame | ⟨tag, -, hturn⟩ := leftAt_step text k
    · rw [hsame]
    · rw [hturn]
      exact outside_sublist

/-- The places come in their order. -/
theorem pairwise_leftAt (text : JsText) (k : ℕ) :
    (leftAt text k).Pairwise fun x y => x.2 < y.2 := by
  refine List.Pairwise.sublist (leftAt_sublist text (Nat.zero_le k)) ?_
  have hplaces : (text.zipIdx.map Prod.snd).Pairwise (· < ·) := by
    rw [List.zipIdx_map_snd]
    exact List.pairwise_lt_range'
  exact List.pairwise_map.mp hplaces

theorem nodup_leftAt (text : JsText) (k : ℕ) : (leftAt text k).Nodup := by
  refine (pairwise_leftAt text k).imp ?_
  rintro x y hlt rfl
  exact lt_irrefl x.2 hlt

/-- The turns of `stripHarnessTags`, by what is left. -/
theorem map_foldl_outside {tags : List String} (hsub : tags ⊆ harnessTags) {l : List (UInt16 × ℕ)}
    (hnodup : l.Nodup) :
    (tags.foldl (fun l tag => outside Prod.fst (openingTag tag) (closingTag tag) l) l).map
      Prod.fst =
      tags.foldl removeTag (l.map Prod.fst) := by
  induction tags generalizing l with
  | nil => rfl
  | cons tag tags ih =>
    have hmarks := marks_of_mem (hsub List.mem_cons_self)
    rw [List.foldl_cons, List.foldl_cons,
      ih (fun x hx => hsub (List.mem_cons_of_mem tag hx)) (outside_sublist.nodup hnodup),
      map_outside hmarks hnodup le_rfl, removeTag, List.length_map]
    rfl

/-! ### The blanks around -/

theorem infix_of_trim (t : JsText) : trim t <:+: t :=
  (List.rdropWhile_prefix _ _).isInfix.trans (List.dropWhile_suffix _).isInfix

theorem trim_trim (t : JsText) : trim (trim t) = trim t := by
  have hfront : (trim t).dropWhile isJsSpace = trim t := by
    rw [List.dropWhile_eq_self_iff]
    intro hpos
    have hfirst : trim t <+: t.dropWhile isJsSpace := List.rdropWhile_prefix _ _
    rw [hfirst.getElem hpos]
    exact List.dropWhile_get_zero_not _ t (hpos.trans_le hfirst.length_le)
  rw [trim, hfront, trim, List.rdropWhile_idempotent]

theorem dropWhile_append_stop {p : UInt16 → Bool} {u : UInt16} (hu : p u = false) (s t : JsText) :
    (s ++ u :: t).dropWhile p = s.dropWhile p ++ u :: t := by
  rw [List.dropWhile_append]
  split_ifs with hs
  · rw [List.isEmpty_iff.mp hs, List.nil_append, List.dropWhile_cons, hu]
    rfl
  · rfl

theorem rdropWhile_append_stop {p : UInt16 → Bool} {u : UInt16} (hu : p u = false) (s t : JsText) :
    (s ++ u :: t).rdropWhile p = s ++ u :: t.rdropWhile p := by
  have hrev : (s ++ u :: t).reverse = t.reverse ++ u :: s.reverse := by simp
  rw [List.rdropWhile, hrev, dropWhile_append_stop hu, List.rdropWhile]
  simp

theorem Wraps.mono (h : Wraps tag s) (hs : s <:+: t) : Wraps tag t := by
  obtain ⟨a, b, d, rfl⟩ := h
  obtain ⟨p, q, rfl⟩ := hs
  exact ⟨p ++ a, b, d ++ q, by simp⟩

/-- No tag is blank at an end. -/
theorem wraps_trim_iff : Wraps tag (trim t) ↔ Wraps tag t := by
  refine ⟨fun h => h.mono (infix_of_trim t), ?_⟩
  rintro ⟨a, b, d, rfl⟩
  have hclose : closingTag tag = utf16 ('<' :: '/' :: tag.toList) ++ [62] := by
    rw [closingTag, utf16, List.flatMap_append]
    rfl
  have hfront : (a ++ openingTag tag ++ b ++ closingTag tag ++ d).dropWhile isJsSpace =
      a.dropWhile isJsSpace ++ openingTag tag ++ b ++ closingTag tag ++ d := by
    rw [openingTag_eq]
    simpa using dropWhile_append_stop (by decide) a _
  refine ⟨a.dropWhile isJsSpace, b, d.rdropWhile isJsSpace, ?_⟩
  rw [trim, hfront, hclose]
  have hback := rdropWhile_append_stop (p := isJsSpace) (u := 62) (by decide)
    (a.dropWhile isJsSpace ++ openingTag tag ++ b ++ utf16 ('<' :: '/' :: tag.toList)) d
  simpa using hback

/-! ### What is left over -/

/-- It is the text that the code has before that turn. -/
theorem map_leftAt (text : JsText) (k : ℕ) :
    (leftAt text k).map Prod.fst = (harnessTags.take k).foldl removeTag text := by
  have hnodup : text.zipIdx.Nodup := nodup_leftAt text 0
  rw [leftAt, map_foldl_outside (List.take_subset k harnessTags) hnodup, List.zipIdx_map_fst]

theorem stripHarnessTags_eq (text : JsText) :
    stripHarnessTags text = trim ((leftAt text harnessTags.length).map Prod.fst) := by
  rw [map_leftAt, List.take_length, stripHarnessTags]

theorem wraps_iff_between {l : List (UInt16 × ℕ)} :
    Wraps tag (l.map Prod.fst) ↔ ∃ o c,
        Between Prod.fst (openingTag tag) (closingTag tag) l o c := by
  constructor
  · rintro ⟨a, b, d, h⟩
    simp only [List.map_eq_append_iff] at h
    obtain ⟨_, d, rfl, ⟨_, c, rfl, ⟨_, b, rfl, ⟨a, o, rfl, rfl, ho⟩, rfl⟩, hc⟩, rfl⟩ := h
    exact ⟨o, c, ho, hc, a, b, d, rfl⟩
  · rintro ⟨o, c, ho, hc, a, b, d, rfl⟩
    exact ⟨a.map Prod.fst, b.map Prod.fst, d.map Prod.fst, by simp [ho, hc]⟩

/-- Where there is no wrapper, nothing is replaced. -/
theorem removeTag_of_not_wraps (h : tag ∈ harnessTags) (ht : ¬ Wraps tag t) :
    removeTag t tag = t := by
  have hwraps :
      ∀ o c, ¬ Between Prod.fst (openingTag tag) (closingTag tag) t.zipIdx o c := fun o c hb =>
    ht (by simpa using wraps_iff_between.mpr ⟨o, c, hb⟩)
  have hall : (outside Prod.fst (openingTag tag) (closingTag tag) t.zipIdx).map Prod.fst =
      removeFrom (openingTag tag) (closingTag tag) t.length (t.zipIdx.map Prod.fst) :=
    map_outside (marks_of_mem h) (nodup_leftAt t 0) List.length_zipIdx.le
  rw [outside_eq_self hwraps, List.zipIdx_map_fst] at hall
  exact hall.symm

theorem foldl_removeTag {tags : List String} (hsub : tags ⊆ harnessTags)
    (h : ∀ tag ∈ harnessTags, ¬ Wraps tag t) :
    tags.foldl removeTag t = t := by
  induction tags with
  | nil => rfl
  | cons tag tags ih =>
    have htag := hsub List.mem_cons_self
    rw [List.foldl_cons, removeTag_of_not_wraps htag (h tag htag)]
    exact ih fun x hx => hsub (List.mem_cons_of_mem tag hx)

/-- What is in one piece before a turn and stands in no wrapper of its tag is in one piece
afterwards. -/
theorem between_leftAt_succ {text : JsText} {torn : String} {o c : List (UInt16 × ℕ)} {k : ℕ}
    (hb : Between Prod.fst (openingTag torn) (closingTag torn) (leftAt text k) o c)
    (hstays : ∀ tag, harnessTags[k]? = some tag →
      ∀ x ∈ o ++ c, ¬ Enclosed Prod.fst (openingTag tag) (closingTag tag) (leftAt text k) x) :
    Between Prod.fst (openingTag torn) (closingTag torn) (leftAt text (k + 1)) o c := by
  rcases hk : harnessTags[k]? with - | tag
  · have hle := List.getElem?_eq_none_iff.mp hk
    rwa [leftAt_of_length_le text (Nat.le_succ_of_le hle), ← leftAt_of_length_le text hle]
  · obtain ⟨ho, hc, a, b, d, hl⟩ := hb
    rw [leftAt_succ text hk]
    exact ⟨ho, hc, exists_outside_of_not_enclosed hl (hstays tag hk)⟩

/-- No letter of a tag but the first is the one that the tags begin with. -/
theorem not_head_of_mem_tail (htag : tag ∈ harnessTags) {s : List (UInt16 × ℕ)}
    (hs : s.map Prod.fst ∈ [openingTag tag, closingTag tag]) : s ≠ [] ∧ ∀ y ∈ s.tail, y.1 ≠ 60 := by
  have hall : ∀ tag ∈ harnessTags, ∀ mark ∈ [openingTag tag, closingTag tag],
      mark ≠ [] ∧ (mark.tail.all fun u => decide (u ≠ 60)) = true := by
    decide +kernel
  obtain ⟨hne, htail⟩ := hall tag htag _ hs
  refine ⟨by rintro rfl; exact hne rfl, fun y hy => ?_⟩
  have hmem : y.1 ∈ (s.map Prod.fst).tail := by
    rw [← List.map_tail]
    exact List.mem_map_of_mem hy
  exact of_decide_eq_true (List.all_eq_true.mp htail _ hmem)

/-- **A turn joins** what it leaves in one piece, and was not so before. -/
theorem legible_iff_between {text : JsText} {torn : String} {o c : List (UInt16 × ℕ)} {k : ℕ}
    (hk : harnessTags[k]? = some tag) (htorn : torn ∈ harnessTags)
    (ho : o.map Prod.fst = openingTag torn)
    (hc : c.map Prod.fst = closingTag torn) :
    Legible Prod.fst (openingTag tag) (closingTag tag) (leftAt text k) o c ↔
      Between Prod.fst (openingTag torn) (closingTag torn) (leftAt text (k + 1)) o c := by
  obtain ⟨hone, ho'⟩ := not_head_of_mem_tail htorn (s := o) (by simp [ho])
  obtain ⟨hcne, hc'⟩ := not_head_of_mem_tail htorn (s := c) (by simp [hc])
  rw [(marks_of_mem (List.mem_of_getElem? hk)).legible_iff (openingTag_eq tag)
    (nodup_leftAt text k) hone hcne ho' hc',
    ← leftAt_succ text hk]
  exact ⟨fun h => ⟨ho, hc, h⟩, fun h => h.2.2⟩

/-- **No wrapper is left** exactly if none is put together to stay. -/
theorem not_wraps_iff (text : JsText) :
    (∀ tag ∈ harnessTags, ¬ Wraps tag (stripHarnessTags text)) ↔ ¬ PutTogether text := by
  have hwraps : ∀ tag, Wraps tag (stripHarnessTags text) ↔
      ∃ o c, Between Prod.fst (openingTag tag) (closingTag tag) (leftAt text harnessTags.length) o
          c := fun tag => by
    rw [stripHarnessTags_eq, wraps_trim_iff, wraps_iff_between]
  constructor
  · rintro hno ⟨k, tag, hk, torn, htorn, o, c, hjoins, hlater⟩
    have hmem := List.mem_of_mem_take htorn
    have hnext := (legible_iff_between hk hmem hjoins.opening hjoins.closing).mp hjoins.legible
    have hend : ∀ n, k + 1 ≤ n → Between Prod.fst (openingTag torn) (closingTag torn)
        (leftAt text n) o c := by
      intro n hn
      induction hn with
      | refl => exact hnext
      | @step n hn ih => exact between_leftAt_succ ih fun later hl => hlater n later hn hl
    have hlt : k < harnessTags.length := (List.getElem?_eq_some_iff.mp hk).1
    exact hno torn hmem ((hwraps torn).mpr ⟨o, c, hend _ hlt⟩)
  · intro h torn htorn hw
    obtain ⟨o, c, hb⟩ := (hwraps torn).mp hw
    obtain ⟨i, hi⟩ := List.mem_iff_getElem?.mp htorn
    have hlt : i < harnessTags.length := (List.getElem?_eq_some_iff.mp hi).1
    have hmarks := marks_of_mem htorn
    have : Std.Asymm fun x y : UInt16 × ℕ => x.2 < y.2 := ⟨fun _ _ => lt_asymm⟩
    -- a wrapper that was in one piece when its turn began has been taken out in it
    have hfirst : ¬ (o <:+: leftAt text i ∧ c <:+: leftAt text i) := by
      refine hmarks.not_between_of_sublist ?_ (pairwise_leftAt text i) hb
      rw [← leftAt_succ text hi]
      exact leftAt_sublist text hlt
    have hwhole : o <:+: leftAt text harnessTags.length ∧
        c <:+: leftAt text harnessTags.length := by
      obtain ⟨-, -, a, b, d, hl⟩ := hb
      exact ⟨⟨a, b ++ c ++ d, by simp [hl]⟩, ⟨a ++ o ++ b, d, by simp [hl]⟩⟩
    -- so there is a turn in which it comes to be in one piece
    obtain ⟨k, hik, hkn, htorn', hnext⟩ : ∃ k, i ≤ k ∧ k < harnessTags.length ∧
        ¬ (o <:+: leftAt text k ∧ c <:+: leftAt text k) ∧ o <:+: leftAt text (k + 1) ∧
            c <:+: leftAt text (k + 1) := by
      by_contra hnone
      have hall : ∀ k, i ≤ k → k ≤ harnessTags.length →
          ¬ (o <:+: leftAt text k ∧ c <:+: leftAt text k) := by
        intro k hk
        induction hk with
        | refl => exact fun _ => hfirst
        | @step k hk ih => exact fun hle hp => hnone ⟨k, hk, hle, ih (Nat.le_of_succ_le hle), hp⟩
      exact hall _ hlt.le le_rfl hwhole
    have hkth := List.getElem?_eq_getElem hkn
    have hleft : Between Prod.fst (openingTag torn) (closingTag torn)
        (leftAt text (k + 1)) o c := by
      obtain ⟨hone, -⟩ := not_head_of_mem_tail htorn (s := o) (by simp [hb.1])
      obtain ⟨hcne, -⟩ := not_head_of_mem_tail htorn (s := c) (by simp [hb.2.1])
      exact between_of_sublist (leftAt_sublist text hkn) (pairwise_leftAt text (k + 1)) hb hnext.1
        hnext.2 hone hcne
    refine h ⟨k, _, hkth, torn, ?_, o, c,
      ⟨(legible_iff_between hkth htorn hb.1 hb.2.1).mpr hleft, hb.1, hb.2.1, htorn'⟩, ?_⟩
    · rw [List.mem_iff_getElem?]
      exact ⟨i, by rw [List.getElem?_take_of_lt (by omega), hi]⟩
    · intro j later hkj hj x hx
      have hjlt := (List.getElem?_eq_some_iff.mp hj).1
      have hx' : x ∈ leftAt text (j + 1) := by
        refine (leftAt_sublist text hjlt).subset ?_
        obtain ⟨-, -, a, b, d, hl⟩ := hb
        rw [hl]
        simp only [List.mem_append] at hx ⊢
        tauto
      rw [leftAt_succ text hj] at hx'
      exact (mem_outside.mp hx').2

/-- Where no wrapper is left there is nothing to strip. -/
theorem noWrapperLeft_iff_not_wraps (text : JsText) :
    NoWrapperLeft text ↔ ∀ tag ∈ harnessTags, ¬ Wraps tag (stripHarnessTags text) := by
  refine ⟨And.left, fun hno => ⟨hno, ?_⟩⟩
  rw [stripHarnessTags, foldl_removeTag (List.Subset.refl _) hno, stripHarnessTags, trim_trim]

/-! ### Texts in which no tag is torn -/

theorem Unfinished.mono {p q : JsText} (h : Unfinished p) (hq : q <+: p) (hne : q ≠ []) :
    Unfinished q := by
  obtain ⟨-, tag, htag, mark, hmark, hp, hpm⟩ := h
  refine ⟨hne, tag, htag, mark, hmark, hq.trans hp, ?_⟩
  rintro rfl
  exact hpm (hp.eq_of_length_le hq.length_le)

variable {l : List (UInt16 × ℕ)}

/-- Where there is a block behind an unfinished tag, a tag opens behind it. -/
theorem Untorn.not_block (h : Untorn (l.map Prod.fst)) (htag : tag ∈ harnessTags)
    {x w : List (UInt16 × ℕ)} {p q : JsText}
    (hw : Block Prod.fst (openingTag tag) (closingTag tag) w) (hxw : x ++ w <:+: l)
    (hx : x.map Prod.fst = q ++ p) :
    ¬ Unfinished p := by
  intro hp
  obtain ⟨o, v, rfl, ho, -⟩ := hw
  obtain ⟨a, d, rfl⟩ := hxw
  refine h p hp tag htag ⟨a.map Prod.fst ++ q, v.map Prod.fst ++ d.map Prod.fst, ?_⟩
  simp [hx, ho]

/-- A tag that is in one piece when a turn is over was so when it began, -/
theorem Untorn.infix_of_outside (h : Untorn (l.map Prod.fst)) (htag : tag ∈ harnessTags)
    (hnodup : l.Nodup)
    {s : List (UInt16 × ℕ)} (hs : s <:+: outside Prod.fst (openingTag tag) (closingTag tag) l)
    {tag' : String} (htag' : tag' ∈ harnessTags)
    (hmark : s.map Prod.fst ∈ [openingTag tag', closingTag tag']) : s <:+: l := by
  rcases (marks_of_mem htag).infix_outside hnodup hs with
    hs | ⟨s₁, s₂, w, rfl, hne, hne', hw, hinfix⟩
  · exact hs
  · refine absurd ?_ (h.not_block htag hw hinfix (List.nil_append _).symm)
    refine ⟨by simpa using hne, tag', htag', _, hmark, by simp, ?_⟩
    simpa using hne'

/-- and no tag opens behind an unfinished one if none did when it began. -/
theorem Untorn.outside (h : Untorn (l.map Prod.fst)) (htag : tag ∈ harnessTags) (hnodup : l.Nodup) :
    Untorn ((outside Prod.fst (openingTag tag) (closingTag tag) l).map Prod.fst) := by
  rintro p hp tag' htag' ⟨a, d, hmap⟩
  rw [eq_comm, List.map_eq_append_iff] at hmap
  obtain ⟨_, _, hl, hmap, -⟩ := hmap
  obtain ⟨_, s, rfl, -, hs⟩ := List.map_eq_append_iff.mp hmap
  rcases (marks_of_mem htag).infix_outside hnodup ⟨_, _, hl.symm⟩ with
    hs' | ⟨s₁, s₂, w, rfl, hne, hne', hw, hinfix⟩
  · exact h p hp tag' htag' (hs ▸ hs'.map Prod.fst)
  rw [List.map_append, List.append_eq_append_iff] at hs
  rcases hs with ⟨c, hp', -⟩ | ⟨c, hs₁, hopen⟩
  · -- the block stands in the unfinished tag
    exact h.not_block htag hw hinfix (List.nil_append _).symm
      (hp.mono ⟨c, hp'.symm⟩ (by simpa using hne))
  · rcases eq_or_ne c [] with rfl | hc
    · exact h.not_block htag hw hinfix (hs₁.trans (List.append_nil p) : _ = [] ++ p) hp
    · -- it stands in the opening one
      refine h.not_block htag hw hinfix hs₁ ⟨hc, tag', htag', _, List.mem_cons_self,
        ⟨_, hopen.symm⟩, ?_⟩
      rw [hopen]
      simpa using hne'

theorem untorn_leftAt {text : JsText} (h : Untorn text) (k : ℕ) :
    Untorn ((leftAt text k).map Prod.fst) := by
  induction k with
  | zero => rwa [leftAt, List.take_zero, List.foldl_nil, List.zipIdx_map_fst]
  | succ k ih =>
    obtain hsame | ⟨tag, htag, hturn⟩ := leftAt_step text k
    · rwa [hsame]
    · rw [hturn]
      exact ih.outside htag (nodup_leftAt text k)

/-- So each tag stays as it was in the text. -/
theorem Untorn.infix_leftAt {text : JsText} (h : Untorn text) {j k : ℕ} (hjk : j ≤ k)
    {s : List (UInt16 × ℕ)} (hs : s <:+: leftAt text k) (htag : tag ∈ harnessTags)
    (hmark : s.map Prod.fst ∈ [openingTag tag, closingTag tag]) : s <:+: leftAt text j := by
  induction hjk with
  | refl => exact hs
  | @step k _ ih =>
    apply ih
    obtain hsame | ⟨tag', htag', hturn⟩ := leftAt_step text k
    · rwa [hsame] at hs
    · rw [hturn] at hs
      exact (untorn_leftAt h k).infix_of_outside htag' (nodup_leftAt text k) hs htag hmark

/-- **Where no tag opens behind an unfinished one**, none is put together. -/
theorem not_putTogether_of_untorn {text : JsText} (h : Untorn text) : ¬ PutTogether text := by
  rintro ⟨k, tag, hk, torn, htorn, o, c, hjoins, -⟩
  have hmem := List.mem_of_mem_take htorn
  obtain ⟨-, -, a, b, d, hl⟩ :=
    (legible_iff_between hk hmem hjoins.opening hjoins.closing).mp hjoins.legible
  have hle := Nat.le_succ k
  refine hjoins.torn ⟨?_, ?_⟩
  · exact h.infix_leftAt hle ⟨a, b ++ c ++ d, by simp [hl]⟩ hmem (by simp [hjoins.opening])
  · exact h.infix_leftAt hle ⟨a ++ o ++ b, d, by simp [hl]⟩ hmem (by simp [hjoins.closing])

/-- **Stripping leaves no wrapper**, and nothing to strip, exactly if none is put together to stay;
and none is in a text in which no tag opens behind an unfinished one, however they are nested. -/
theorem noWrapperLeft_iff (text : JsText) :
    (NoWrapperLeft text ↔ ¬ PutTogether text) ∧ (Untorn text → NoWrapperLeft text) := by
  have hiff : NoWrapperLeft text ↔ ¬ PutTogether text :=
    (noWrapperLeft_iff_not_wraps text).trans (not_wraps_iff text)
  exact ⟨hiff, fun h => hiff.mpr (not_putTogether_of_untorn h)⟩

/-! ### The halves of a tag -/

theorem not_noWrapperLeft_halves : ¬ NoWrapperLeft
    (utf16 "<comm<command-name>/model</command-name>and-name>yes</command-name>".toList) := by
  have hstrip :
      stripHarnessTags
      (utf16 "<comm<command-name>/model</command-name>and-name>yes</command-name>".toList) =
      utf16 "<command-name>yes</command-name>".toList := by decide +kernel
  rintro ⟨hno, -⟩
  refine hno "command-name" (by decide) ?_
  rw [hstrip]
  exact ⟨[], utf16 "yes".toList, [], by decide⟩

end OracleSkills.Capture
