import OracleSkills.Server.PatchTool

/-!
# What a patch does to the frontmatter

`skill_patch` sets three keys, `stampKeys`. However its arguments are chosen, the frontmatter lines
of the new file, as the server cuts them, are the old ones with lines of these keys replaced and at
most three such lines behind them (`OnlyRestamped`); and what the flat fallback reads under any
other key is what it read before, in the same order. Both together are `stampsOnly`.
-/

namespace OracleSkills.Server

open Python Frontmatter Writer

/-! ### What is compared -/

/-- The keys that `skill_patch` sets. -/
def stampKeys : List Text := ["content_hash".toList, "edited_at".toList, "edited_by".toList]

/-- The items under other keys. -/
def others {β : Type*} (fm : Dict Text β) : Dict Text β :=
  fm.filter fun kv => !stampKeys.contains kv.1

/-- What the flat fallback reads in a file. -/
def flatRead (text : Text) : Dict Text Value :=
  match splitFrontmatterEx none text with
  | .ok (fm, _, _) => fm
  | .error _ => []

/-- An unindented line of that key. -/
def LineOf (key l : Text) : Prop := key ++ [':'] <+: l

/-- The line is the same, or both are lines of one of the three keys. -/
def Restamped (l l' : Text) : Prop := l' = l ∨ ∃ key ∈ stampKeys, LineOf key l ∧ LineOf key l'

/-- The lines are the old ones, some of them replaced, and at most `n` new ones. -/
def OnlyRestamped (n : ℕ) (lines lines' : List Text) : Prop :=
  ∃ kept added, lines' = kept ++ added ∧ List.Forall₂ Restamped lines kept ∧ added.length ≤ n ∧
    ∀ l ∈ added, ∃ key ∈ stampKeys, LineOf key l

/-- A file is patched in nothing but its body and its stamps. -/
structure StampsOnly (original text : Text) : Prop where
  pairs : others (flatRead text) = others (flatRead original)
  lines : OnlyRestamped 3 (rawFrontmatter original).1 (rawFrontmatter text).1

/-! ### The lines -/

variable {lines lines' : List Text} {key key' l l' value : Text} {quote : Bool} {n : ℕ}

theorem noColon_stampKeys (h : key ∈ stampKeys) : ':' ∉ key := by
  revert key
  decide

/-- A line is a line of one key at most. -/
theorem LineOf.unique (h : LineOf key l) (h' : LineOf key' l) (hk : ':' ∉ key) (hk' : ':' ∉ key') :
    key = key' := by
  obtain ⟨x, rfl⟩ := h
  obtain ⟨y, hy⟩ := h'
  rw [List.append_assoc, List.append_assoc, List.singleton_append, List.singleton_append] at hy
  have hcut := cut_singleton (y := y) hk'
  rw [hy, cut_singleton hk, Option.some.injEq, Prod.mk.injEq] at hcut
  exact hcut.1

theorem lineOf_field (key v : Text) : LineOf key (field key v) := ⟨' ' :: v, by simp [field]⟩

theorem lineOf_of_isKeyLine (h : isKeyLine key l = true) : LineOf key l := by
  rw [isKeyLine, Bool.and_eq_true, decide_eq_true_eq, List.isPrefixOf_iff_prefix] at h
  rw [LineOf, ← h.1]
  exact h.2

/-- The line that `_set_fm_key` puts for a line. -/
def setLine (key value : Text) (quote : Bool) (l : Text) : Text :=
  if isKeyLine key l then field key (fmValue value quote) else l

theorem setFmKey_eq (lines : List Text) (key value : Text) (quote : Bool) :
    ∃ added, setFmKey lines key value quote = lines.map (setLine key value quote) ++ added ∧
      added.length ≤ 1 ∧
      ∀ l ∈ added, LineOf key l := by
  have hmap : (lines.map fun ln => if isKeyLine key ln then
      field key (fmValue value quote) else ln) =
      lines.map (setLine key value quote) := rfl
  simp only [setFmKey, hmap]
  split_ifs
  · exact ⟨[], (List.append_nil _).symm, Nat.zero_le 1, fun l hl => absurd hl List.not_mem_nil⟩
  · refine ⟨_, rfl, Nat.le_refl 1, fun l hl => ?_⟩
    rw [List.mem_singleton.mp hl]
    exact lineOf_field key _

/-- Setting a stamp keeps a line of a stamp one. -/
theorem LineOf.setLine (hkey : key ∈ stampKeys) (h : LineOf key' l) (hk' : key' ∈ stampKeys) :
    LineOf key' (setLine key value quote l) := by
  unfold Server.setLine
  split_ifs with hline
  · rw [← (lineOf_of_isKeyLine hline).unique h (noColon_stampKeys hkey) (noColon_stampKeys hk')]
    exact lineOf_field key _
  · exact h

theorem Restamped.setLine (hkey : key ∈ stampKeys) (h : Restamped l l') :
    Restamped l (setLine key value quote l') := by
  rcases h with rfl | ⟨key', hk', hl, hl'⟩
  · unfold Server.setLine
    split_ifs with hline
    · exact Or.inr ⟨key, hkey, lineOf_of_isKeyLine hline, lineOf_field key _⟩
    · exact Or.inl rfl
  · exact Or.inr ⟨key', hk', hl, hl'.setLine hkey hk'⟩

/-- **Setting a stamp** replaces lines of its key, or adds one. -/
theorem OnlyRestamped.setFmKey (h : OnlyRestamped n lines lines') (hkey : key ∈ stampKeys) :
    OnlyRestamped (n + 1) lines (setFmKey lines' key value quote) := by
  obtain ⟨kept, added, rfl, hkept, hn, hadded⟩ := h
  obtain ⟨more, heq, hmore, hlines⟩ := setFmKey_eq (kept ++ added) key value quote
  refine ⟨kept.map (Server.setLine key value quote),
    added.map (Server.setLine key value quote) ++ more, ?_, ?_, ?_, ?_⟩
  · rw [heq, List.map_append, List.append_assoc]
  · rw [List.forall₂_map_right_iff]
    exact hkept.imp fun _ _ h => h.setLine hkey
  · rw [List.length_append, List.length_map]
    omega
  · intro l hl
    rcases List.mem_append.mp hl with hl | hl
    · obtain ⟨m, hm, rfl⟩ := List.mem_map.mp hl
      obtain ⟨key', hk', hline⟩ := hadded m hm
      exact ⟨key', hk', hline.setLine hkey hk'⟩
    · exact ⟨key, hkey, hlines l hl⟩

theorem onlyRestamped_restamp (env : PatchEnv) (lines : List Text) (hash : Digest) (source : Text) :
    OnlyRestamped 3 lines (restamp env lines hash source) := by
  have hnone : OnlyRestamped 0 lines lines :=
    ⟨lines, [], (List.append_nil _).symm, List.forall₂_same.mpr fun _ _ => Or.inl rfl,
      Nat.le_refl 0, fun l hl => absurd hl List.not_mem_nil⟩
  exact ((hnone.setFmKey (by decide)).setFmKey (by decide)).setFmKey (by decide)

/-! ### The pairs -/

theorem others_set {β : Type*} (fm : Dict Text β) (k : Text) (v : β) :
    others (fm.set k v) = if k ∈ stampKeys then others fm else (others fm).set k v := by
  rw [others, Dict.filter_set fun k => !stampKeys.contains k]
  by_cases hk : k ∈ stampKeys <;> simp [hk, others]

/-- A line of a stamp sets no other key, -/
theorem others_fallbackLine_lineOf (hkey : key ∈ stampKeys) (h : LineOf key l)
    (fm : Dict Text Text) :
    others (fallbackLine fm l) = others fm := by
  obtain ⟨x, rfl⟩ := h
  have hcut : cut [':'] (key ++ [':'] ++ x) = some (key, x) := by
    rw [List.append_assoc, List.singleton_append, cut_singleton (noColon_stampKeys hkey)]
  have hstrip : strip key = key := by
    clear hcut
    revert key
    decide
  rw [fallbackLine, hcut]
  split_ifs
  · rfl
  · simp only [hstrip, others_set, if_pos hkey]

/-- and what a line does to the other keys depends on nothing but them. -/
theorem others_fallbackLine_congr {fm fm' : Dict Text Text} (h : others fm = others fm')
    (l : Text) :
    others (fallbackLine fm l) = others (fallbackLine fm' l) := by
  rw [fallbackLine, fallbackLine]
  split_ifs
  · exact h
  · cases cut [':'] l with
    | none => exact h
    | some kv =>
      obtain ⟨k, v⟩ := kv
      simp only [others_set, h]

theorem others_foldl_restamped (h : List.Forall₂ Restamped lines lines') :
    ∀ {fm fm' : Dict Text Text}, others fm = others fm' →
    others (lines'.foldl fallbackLine fm) = others (lines.foldl fallbackLine fm') := by
  induction h with
  | nil => exact fun h => h
  | cons hl _ ih =>
    intro fm fm' hfm
    refine ih ?_
    rcases hl with rfl | ⟨key, hkey, hl, hl'⟩
    · exact others_fallbackLine_congr hfm _
    · rw [others_fallbackLine_lineOf hkey hl, others_fallbackLine_lineOf hkey hl', hfm]

theorem others_foldl_stamps (h : ∀ l ∈ lines, ∃ key ∈ stampKeys, LineOf key l)
    (fm : Dict Text Text) :
    others (lines.foldl fallbackLine fm) = others fm := by
  induction lines generalizing fm with
  | nil => rfl
  | cons l lines ih =>
    obtain ⟨key, hkey, hl⟩ := h l (List.mem_cons_self ..)
    rw [List.foldl_cons, ih (fun m hm => h m (List.mem_cons_of_mem _ hm)),
      others_fallbackLine_lineOf hkey hl]

/-- **The other pairs stay**, in their order. -/
theorem OnlyRestamped.others_foldl (h : OnlyRestamped n lines lines') :
    others (lines'.foldl fallbackLine []) = others (lines.foldl fallbackLine []) := by
  obtain ⟨kept, added, rfl, hkept, -, hadded⟩ := h
  rw [List.foldl_append, others_foldl_stamps hadded, others_foldl_restamped hkept rfl]

/-- The fallback goes through the frontmatter lines, whether there is a block or not. -/
theorem flatRead_eq (text : Text) :
    flatRead text = ofFlat ((rawFrontmatter text).1.foldl fallbackLine []) := by
  have hlines := blockLine_rawFrontmatter text
  rw [rawFrontmatter] at hlines ⊢
  rw [flatRead, splitFrontmatterEx]
  split_ifs at hlines ⊢
  · cases hb : blockLines text with
    | none => rfl
    | some ab =>
      rw [hb] at hlines
      exact congrArg ofFlat (flatFallback_join fun l hl => (hlines l hl).1)
  · rfl

theorem others_ofFlat (fm : Dict Text Text) : others (ofFlat fm) = ofFlat (others fm) := by
  rw [others, others, ofFlat, ofFlat, List.filter_map]
  rfl

/-! ### The patch -/

/-- A patch that succeeds changes nothing in the frontmatter but the stamps. -/
theorem Accepted.stampsOnly {env : PatchEnv} {args : PatchArgs} {file : Option (ℕ × Text)}
    {r : Patched}
    {old new original : Text} (h : Accepted env args file r old new original) :
    StampsOnly original r.text := by
  have hlines : OnlyRestamped 3 (rawFrontmatter original).1 (rawFrontmatter r.text).1 := by
    rw [h.succeeds.read_lines, h.eq]
    exact onlyRestamped_restamp ..
  refine ⟨?_, hlines⟩
  rw [flatRead_eq, flatRead_eq, others_ofFlat, others_ofFlat, hlines.others_foldl]

/-- **A patch cannot touch other frontmatter**: after a call that succeeds, whatever its arguments
are, the lines of the new file are the old ones but for the stamps, and the flat fallback reads the
same under every other key. -/
theorem patch_stampsOnly {W W' : World} {env : PatchEnv} {written : Option Write}
    {cache cache' : Cache} {args : PatchArgs}
    {reply : PatchReply} (h : toolSkillPatch W env written cache args = (.ok reply, W', cache')) :
    ∃ dir size original text, (skillPatchDir W cache args).1 = .ok dir ∧
      W.file (skillMd dir) = some (size, original) ∧
      W'.file (skillMd dir) = some (utf8Length text, text) ∧ StampsOnly original text := by
  obtain ⟨dir, x, r, old, new, original, hdir, -, hacc, -, hfile, -⟩ := toolSkillPatch_patches h
  obtain ⟨size, hread, -⟩ := hacc.read
  exact ⟨dir, size, original, r.text, congrArg Prod.fst hdir, hread, hfile, hacc.stampsOnly⟩

/-- A body of one character. -/
theorem patch_stampsOnly_sample :
    ∃ dir size original text,
      (skillPatchDir (oneSkill 17 bodyA) (oneSkillCache 17) (patchArgs ['a'] "b".toList)).1 =
        .ok dir ∧
      (oneSkill 17 bodyA).file (skillMd dir) = some (size, original) ∧
      ((oneSkill 17 bodyA).write (skillMd rewrittenSkill.dir)
        (edited (patchEnv fun _ => digestB) (patchArgs ['a'] "b".toList) ['a'] "b".toList
          bodyA).text ⟨1, []⟩).file
        (skillMd dir) = some (utf8Length text, text) ∧ StampsOnly original text :=
  patch_stampsOnly (toolSkillPatch_oneSkill _ (by decide) (by decide) (by decide) (by decide))

end OracleSkills.Server
