import OracleSkills.Server.Survives
import OracleSkills.Writer.Reconcile

/-!
# A skill through its edits

`auto_skill.py create` writes a `SKILL.md` once, and `skill_patch` edits it any number of times.
Each edit sets three keys of the frontmatter and lets the others stand; `collect_commit.py` knows
the skill again by two of those.

`Lineage` is the texts that come of one creation. `lineage_readsBack`: if no fence is in the
creation's free text and in the names of the editors, every reader finds in each of them what
`create` has written under every key but the three, and under `content_hash` the hash of the body
that was written last.
-/

namespace OracleSkills.Server

open Python Frontmatter Writer

/-- The texts that come of a creation by patches, with the hash that was stamped last. -/
inductive Lineage (env : Env) (r : Request) : Text → Digest → Prop
  | created : Lineage env r (r.rendered env) (Writer.bodyHash env r.fullBody)
  | patched {penv : PatchEnv} {args : PatchArgs} {t : Text} {hash : Digest} {p : Patched}
      (h : Lineage env r t hash)
      (hp : patch penv args t = .ok p) (hclean : NoFence (flatten (editor penv args))) :
      Lineage env r p.text (penv.bodyHash p.body)

/-! ### Headings of fields -/

/-- The lines of a heading. -/
def fieldsOf (kvs : List (Text × Text)) : List Text := kvs.map fun kv => field kv.1 kv.2

/-- A text with a heading of fields. -/
def blockText (kvs : List (Text × Text)) (rest : Text) : Text :=
  fence ++ '\n' :: (unlines (fieldsOf kvs) ++ (fence ++ '\n' :: rest))

/-- A heading of fields of which the readers make the same, with this hash. -/
structure Fields (kvs : List (Text × Text)) (hash : Digest) : Prop where
  key : ∀ kv ∈ kvs, PlainKey kv.1 ∧ OneLine kv.1 ∧ NoFence kv.1
  value : ∀ kv ∈ kvs, OneLine kv.2 ∧ NoFence kv.2
  hash_mem : "content_hash".toList ∈ kvs.map Prod.fst
  hash_eq : ∀ kv ∈ kvs, kv.1 = "content_hash".toList → kv.2 = hash.text

/-- `_set_fm_key` on fields. -/
def setField (kvs : List (Text × Text)) (key v : Text) : List (Text × Text) :=
  let put := kvs.map fun kv => if isKeyLine key (field kv.1 kv.2) then (key, v) else kv
  if kvs.any fun kv => isKeyLine key (field kv.1 kv.2) then put else put ++ [(key, v)]

/-- The stamps of a patch, on fields. -/
def stampFields (penv : PatchEnv) (kvs : List (Text × Text)) (hash : Digest) (editor : Text) : List
    (Text × Text) :=
  setField (setField (setField kvs "content_hash".toList (fmValue hash.text false))
    "edited_at".toList
    (fmValue penv.now.text false)) "edited_by".toList (fmValue editor true)

variable {env : Env} {a : Args} {r : Request} {t rest key v : Text} {hash hash' : Digest}
  {kvs : List (Text × Text)} {quote : Bool}

theorem setFmKey_fieldsOf (kvs : List (Text × Text)) (key value : Text) (quote : Bool) :
    setFmKey (fieldsOf kvs) key value quote =
        fieldsOf (setField kvs key (fmValue value quote)) := by
  have hmap : (fieldsOf kvs).map
      (fun ln => if isKeyLine key ln then field key (fmValue value quote) else ln) =
      fieldsOf (kvs.map fun kv => if isKeyLine key (field kv.1 kv.2) then
          (key, fmValue value quote) else kv) := by
    simp only [fieldsOf, List.map_map]
    refine List.map_congr_left fun kv _ => ?_
    simp only [Function.comp]
    split_ifs <;> rfl
  have hany : (fieldsOf kvs).any (isKeyLine key) = kvs.any fun kv =>
      isKeyLine key (field kv.1 kv.2) := by
    simp only [fieldsOf, List.any_map, Function.comp_def]
  simp only [setFmKey, setField, hmap, hany]
  split_ifs
  · rfl
  · simp [fieldsOf]

theorem mem_setField {kv : Text × Text} (h : kv ∈ setField kvs key v) :
    kv = (key, v) ∨ kv ∈ kvs ∧ isKeyLine key (field kv.1 kv.2) = false := by
  have hput : kv ∈ (kvs.map fun kv => if isKeyLine key (field kv.1 kv.2) then (key, v) else kv) →
      kv = (key, v) ∨ kv ∈ kvs ∧ isKeyLine key (field kv.1 kv.2) = false := by
    intro hm
    obtain ⟨kv', hkv', rfl⟩ := List.mem_map.mp hm
    split_ifs with hline
    · exact Or.inl rfl
    · exact Or.inr ⟨hkv', by simpa using hline⟩
  simp only [setField] at h
  split_ifs at h
  · exact hput h
  · rw [List.mem_append, List.mem_singleton] at h
    exact h.elim hput Or.inl

theorem keys_setField {k : Text} (hkey : ∀ kv ∈ kvs, PlainKey kv.1) (hplain : PlainKey key)
    (h : k ∈ kvs.map Prod.fst) :
    k ∈ (setField kvs key v).map Prod.fst := by
  obtain ⟨kv, hkv, rfl⟩ := List.mem_map.mp h
  have hput : kv.1 ∈ (kvs.map fun kv => if isKeyLine key (field kv.1 kv.2) then (key, v) else
      kv).map Prod.fst := by
    rw [List.map_map]
    refine List.mem_map.mpr ⟨kv, hkv, ?_⟩
    simp only [Function.comp]
    split_ifs with hline
    · -- a line of the key is a field of the key
      by_contra hne
      rw [isKeyLine_field_of_ne (hkey kv hkv) hplain hne] at hline
      cases hline
    · rfl
  simp only [setField]
  split_ifs
  · exact hput
  · rw [List.map_append]
    exact List.mem_append_left _ hput

theorem key_mem_setField : key ∈ (setField kvs key v).map Prod.fst := by
  simp only [setField]
  split_ifs with hany
  · obtain ⟨kv, hkv, hline⟩ := List.any_eq_true.mp hany
    rw [List.map_map]
    exact List.mem_map.mpr ⟨kv, hkv, by simp [hline]⟩
  · simp

/-! ### What a patch makes of them -/

/-- The line of a hash is one that `_set_fm_key` finds. -/
theorem isKeyLine_hash (d : Digest) :
    isKeyLine "content_hash".toList (field "content_hash".toList d.text) = true := by
  have hne : d.text ≠ [] := by
    intro hnil
    have hlen := d.length_eq
    rw [hnil] at hlen
    cases hlen
  have hstrip : strip (field "content_hash".toList d.text) =
      field "content_hash".toList d.text := by
    refine stripped_of_ends (fun c hc => ?_) fun c hc => ?_
    · have hhead : (field "content_hash".toList d.text).head? = some 'c' := rfl
      rw [hhead, Option.some.injEq] at hc
      exact hc ▸ by decide
    · obtain ⟨t, e, he⟩ : ∃ t e, d.text = t ++ [e] :=
        ⟨_, _, (List.dropLast_concat_getLast hne).symm⟩
      have hlast : field "content_hash".toList d.text =
          ("content_hash".toList ++ ':' :: ' ' :: t) ++ [e] := by
        simp [field, he]
      rw [hlast, List.getLast?_concat, Option.some.injEq] at hc
      exact hc ▸ d.noSpace e (by simp [he])
  rw [isKeyLine, hstrip, decide_eq_true rfl, Bool.true_and, List.isPrefixOf_iff_prefix]
  exact lineOf_field _ _

/-- A patch replaces the hash, -/
theorem Fields.setHash (h : Fields kvs hash) (hash' : Digest) :
    Fields (setField kvs "content_hash".toList hash'.text) hash' where
  key kv hkv := by
    rcases mem_setField hkv with rfl | ⟨hkv, -⟩
    · exact (by decide : PlainKey "content_hash".toList ∧ OneLine "content_hash".toList ∧ NoFence "content_hash".toList)
    · exact h.key kv hkv
  value kv hkv := by
    rcases mem_setField hkv with rfl | ⟨hkv, -⟩
    · exact ⟨oneLine_of_noSpace hash'.noSpace, hash'.noFence⟩
    · exact h.value kv hkv
  hash_mem := key_mem_setField
  hash_eq kv hkv hkey := by
    rcases mem_setField hkv with rfl | ⟨hkv, hline⟩
    · rfl
    · -- every line of the key was found
      obtain ⟨k, v⟩ := kv
      obtain rfl : k = "content_hash".toList := hkey
      obtain rfl : v = hash.text := h.hash_eq _ hkv rfl
      rw [isKeyLine_hash] at hline
      cases hline

/-- and its other stamps leave it. -/
theorem Fields.set (h : Fields kvs hash) (hkey : PlainKey key ∧ OneLine key ∧ NoFence key)
    (hne : key ≠ "content_hash".toList)
    (hv : OneLine v ∧ NoFence v) : Fields (setField kvs key v) hash where
  key kv hkv := by
    rcases mem_setField hkv with rfl | ⟨hkv, -⟩
    · exact hkey
    · exact h.key kv hkv
  value kv hkv := by
    rcases mem_setField hkv with rfl | ⟨hkv, -⟩
    · exact hv
    · exact h.value kv hkv
  hash_mem := keys_setField (fun kv hkv => (h.key kv hkv).1) hkey.1 h.hash_mem
  hash_eq kv hkv hk := by
    rcases mem_setField hkv with rfl | ⟨hkv, -⟩
    · exact absurd hk hne
    · exact h.hash_eq kv hkv hk

theorem restamp_fieldsOf (penv : PatchEnv) (kvs : List (Text × Text)) (hash : Digest)
    (editor : Text) :
    Server.restamp penv (fieldsOf kvs) hash editor =
        fieldsOf (stampFields penv kvs hash editor) := by
  simp only [Server.restamp, setFmKey_fieldsOf, stampFields]

/-- The stamps of a patch, of an editor whose name has no fence. -/
theorem Fields.restamp (h : Fields kvs hash) (penv : PatchEnv) (args : PatchArgs) (hash' : Digest)
    (hclean : NoFence (flatten (editor penv args))) :
    Fields (stampFields penv kvs hash' (editor penv args)) hash' := by
  have hline : OneLine (yamlScalar (editor penv args)) := by
    rw [oneLine_yamlScalar_iff]
    intro c hc
    rcases mem_flatten hc with rfl | ⟨hmem, -⟩
    · decide
    · exact oneLine_editor penv args c hmem
  have hby : fmValue (editor penv args) true = yamlScalar (editor penv args) := if_pos rfl
  rw [stampFields, fmValue_digest, fmValue_of_noSpace penv.now.noSpace, hby]
  refine ((h.setHash hash').set (by decide) (by decide) ?_).set (by decide) (by decide) ?_
  · exact ⟨oneLine_of_noSpace penv.now.noSpace, penv.now.noFence⟩
  · exact ⟨hline, (noFence_yamlScalar_iff _).mpr hclean⟩

/-! ### What the readers make of them -/

theorem Fields.line (h : Fields kvs hash) : ∀ l ∈ fieldsOf kvs, OneLine l ∧ NoFence l := by
  intro l hl
  obtain ⟨kv, hkv, rfl⟩ := List.mem_map.mp hl
  exact ⟨oneLine_field (h.key kv hkv).2.1 (h.value kv hkv).1,
    noFence_field (h.key kv hkv).2.2 (h.value kv hkv).2⟩

theorem Fields.blockLine (h : Fields kvs hash) :
    ∀ l ∈ fieldsOf kvs, OneLine l ∧ strip l ≠ fence := fun l hl =>
  ⟨(h.line l hl).1, fun he => (h.line l hl).2 (he ▸ infix_stripBy isSpace l)⟩

theorem fence_initial_blockText : fence.isPrefixOf (blockText kvs rest) = true :=
  List.isPrefixOf_iff_prefix.mpr (List.prefix_append _ _)

/-- The server cuts the lines of the heading. -/
theorem Fields.rawFrontmatter (h : Fields kvs hash) (rest : Text) :
    Server.rawFrontmatter (blockText kvs rest) = (fieldsOf kvs, bodyOf (splitlines rest)) := by
  rw [Server.rawFrontmatter, if_neg (by simp [fence_initial_blockText]), blockText,
    blockLines_unlines h.blockLine]

/-- The writer and the two tools read it, -/
theorem Fields.readFrontmatter (h : Fields kvs hash) (rest : Text) :
    (Frontmatter.readFrontmatter (blockText kvs rest)).1 = parseLines (fieldsOf kvs) := by
  have hsplit : splitlines (unlines (fieldsOf kvs)) = fieldsOf kvs := by
    simpa [splitlines] using splitlines_unlines_append (fun l hl => (h.line l hl).1) []
  rw [blockText, Frontmatter.readFrontmatter, fenceSplit_unlines fun l hl => (h.line l hl).2]
  simp only
  rw [parseLines_splitlines_newline_cons, hsplit]

/-- and it has no carriage return, so that it is the same after the file has been read as text. -/
theorem Fields.universalNewlines (h : Fields kvs hash) (rest : Text) :
    Python.universalNewlines (blockText kvs rest) =
        blockText kvs (Python.universalNewlines rest) := by
  have hno : '\r' ∉ fence ++ '\n' :: (unlines (fieldsOf kvs) ++ (fence ++ ['\n'])) := by
    have hfence : '\r' ∉ fence := by decide
    have hlines : '\r' ∉ unlines (fieldsOf kvs) := by
      intro hm
      rw [unlines, List.mem_flatten] at hm
      obtain ⟨l', hl', hm⟩ := hm
      obtain ⟨l, hl, rfl⟩ := List.mem_map.mp hl'
      rw [List.mem_append, List.mem_singleton] at hm
      rcases hm with hm | hm
      · exact absurd ((h.line l hl).1 _ hm) (by decide)
      · exact absurd hm (by decide)
    simp [hfence, hlines]
  have hcut : ∀ rest, blockText kvs rest =
      (fence ++ '\n' :: (unlines (fieldsOf kvs) ++ (fence ++ ['\n']))) ++ rest := fun rest => by
    simp [blockText]
  rw [hcut, universalNewlines_append hno, hcut]

/-- What stands under a key whose fields are all alike. -/
theorem get?_foldl_fieldsOf {k w : Text} (hplain : ∀ kv ∈ kvs, PlainKey kv.1)
    (heq : ∀ kv ∈ kvs, kv.1 = k → unquote (strip kv.2) = w) (fm : Dict Text Text) :
    ((fieldsOf kvs).foldl readLine fm).get? k = if k ∈ kvs.map Prod.fst then some w else
        fm.get? k := by
  induction kvs generalizing fm with
  | nil => rfl
  | cons kv kvs ih =>
    obtain ⟨hkv, hplain⟩ := List.forall_mem_cons.mp hplain
    obtain ⟨hw, heq⟩ := List.forall_mem_cons.mp heq
    rw [fieldsOf, List.map_cons, List.foldl_cons, readLine_field hkv]
    refine (ih hplain heq _).trans ?_
    rw [List.map_cons, Dict.get?_set]
    by_cases hk : k = kv.1
    · simp [hk, hw hk.symm]
    · have hiff : k ∈ kvs.map Prod.fst ↔ k ∈ kv.1 :: kvs.map Prod.fst := by simp [hk]
      rw [if_neg hk]
      exact if_congr hiff rfl rfl

/-- The hash is read as it was stamped. -/
theorem Fields.get?_hash (h : Fields kvs hash) :
    (parseLines (fieldsOf kvs)).get? "content_hash".toList = some hash.text := by
  have heq : ∀ kv ∈ kvs, kv.1 = "content_hash".toList →
      unquote (strip kv.2) = hash.text := fun kv hkv hk => by
    rw [h.hash_eq kv hkv hk, stripped_of_noSpace hash.noSpace, hash.unquote_eq]
  exact (get?_foldl_fieldsOf (fun kv hkv => (h.key kv hkv).1) heq []).trans (if_pos h.hash_mem)

/-! ### Every text of a lineage -/

/-- A text of a lineage has a heading of fields, with the last hash, and what `create` has written
under the other keys. -/
structure Heads (env : Env) (r : Request) (t : Text) (hash : Digest) (kvs : List (Text × Text))
    (rest : Text) : Prop where
  text : t = blockText kvs rest
  fields : Fields kvs hash
  others : others (parseLines (fieldsOf kvs)) = others (r.fm env)

/-- The text that `create` writes, -/
theorem heads_created (hacc : Writer.Accepted env a r) (hc : Clean r) :
    Heads env r (r.rendered env) (Writer.bodyHash env r.fullBody) (r.header env)
        (rstrip r.fullBody ++ ['\n']) where
  text := r.rendered_eq env
  fields := {
    key := fun kv hkv =>
      ⟨headerKeys_plain _ (header_key_mem hkv), headerKeys_line _ (header_key_mem hkv)⟩
    value := fun kv hkv =>
      ⟨hacc.header_line hc.source_line kv hkv,
        hacc.header_fence hc.desc_fence hc.source_fence kv hkv⟩
    hash_mem := by
      rw [header_keys]
      decide
    hash_eq := fun kv hkv => by
      revert kv
      simp [Request.header, header] }
  others := congrArg others hacc.parseLines_lines

/-- and what a patch makes of a text. -/
theorem Heads.patched {penv : PatchEnv} {args : PatchArgs} {p : Patched}
    (h : Heads env r t hash kvs rest)
    (hp : patch penv args t = .ok p) (hclean : NoFence (flatten (editor penv args))) :
    Heads env r p.text (penv.bodyHash p.body)
      (stampFields penv kvs (penv.bodyHash p.body) (editor penv args))
      (terminated p.body) := by
  obtain ⟨old, new, hs⟩ := succeeds_of_patch hp
  have hraw : (Server.rawFrontmatter t).1 = fieldsOf kvs := by rw [h.text, h.fields.rawFrontmatter]
  have hlines :
      p.lines = Server.restamp penv (fieldsOf kvs) (penv.bodyHash p.body) (editor penv args) := by
    rw [← hraw, hs.eq]
    rfl
  have heq := restamp_fieldsOf penv kvs (penv.bodyHash p.body) (editor penv args)
  refine ⟨?_, h.fields.restamp penv args _ hclean, ?_⟩
  · rw [hs.text_eq, patchText_eq (List.ne_nil_of_mem hs.stamped.1), hlines, heq]
    rfl
  · rw [← heq]
    exact (onlyRestamped_restamp penv (fieldsOf kvs) _ _).others_foldl.trans h.others

theorem Lineage.heads (hacc : Writer.Accepted env a r) (hc : Clean r) (h : Lineage env r t hash) :
    ∃ kvs rest, Heads env r t hash kvs rest := by
  induction h with
  | created => exact ⟨_, _, heads_created hacc hc⟩
  | patched _ hp hclean ih =>
    obtain ⟨kvs, rest, hheads⟩ := ih
    exact ⟨_, _, hheads.patched hp hclean⟩

/-- A reader finds what `create` has written under every key but the stamps, and the last hash. -/
structure Keeps (env : Env) (r : Request) (hash : Digest) (fm : Dict Text Text) : Prop where
  others : others fm = others (r.fm env)
  hash : fm.get? "content_hash".toList = some hash.text

theorem Heads.keeps (h : Heads env r t hash kvs rest) :
    Keeps env r hash (parseLines (fieldsOf kvs)) :=
  ⟨h.others, h.fields.get?_hash⟩

/-- The tools read the file as text. -/
theorem Lineage.keeps (hacc : Writer.Accepted env a r) (hc : Clean r) (h : Lineage env r t hash) :
    Keeps env r hash (readFrontmatter (universalNewlines t)).1 := by
  obtain ⟨kvs, rest, hheads⟩ := h.heads hacc hc
  rw [hheads.text, hheads.fields.universalNewlines, hheads.fields.readFrontmatter]
  exact hheads.keeps

/-- **Reading back after any number of patches**: all four readers find what `create` has written,
but for the stamps, and the hash of the body that was written last. -/
theorem lineage_readsBack (hp : prepare env a = .ok r) (hc : Clean r) (h : Lineage env r t hash) :
    Keeps env r hash (readFrontmatter (universalNewlines t)).1 ∧
      Keeps env r hash (collectFm (universalNewlines t)) ∧
      Keeps env r hash (syncFm (universalNewlines t)) ∧ ∃ fm, flatRead t = ofFlat fm ∧
          Keeps env r hash fm := by
  have hkeeps := h.keeps (accepted_of_prepare hp) hc
  refine ⟨hkeeps, collectFm_eq _ ▸ hkeeps, syncFm_eq _ ▸ hkeeps, ?_⟩
  obtain ⟨kvs, rest, hheads⟩ := h.heads (accepted_of_prepare hp) hc
  refine ⟨parseLines (fieldsOf kvs), ?_, hheads.keeps⟩
  rw [flatRead_eq, hheads.text, hheads.fields.rawFrontmatter]
  rfl

/-- One patch of a new skill. -/
theorem lineage_readsBack_sample :
    Keeps sampleEnv (sampleRequest "Deploy x: steps".toList) digestB
        (readFrontmatter (universalNewlines
        (edited (patchEnv fun _ => digestB) (patchArgs ['b'] ['c']) ['b'] ['c']
          ((sampleRequest "Deploy x: steps".toList).rendered sampleEnv)).text)).1 := by
  have hclean : Clean (sampleRequest "Deploy x: steps".toList) := ⟨by decide, by decide, by decide⟩
  have hpatch : patch (patchEnv fun _ => digestB) (patchArgs ['b'] ['c'])
      ((sampleRequest "Deploy x: steps".toList).rendered sampleEnv) =
        .ok (edited (patchEnv fun _ => digestB)
        (patchArgs ['b'] ['c']) ['b'] ['c']
            ((sampleRequest "Deploy x: steps".toList).rendered sampleEnv)) :=
    patch_of_noYaml rfl (check_patchArgs (by decide) (by decide)) (by decide +kernel)
      (by decide +kernel)
  have hprepare : prepare sampleEnv
      { name := "deploy-x".toList, desc := "Deploy x: steps".toList, body := "b".toList,
        source := "bob".toList } =
      .ok (sampleRequest "Deploy x: steps".toList) := rfl
  exact (lineage_readsBack hprepare hclean (.patched .created hpatch (by decide +kernel))).1

end OracleSkills.Server
