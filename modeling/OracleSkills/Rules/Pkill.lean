import OracleSkills.Python.Text
import OracleSkills.Regex.Backtrack

/-!
# The pkill guard

`bash_guard.py` denies a command that `pkill -f <pattern>` is part of: the shell that runs it "has
the whole command line in its own /proc cmdline, so the pattern matches the caller". With the
bracket trick, as in `[n]ode src/index.js`, the pattern "cannot match itself", and the command
passes.

The expression that finds the pattern has alternatives for one in quotes, after one for a word.
Since the word is tried first, and a quote is part of a word, a pattern in quotes is looked at up to
its first blank, and only the first `pkill` is looked at at all. `pkill_judged_iff` says which
commands are judged as they should be.
-/

namespace OracleSkills.Rules.Pkill

open Python Regex

/-! ### The guard -/

/-- An ASCII letter or digit, or the underscore. -/
def isAsciiWord (c : Char) : Bool :=
  48 ≤ c.toNat && c.toNat ≤ 57 || 65 ≤ c.toNat && c.toNat ≤ 90 || c.toNat = 95 || 97 ≤ c.toNat &&
    c.toNat ≤ 122

/-- `\w`. -/
structure WordClass where
  isWord : Char → Bool
  ascii : ∀ c : Char, c.toNat < 128 → isWord c = isAsciiWord c
  space : ∀ c, isSpace c = true → isWord c = false

/-- `\S`. -/
def notSpace (c : Char) : Bool := !isSpace c

/-- `--screenshot[= ]\"?'?(/tmp/\S*)`. -/
def shotTmp : Grouped Char where
  head := .seq (.lit "--screenshot".toList) (.seq (.one fun c => decide (c = '=' ∨ c = ' '))
    (.seq (.opt (.lit ['"'])) (.opt (.lit ['\'']))))
  group := .seq (.lit "/tmp/".toList) (.star (.one notSpace))
  tail := .eps

/-- `-\w+\s+`. -/
def clusterRe (W : WordClass) : Re Char :=
  .seq (.lit ['-']) (.seq (.plus (.one W.isWord)) (.plus (.one isSpace)))

/-- `-\w*f\w*\s+`. -/
def fClusterRe (W : WordClass) : Re Char :=
  .seq (.lit ['-'])
    (.seq (.star (.one W.isWord))
    (.seq (.lit ['f']) (.seq (.star (.one W.isWord)) (.plus (.one isSpace)))))

/-- `q[^q]*q`. -/
def quotedRe (q : Char) : Re Char :=
  .seq (.lit [q]) (.seq (.star (.one fun c => decide (c ≠ q))) (.lit [q]))

/-- `\bpkill\s+(?:-\w+\s+)*-\w*f\w*\s+(\S+|\"[^\"]*\"|'[^']*')`. -/
def pkillF (W : WordClass) : Grouped Char where
  head := .seq (.boundary W.isWord) (.seq (.lit "pkill".toList)
    (.seq (.plus (.one isSpace)) (.seq (.star (clusterRe W)) (fClusterRe W))))
  group := .alt (.plus (.one notSpace)) (.alt (quotedRe '"') (quotedRe '\''))
  tail := .eps

/-- The reason for a screenshot. -/
def shotReason (path : Text) : Text :=
  "chromium บนเครื่องนี้เป็น snap ซึ่งมี /tmp ส่วนตัวของตัวเอง ⇒ `--screenshot=".toList ++ path ++
    ("` จะไม่เขียนไฟล์อะไรเลย (ได้แค่ `Failed to write file … (2)` แล้วเดินต่อเหมือนสำเร็จ) · " ++
      "เขียนลงในโปรเจกต์แทน (โฟลเดอร์ซ่อนที่ซ้อนอยู่ข้างในเช่น `<proj>/.orches-shots/` ใช้ได้ " ++
      "แต่ `~/.something` ชั้นบนสุดโดน Permission denied) · ทางที่ดีกว่า: เรียก verb " ++
      "`render-check` ของ engine ซึ่งจัดการเรื่องนี้ให้แล้วและ assert ว่าไฟล์เกิดจริง").toList

/-- The reason for a pattern. -/
def pkillReason (pattern : Text) : Text :=
  "`pkill -f ".toList ++ pattern ++
    ("` จะ match **เชลล์ที่รันคำสั่งนี้เอง** ด้วย (command line ของมันมีสตริงนั้นอยู่) " ++
      "⇒ ฆ่าคำสั่งตัวเอง (เคยได้ exit 144 จริง) แล้วเซิร์ฟเวอร์อาจยังรอด · แก้: ใส่วงเล็บให้ pattern " ++
      "match ตัวเองไม่ได้ เช่น `[n]ode src/index.js` · ถ้าเป็น preview ที่เปิดด้วย " ++
      "`.orches-preview.sh` ให้รันสคริปต์นั้นซ้ำ มันปิดให้ทั้ง process group").toList

/-- `verdict`: "None = allow. str = the reason this command cannot work, plus what to do
instead." -/
def verdict (W : WordClass) (command : Text) : Option Text :=
  match shotTmp.search command with
  | some path => some (shotReason path)
  | none =>
    match (pkillF W).search command with
    | some pattern => if '[' ∉ pattern then some (pkillReason pattern) else none
    | none => none

/-! ### Occurrences -/

/-- A cluster of short options, and the blanks after it. -/
structure Cluster (W : WordClass) where
  word : Text
  blanks : Text
  word_ne : word ≠ []
  isWord : ∀ c ∈ word, W.isWord c = true
  blanks_ne : blanks ≠ []
  isSpace : ∀ c ∈ blanks, isSpace c = true

def Cluster.text {W : WordClass} (c : Cluster W) : Text := '-' :: c.word ++ c.blanks

/-- The text begins with something that is not blank. -/
def Begins (t : Text) : Prop := ∃ c u, t = c :: u ∧ isSpace c = false

/-- Clusters, of which the last one has an `f`, and then what is no blank. -/
def Clusters (W : WordClass) (t rest : Text) : Prop :=
  ∃ (cs : List (Cluster W)) (c : Cluster W), t = cs.flatMap Cluster.text ++ c.text ++ rest ∧
    'f' ∈ c.word ∧ Begins rest

/-- `pkill` after `before` as a word of its own, with as many clusters as there are up to one with
an `f`, and then `rest`. -/
structure Occurs (W : WordClass) (command before rest : Text) : Prop where
  layout : ∃ blanks t, command = before ++ "pkill".toList ++ blanks ++ t ∧ blanks ≠ [] ∧
    (∀ c ∈ blanks, isSpace c = true) ∧
    Clusters W t rest ∧ ∀ rest', ¬ Clusters W rest rest'
  word : ∀ c, before.getLast? = some c → W.isWord c = false

/-- The word a text begins with. -/
def bareWord (t : Text) : Text := t.takeWhile notSpace

/-- The text in quotes that a text begins with, if it does. -/
def quoted (q : Char) : Text → Option Text
  | [] => none
  | c :: t => if c = q ∧ q ∈ t then some (q :: t.takeWhile (fun d => decide (d ≠ q)) ++
    [q]) else none

/-- The whole pattern: "a whole double- or single-quoted string, or else a bare word". -/
def wholePattern (rest : Text) : Text :=
  ((quoted '"' rest).or (quoted '\'' rest)).getD (bareWord rest)

/-- What is claimed of a command without a screenshot. -/
structure Judged (W : WordClass) (command : Text) : Prop where
  judged : (verdict W command).isSome = true ↔ ∃ before rest, Occurs W command before rest ∧
    '[' ∉ wholePattern rest

/-- The first occurrence. -/
def First (W : WordClass) (command rest : Text) : Prop :=
  ∃ before, Occurs W command before rest ∧ ∀ before' rest', Occurs W command before' rest' →
    before.length ≤ before'.length

/-- The first word of the first pattern has no bracket exactly if there is a pattern that has
none. -/
def FirstDecides (W : WordClass) (command : Text) : Prop :=
  (∃ rest, First W command rest ∧ '[' ∉ bareWord rest) ↔
    ∃ before rest, Occurs W command before rest ∧ '[' ∉ wholePattern rest

/-! ### Clusters -/

section Clusters

variable {W : WordClass} {t r rest rest' w : Text}

theorem Cluster.text_append (c : Cluster W) (rest : Text) :
    c.text ++ rest = '-' :: (c.word ++ (c.blanks ++ rest)) := by
  rw [Cluster.text, List.cons_append, List.cons_append, List.append_assoc]

/-- The first cluster, and what is after it. -/
def nextCluster (W : WordClass) : Text → Option (Text × Text)
  | [] => none
  | c :: u =>
    if c = '-' ∧ u.head?.any W.isWord = true ∧ (u.dropWhile W.isWord).head?.any isSpace = true then
      some (u.takeWhile W.isWord, (u.dropWhile W.isWord).dropWhile isSpace)
    else none

/-- Where a run ends, nothing more is taken. -/
theorem run_append {p : Char → Bool} {x y : Text} (hx : ∀ c ∈ x, p c = true)
    (hy : ∀ c, y.head? = some c → p c = false) :
    (x ++ y).takeWhile p = x ∧ (x ++ y).dropWhile p = y := by
  rw [List.takeWhile_append_of_pos hx, List.dropWhile_append_of_pos hx]
  cases y with
  | nil => exact ⟨List.append_nil x, rfl⟩
  | cons c y =>
    have hc : ¬ p c = true := by simp [hy c rfl]
    rw [List.takeWhile_cons_of_neg hc, List.dropWhile_cons_of_neg hc]
    exact ⟨List.append_nil x, rfl⟩

theorem head?_any_append {p : Char → Bool} {x : Text} (hne : x ≠ []) (hx : ∀ c ∈ x, p c = true)
    (y : Text) :
    (x ++ y).head?.any p = true := by
  obtain ⟨c, x, rfl⟩ := List.exists_cons_of_ne_nil hne
  exact hx c (List.mem_cons_self ..)

theorem nextCluster_text (c : Cluster W) (h : ∀ d, rest.head? = some d → isSpace d = false) :
    nextCluster W (c.text ++ rest) = some (c.word, rest) := by
  have hblanks : ∀ d, (c.blanks ++ rest).head? = some d → W.isWord d = false := by
    intro d hd
    obtain ⟨e, blanks, hblanks⟩ := List.exists_cons_of_ne_nil c.blanks_ne
    rw [hblanks, List.cons_append, List.head?_cons, Option.some.injEq] at hd
    exact hd ▸ W.space e (c.isSpace e (hblanks ▸ List.mem_cons_self ..))
  obtain ⟨hword, hrest⟩ := run_append c.isWord hblanks
  obtain ⟨-, hend⟩ := run_append c.isSpace h
  rw [c.text_append, nextCluster, hword, hrest, hend,
    if_pos ⟨rfl, head?_any_append c.word_ne c.isWord _, head?_any_append c.blanks_ne c.isSpace _⟩]

theorem takeWhile_ne_nil {p : Char → Bool} (h : t.head?.any p = true) : t.takeWhile p ≠ [] := by
  cases t with
  | nil => cases h
  | cons c t =>
    have hc : p c = true := h
    rw [List.takeWhile_cons_of_pos hc]
    exact List.cons_ne_nil _ _

/-- A cluster is cut off as it is written. -/
theorem nextCluster_eq_some (h : nextCluster W t = some (w, r)) :
    ∃ c : Cluster W, c.word = w ∧ t = c.text ++ r ∧
    ∀ d, r.head? = some d → isSpace d = false := by
  cases t with
  | nil => cases h
  | cons c u =>
    rw [nextCluster] at h
    split_ifs at h with hcluster
    obtain ⟨rfl, hword, hblanks⟩ := hcluster
    cases h
    refine ⟨⟨u.takeWhile W.isWord, (u.dropWhile W.isWord).takeWhile isSpace, takeWhile_ne_nil hword,
      fun _ => List.mem_takeWhile_imp,
      takeWhile_ne_nil hblanks, fun _ => List.mem_takeWhile_imp⟩, rfl, ?_, fun d hd => ?_⟩
    · rw [Cluster.text_append, List.takeWhile_append_dropWhile, List.takeWhile_append_dropWhile]
    · simpa [hd] using List.head?_dropWhile_not isSpace (u.dropWhile W.isWord)

/-- Where a cluster follows, there is a dash. -/
theorem head?_clusters (cs : List (Cluster W)) (c : Cluster W) (rest : Text) :
    (cs.flatMap Cluster.text ++ c.text ++ rest).head? = some '-' := by
  cases cs <;> rfl

theorem Clusters.trans (h : Clusters W t rest) (h' : Clusters W rest rest') :
    Clusters W t rest' := by
  obtain ⟨cs, c, rfl, -, -⟩ := h
  obtain ⟨cs', c', rfl, hf, hbegins⟩ := h'
  refine ⟨cs ++ c :: cs', c', ?_, hf, hbegins⟩
  simp only [List.flatMap_append, List.flatMap_cons, List.append_assoc]

theorem Clusters.length_lt (h : Clusters W t rest) : rest.length < t.length := by
  obtain ⟨cs, c, rfl, -, -⟩ := h
  simp only [Cluster.text, List.length_append, List.length_cons]
  omega

/-- Clusters can be taken as far as they go. -/
theorem Clusters.exists_last (h : Clusters W t rest) :
    ∃ last, Clusters W t last ∧ ∀ rest', ¬ Clusters W last rest' := by
  induction hn : rest.length using Nat.strongRecOn generalizing rest with
  | ind n ih =>
    subst hn
    by_cases hmore : ∃ rest', Clusters W rest rest'
    · obtain ⟨rest', h'⟩ := hmore
      exact ih _ h'.length_lt (h.trans h') rfl
    · exact ⟨rest, h, not_exists.mp hmore⟩

/-- **Clusters**, one after another. -/
theorem clusters_iff : Clusters W t rest ↔
    ∃ w r, nextCluster W t = some (w, r) ∧ (Clusters W r rest ∨ 'f' ∈ w ∧ Begins r ∧ rest = r) := by
  have hbegins : ∀ {u : Text}, Begins u → ∀ d, u.head? = some d → isSpace d = false := by
    rintro _ ⟨c, u, rfl, hc⟩ d hd
    exact Option.some.inj hd ▸ hc
  constructor
  · rintro ⟨cs, c, rfl, hf, hrest⟩
    cases cs with
    | nil => exact ⟨c.word, rest, nextCluster_text c (hbegins hrest), Or.inr ⟨hf, hrest, rfl⟩⟩
    | cons c' cs =>
      refine ⟨c'.word, cs.flatMap Cluster.text ++ c.text ++ rest, ?_,
        Or.inl ⟨cs, c, rfl, hf, hrest⟩⟩
      rw [List.flatMap_cons, List.append_assoc, List.append_assoc,
        ← List.append_assoc (cs.flatMap _)]
      refine nextCluster_text c' fun d hd => ?_
      rw [head?_clusters] at hd
      exact Option.some.inj hd ▸ rfl
  · rintro ⟨w, r, hnext, hclusters⟩
    obtain ⟨c, rfl, rfl, -⟩ := nextCluster_eq_some hnext
    obtain ⟨cs, c', rfl, hf, hrest⟩ | ⟨hf, hrest, rfl⟩ := hclusters
    · exact ⟨c :: cs, c', by simp only [List.flatMap_cons, List.append_assoc], hf, hrest⟩
    · exact ⟨[], c, rfl, hf, hrest⟩

theorem clusters_iff_of_next (hnext : nextCluster W t = some (w, r)) :
    Clusters W t rest ↔ Clusters W r rest ∨ 'f' ∈ w ∧ Begins r ∧ rest = r := by
  rw [clusters_iff]
  constructor
  · rintro ⟨w', r', h, hrest⟩
    cases hnext.symm.trans h
    exact hrest
  · exact fun h => ⟨w, r, hnext, h⟩

end Clusters

/-! ### The expression -/

section Expression

variable {W : WordClass}

/-- What the group captures at a place. -/
def captureAt : Text → Option Text
  | [] => none
  | c :: t => if isSpace c = true then none else some (bareWord (c :: t))

/-- The rest of the expression, from the group on. -/
def groupAt (W : WordClass) : Place Char → Option Text :=
  fun x => exec (pkillF W).group (fun y => exec (pkillF W).tail (fun _ => some (x.upTo y)) y) x

/-- **The group** captures a word: what is in quotes is never tried. -/
theorem groupAt_eq (before t : Text) : groupAt W ⟨before, t⟩ = captureAt t := by
  cases t with
  | nil => rfl
  | cons c t =>
    cases hc : isSpace c with
    | true =>
      have hquotes : c ≠ '"' ∧ c ≠ '\'' := by
        constructor <;> rintro rfl <;> cases hc
      simp [groupAt, captureAt, pkillF, quotedRe, Re.plus, Re.lit, exec, notSpace, hc, hquotes]
    | false =>
      have hskip : Place.skip notSpace ⟨before, c :: t⟩ = Place.skip notSpace ⟨c :: before, t⟩ :=
        skip_cons_of_pos (by simp [notSpace, hc])
      have hword : groupAt W ⟨before, c :: t⟩ = (exec (.star (.one notSpace))
          (fun y => some (Place.upTo ⟨before, c :: t⟩ y)) ⟨c :: before, t⟩).or
            (exec (.alt (quotedRe '"') (quotedRe '\''))
            (fun y => some (Place.upTo ⟨before, c :: t⟩ y)) ⟨before, c :: t⟩) := by
        rw [groupAt, pkillF, exec, Re.plus, exec, exec, if_pos (by simp [notSpace, hc])]
        rfl
      rw [hword, exec_star_one_of_isSome rfl, Option.some_or, ← hskip, upTo_skip, captureAt, hc,
        if_neg Bool.false_ne_true, bareWord]

theorem captureAt_of_space {t : Text} (h : t.head?.any isSpace = true) : captureAt t = none := by
  cases t with
  | nil => rfl
  | cons c t => exact if_pos h

variable {k : Place Char → Option Text} {before t : Text}

/-- Blanks, and then what does not begin with one. -/
theorem exec_blanks (hk : ∀ y c, y.after.head? = some c → isSpace c = true → k y = none)
    (before t : Text) :
    exec (.plus (.one isSpace)) k ⟨before, t⟩ = if t.head?.any isSpace = true then
        k (Place.skip isSpace ⟨before, t⟩) else none :=
  exec_plus_one hk _

/-- A word, and then blanks. -/
theorem exec_blanks_of_word (W : WordClass) (y : Place Char) (c : Char)
    (hc : y.after.head? = some c) (hword : W.isWord c = true) :
    exec (.plus (.one isSpace)) k y = none := by
  obtain ⟨before, t⟩ := y
  have hspace : isSpace c ≠ true := fun h => absurd (W.space c h) (by simp [hword])
  cases t with
  | nil => cases hc
  | cons d t =>
    cases hc
    rw [Re.plus, exec, exec, if_neg hspace]

/-- What begins with a dash only. -/
theorem exec_dash_eq_none {r : Re Char} {c : Char} (hc : c ≠ '-') :
    exec (.seq (.lit ['-']) r) k ⟨before, c :: t⟩ = none :=
  exec_lit_eq_none _ fun hpre => hc (List.cons_prefix_cons.mp hpre).1.symm

theorem nextCluster_of_ne {c : Char} (hc : c ≠ '-') :
    nextCluster W (c :: t) = none := if_neg fun h => hc h.1

/-- **A cluster** is matched as it is written, or not at all. -/
theorem exec_cluster (before : Text)
    (hk : ∀ y c, y.after.head? = some c → isSpace c = true → k y = none) :
    exec (clusterRe W) k ⟨before, t⟩ = none ∧ nextCluster W t = none ∨
      ∃ w r before', nextCluster W t = some (w, r) ∧
          exec (clusterRe W) k ⟨before, t⟩ = k ⟨before', r⟩ := by
  cases t with
  | nil => exact Or.inl ⟨rfl, rfl⟩
  | cons c u =>
    by_cases hc : c = '-'
    · subst hc
      have hexec : exec (clusterRe W) k ⟨before, '-' :: u⟩ =
          if u.head?.any W.isWord = true then
            if (u.dropWhile W.isWord).head?.any isSpace = true then
              k (Place.skip isSpace (Place.skip W.isWord ⟨'-' :: before, u⟩))
            else none
          else none := by
        rw [clusterRe, exec, exec_lit_singleton, if_pos rfl, exec,
          exec_plus_one (exec_blanks_of_word W), Place.skip, exec_plus_one hk]
      rw [hexec, nextCluster]
      cases hword : u.head?.any W.isWord with
      | false => exact Or.inl ⟨rfl, if_neg fun h => absurd h.2.1 Bool.false_ne_true⟩
      | true =>
        cases hblanks : (u.dropWhile W.isWord).head?.any isSpace with
        | false => exact Or.inl ⟨rfl, if_neg fun h => absurd h.2.2 Bool.false_ne_true⟩
        | true => exact Or.inr ⟨_, _, _, if_pos ⟨rfl, rfl, rfl⟩, rfl⟩
    · exact Or.inl ⟨exec_dash_eq_none hc, nextCluster_of_ne hc⟩

/-- A run of a word with an `f` in it is matched to its end. -/
theorem exec_f {S : Text → Option Text} (hk : ∀ before t, k ⟨before, t⟩ = S t)
    (hf : W.isWord 'f' = true) (hword : ∀ t, t.head?.any W.isWord = true → S t = none) :
    exec (.star (.one W.isWord)) (exec (.lit ['f']) (exec (.star (.one W.isWord)) k)) ⟨before, t⟩ =
      if 'f' ∈ t.takeWhile W.isWord then S (t.dropWhile W.isWord) else none := by
  have hlast : ∀ before t, exec (.star (.one W.isWord)) k ⟨before, t⟩ =
      S (t.dropWhile W.isWord) := by
    intro before t
    rw [exec_star_one, Place.skip, hk]
    rintro ⟨before, u⟩ c hc hcword
    rw [hk, hword]
    rw [hc]
    exact hcword
  induction t generalizing before with
  | nil => rfl
  | cons c u ih =>
    rw [exec_star_one_cons, exec_lit_singleton, hlast, ih]
    cases hc : W.isWord c with
    | true =>
      rw [List.takeWhile_cons_of_pos hc, List.dropWhile_cons_of_pos hc]
      by_cases hcf : c = 'f'
      · simp only [hcf, if_true, List.mem_cons_self]
        split_ifs
        · exact Option.or_self
        · exact Option.none_or
      · simp [hcf, Ne.symm hcf]
    | false =>
      have hcf : c ≠ 'f' := fun h => absurd (h ▸ hf) (by simp [hc])
      rw [List.takeWhile_cons_of_neg (by simp [hc]), if_neg Bool.false_ne_true, if_neg hcf,
        if_neg List.not_mem_nil, Option.none_or]

theorem WordClass.f (W : WordClass) : W.isWord 'f' = true := W.ascii 'f' (by decide)

/-- **The cluster with the `f`**, and the group after it. -/
theorem exec_fCluster (W : WordClass) (before t : Text) :
    exec (fClusterRe W) (groupAt W) ⟨before, t⟩ =
    match nextCluster W t with
    | none => none
    | some (w, r) => if 'f' ∈ w then captureAt r else none := by
  cases t with
  | nil => rfl
  | cons c u =>
    by_cases hc : c = '-'
    · subst hc
      have hblanks : ∀ before t, exec (.plus (.one isSpace)) (groupAt W) ⟨before, t⟩ =
          if t.head?.any isSpace = true then captureAt (t.dropWhile isSpace) else none := by
        intro before t
        rw [exec_blanks, Place.skip, groupAt_eq]
        rintro ⟨before, u⟩ d hd hspace
        rw [groupAt_eq]
        exact captureAt_of_space (by rw [hd]; exact hspace)
      have hwords : ∀ t : Text, t.head?.any W.isWord = true →
          (if t.head?.any isSpace = true then captureAt (t.dropWhile isSpace) else none) =
              none := by
        intro t hword
        cases t with
        | nil => rfl
        | cons d t => exact if_neg fun hspace => absurd (W.space d hspace) (by simpa using hword)
      have hexec : exec (fClusterRe W) (groupAt W) ⟨before, '-' :: u⟩ = _ :=
        (exec_lit_singleton _ _ _ _ _).trans ((if_pos rfl).trans (exec_f hblanks W.f hwords))
      rw [hexec, nextCluster]
      cases hword : u.head?.any W.isWord with
      | false =>
        have hnil : u.takeWhile W.isWord = [] := by
          cases u with
          | nil => rfl
          | cons d u => exact List.takeWhile_cons_of_neg (by simpa using hword)
        simp [hnil]
      | true => cases (u.dropWhile W.isWord).head?.any isSpace <;> simp
    · rw [nextCluster_of_ne hc]
      exact exec_dash_eq_none hc

/-- A repetition of clusters does not begin with a blank. -/
theorem exec_clusters_of_space (y : Place Char) (c : Char) (hc : y.after.head? = some c)
    (hspace : isSpace c = true) :
    exec (.star (clusterRe W)) (exec (fClusterRe W) (groupAt W)) y = none := by
  obtain ⟨before, t⟩ := y
  cases t with
  | nil => cases hc
  | cons d t =>
    cases hc
    have hdash : c ≠ '-' := by
      rintro rfl
      cases hspace
    rw [exec_star, clusterRe, exec_dash_eq_none hdash, exec_fCluster, nextCluster_of_ne hdash,
      Option.none_or]

/-- One cluster, and the ones after it, or the group. -/
theorem exec_clusters_eq (W : WordClass) (before t : Text) : nextCluster W t = none ∧
      exec (.star (clusterRe W)) (exec (fClusterRe W) (groupAt W)) ⟨before, t⟩ = none ∨
    ∃ w r before', nextCluster W t = some (w, r) ∧ r.length < t.length ∧
      exec (.star (clusterRe W)) (exec (fClusterRe W) (groupAt W)) ⟨before, t⟩ =
        (exec (.star (clusterRe W)) (exec (fClusterRe W) (groupAt W)) ⟨before', r⟩).or
            (if 'f' ∈ w then captureAt r else none) := by
  rw [exec_star, exec_fCluster]
  obtain ⟨hexec, hnext⟩ | ⟨w, r, before', hnext, hexec⟩ := exec_cluster before (W := W) (t := t)
      (k := fun y => if y.after.length < t.length then
        exec (.star (clusterRe W)) (exec (fClusterRe W) (groupAt W)) y else none)
      fun y c hc hspace => (by rw [exec_clusters_of_space y c hc hspace, ite_self])
  · refine Or.inl ⟨hnext, ?_⟩
    rw [hexec, hnext, Option.none_or]
  · obtain ⟨c, -, rfl, -⟩ := nextCluster_eq_some hnext
    have hlt : r.length < (c.text ++ r).length := by
      rw [Cluster.text_append, List.length_cons, List.length_append, List.length_append]
      omega
    refine Or.inr ⟨w, r, before', hnext, hlt, ?_⟩
    rw [hexec, hnext, if_pos hlt]

theorem captureAt_eq_some_iff {t g : Text} : captureAt t = some g ↔ Begins t ∧ g = bareWord t := by
  cases t with
  | nil => exact ⟨fun h => (by cases h), fun ⟨⟨_, _, h, _⟩, _⟩ => (by cases h)⟩
  | cons c t =>
    rw [captureAt]
    cases hc : isSpace c with
    | true =>
      refine ⟨fun h => (by cases h), ?_⟩
      rintro ⟨⟨d, u, heq, hd⟩, -⟩
      cases heq
      cases hc.symm.trans hd
    | false =>
      rw [if_neg Bool.false_ne_true, Option.some.injEq]
      exact ⟨fun h => ⟨⟨c, t, rfl, hc⟩, h.symm⟩, fun h => h.2.symm⟩

/-- **From the clusters on**: as many as there are up to one with an `f`, and then a word. -/
theorem exec_clusters (W : WordClass) (before t g : Text) :
    exec (.star (clusterRe W)) (exec (fClusterRe W) (groupAt W)) ⟨before, t⟩ = some g ↔
      ∃ rest, Clusters W t rest ∧ (∀ rest', ¬ Clusters W rest rest') ∧ g = bareWord rest := by
  induction hn : t.length using Nat.strongRecOn generalizing before t g with
  | ind n ih =>
    subst hn
    obtain ⟨hnext, hexec⟩ | ⟨w, r, before', hnext, hlt, hexec⟩ := exec_clusters_eq W before t
    · rw [hexec]
      refine ⟨fun h => (by cases h), ?_⟩
      rintro ⟨rest, hclusters, -⟩
      obtain ⟨w, r, h, -⟩ := clusters_iff.mp hclusters
      cases hnext.symm.trans h
    · have hclusters : ∀ rest, Clusters W t rest ↔ Clusters W r rest ∨ 'f' ∈ w ∧
          Begins r ∧ rest = r :=
        fun _ => clusters_iff_of_next hnext
      have hr := fun g => ih r.length hlt before' r g rfl
      rw [hexec]
      cases hinner : exec (.star (clusterRe W)) (exec (fClusterRe W) (groupAt W)) ⟨before', r⟩ with
      | some g' =>
        -- there are more clusters, and they decide
        obtain ⟨last, hlast, -⟩ := (hr g').mp hinner
        have hmore : ∀ rest,
            (Clusters W t rest ∧ (∀ rest', ¬ Clusters W rest rest') ∧ g = bareWord rest) ↔
            Clusters W r rest ∧ (∀ rest', ¬ Clusters W rest rest') ∧ g = bareWord rest := by
          intro rest
          rw [hclusters]
          refine ⟨fun ⟨h, hnone, hg⟩ => ⟨h.resolve_right fun h => ?_, hnone, hg⟩,
            fun ⟨h, hnone, hg⟩ => ⟨Or.inl h, hnone, hg⟩⟩
          exact hnone last (h.2.2 ▸ hlast)
        rw [Option.some_or, exists_congr hmore, ← hr, hinner]
      | none =>
        have hnone : ∀ rest, ¬ Clusters W r rest := by
          intro rest h
          obtain ⟨last, hlast, hend⟩ := h.exists_last
          have hsome := (hr (bareWord last)).mpr ⟨last, hlast, hend, rfl⟩
          cases hinner.symm.trans hsome
        rw [Option.none_or]
        constructor
        · intro h
          split_ifs at h with hf
          obtain ⟨hbegins, hg⟩ := captureAt_eq_some_iff.mp h
          exact ⟨r, (hclusters r).mpr (Or.inr ⟨hf, hbegins, rfl⟩), hnone, hg⟩
        · rintro ⟨rest, h, -, hg⟩
          obtain ⟨hf, hbegins, rfl⟩ := ((hclusters rest).mp h).resolve_left (hnone rest)
          rw [if_pos hf]
          exact captureAt_eq_some_iff.mpr ⟨hbegins, hg⟩

theorem Clusters.head? {t rest : Text} (h : Clusters W t rest) {d : Char} (hd : t.head? = some d) :
    isSpace d = false := by
  obtain ⟨cs, c, rfl, -, -⟩ := h
  rw [head?_clusters] at hd
  exact Option.some.inj hd ▸ rfl

/-- An occurrence, cut at its first word. -/
theorem occurs_iff {pre u rest : Text} :
    Occurs W (pre ++ ("pkill".toList ++ u)) pre rest ↔ pre.getLast?.any W.isWord = false ∧
    u.head?.any isSpace = true ∧ Clusters W (u.dropWhile isSpace) rest ∧
        ∀ rest', ¬ Clusters W rest rest' := by
  have hlast : (∀ c, pre.getLast? = some c → W.isWord c = false) ↔
      pre.getLast?.any W.isWord = false := by
    cases pre.getLast? <;> simp
  constructor
  · rintro ⟨⟨blanks, t, heq, hne, hspace, hclusters, hmax⟩, hword⟩
    rw [List.append_assoc, List.append_assoc, List.append_cancel_left_eq,
      List.append_cancel_left_eq] at heq
    subst heq
    rw [(run_append hspace fun d hd => hclusters.head? hd).2]
    exact ⟨hlast.mp hword, head?_any_append hne hspace t, hclusters, hmax⟩
  · rintro ⟨hword, hhead, hclusters, hmax⟩
    refine ⟨⟨u.takeWhile isSpace, u.dropWhile isSpace, ?_, takeWhile_ne_nil hhead, fun _ =>
      List.mem_takeWhile_imp, hclusters, hmax⟩,
      hlast.mpr hword⟩
    rw [List.append_assoc, List.append_assoc, List.takeWhile_append_dropWhile]

/-- **The expression** matches at a place exactly if there is an occurrence, and captures the first
word of its pattern. -/
theorem capture_eq_some_iff {pre post g : Text} : (pkillF W).capture ⟨pre.reverse, post⟩ = some g ↔
    ∃ rest, Occurs W (pre ++ post) pre rest ∧ g = bareWord rest := by
  have hexpr : (pkillF W).capture ⟨pre.reverse, post⟩ =
      if pre.reverse.head?.any W.isWord ≠ post.head?.any W.isWord then
        exec (.lit "pkill".toList)
          (exec (.plus (.one isSpace))
          (exec (.star (clusterRe W)) (exec (fClusterRe W) (groupAt W))))
          ⟨pre.reverse, post⟩
      else none := rfl
  by_cases hpre : "pkill".toList <+: post
  · obtain ⟨u, rfl⟩ := hpre
    have hp : ("pkill".toList ++ u).head?.any W.isWord = true := W.ascii 'p' (by decide)
    rw [hexpr, hp, List.head?_reverse, exec_lit, exec_blanks exec_clusters_of_space, Place.skip]
    simp only [occurs_iff]
    cases pre.getLast?.any W.isWord with
    | true => simp
    | false =>
      cases u.head?.any isSpace with
      | false => simp
      | true => simpa [and_assoc] using exec_clusters W _ (u.dropWhile isSpace) g
  · rw [hexpr, exec_lit_eq_none _ hpre, ite_self]
    refine ⟨fun h => (by cases h), ?_⟩
    rintro ⟨rest, ⟨⟨blanks, t, heq, -⟩, -⟩, -⟩
    rw [List.append_assoc, List.append_assoc, List.append_cancel_left_eq] at heq
    exact absurd ⟨_, heq.symm⟩ hpre

end Expression

/-! ### The claim -/

theorem Occurs.exists_append {W : WordClass} {command before rest : Text}
    (h : Occurs W command before rest) :
    ∃ post, command = before ++ post := by
  obtain ⟨blanks, t, rfl, -⟩ := h.layout
  exact ⟨"pkill".toList ++ (blanks ++ t), by rw [List.append_assoc, List.append_assoc]⟩

/-- The search finds the first word of the first pattern. -/
theorem search_pkillF_iff {W : WordClass} {command g : Text} :
    (pkillF W).search command = some g ↔ ∃ rest, First W command rest ∧ g = bareWord rest := by
  rw [Grouped.search, search_eq_some_iff]
  simp only [List.append_nil]
  constructor
  · rintro ⟨pre, post, rfl, hcapture, hnone⟩
    obtain ⟨rest, hoccurs, rfl⟩ := capture_eq_some_iff.mp hcapture
    refine ⟨rest, ⟨pre, hoccurs, fun before' rest' hoccurs' => ?_⟩, rfl⟩
    obtain ⟨post', hpost⟩ := hoccurs'.exists_append
    by_contra hlt
    have hsome := capture_eq_some_iff.mpr ⟨rest', hpost ▸ hoccurs', rfl⟩
    cases hsome.symm.trans (hnone before' post' hpost (Nat.lt_of_not_le hlt))
  · rintro ⟨rest, ⟨before, hoccurs, hfirst⟩, rfl⟩
    obtain ⟨post, rfl⟩ := hoccurs.exists_append
    refine ⟨before, post, rfl, capture_eq_some_iff.mpr ⟨rest, hoccurs, rfl⟩,
      fun pre' post' heq hlt => ?_⟩
    rw [Option.eq_none_iff_forall_ne_some]
    intro g hg
    obtain ⟨rest', hoccurs', -⟩ := capture_eq_some_iff.mp hg
    exact Nat.not_le_of_lt hlt (hfirst pre' rest' (heq ▸ hoccurs'))

/-- **A command is denied** for the first word of its first pattern. -/
theorem isSome_verdict_iff {W : WordClass} {command : Text} (h : shotTmp.search command = none) :
    (verdict W command).isSome = true ↔ ∃ rest, First W command rest ∧ '[' ∉ bareWord rest := by
  rw [verdict, h]
  cases hg : (pkillF W).search command with
  | none =>
    refine ⟨fun h => (by cases h), ?_⟩
    rintro ⟨rest, hfirst, -⟩
    cases hg.symm.trans (search_pkillF_iff.mpr ⟨rest, hfirst, rfl⟩)
  | some g =>
    obtain ⟨rest, hfirst, rfl⟩ := search_pkillF_iff.mp hg
    constructor
    · intro hdenied
      refine ⟨rest, hfirst, fun hmem => ?_⟩
      simp [hmem] at hdenied
    · rintro ⟨rest', hfirst', hnot⟩
      have hsame : bareWord rest = bareWord rest' :=
        Option.some.inj (hg.symm.trans (search_pkillF_iff.mpr ⟨rest', hfirst', rfl⟩))
      simp [hsame, hnot]

/-- **The guard judges a command** by its patterns, if and only if the first one decides. -/
theorem pkill_judged_iff (W : WordClass) (command : Text) (h : shotTmp.search command = none) :
    Judged W command ↔ FirstDecides W command :=
  ⟨fun hj => (isSome_verdict_iff h).symm.trans hj.judged,
    fun hf => ⟨(isSome_verdict_iff h).trans hf⟩⟩

/-! ### A second pattern -/

theorem isAsciiWord_of_isSpace (c : Char) (h : isSpace c = true) : isAsciiWord c = false := by
  have hcodes : ∀ n ∈ spaceCodes,
      (48 ≤ n && n ≤ 57 || 65 ≤ n && n ≤ 90 || decide (n = 95) || 97 ≤ n && n ≤ 122) = false := by
        decide
  exact hcodes c.toNat (List.contains_iff_mem.mp h)

/-- The words of ASCII. -/
def asciiWords : WordClass := ⟨isAsciiWord, fun _ _ => rfl, isAsciiWord_of_isSpace⟩

theorem pkill_judged_sample : shotTmp.search "pkill -f vite".toList = none ∧
    (Judged asciiWords "pkill -f vite".toList ↔ FirstDecides asciiWords "pkill -f vite".toList) :=
  ⟨by decide +kernel, pkill_judged_iff _ _ (by decide +kernel)⟩

/-- `-f` and a blank. -/
def dashF : Cluster asciiWords :=
  ⟨['f'], [' '], List.cons_ne_nil _ _, List.forall_mem_singleton.mpr rfl, List.cons_ne_nil _ _,
    List.forall_mem_singleton.mpr rfl⟩

/-- What a bracket in the first pattern lets pass. -/
theorem not_judged_second : ¬ Judged asciiWords "pkill -f '[n]ode' ; pkill -f vite".toList := by
  intro h
  have hallowed : verdict asciiWords "pkill -f '[n]ode' ; pkill -f vite".toList = none := by
    decide +kernel
  have hoccurs : Occurs asciiWords "pkill -f '[n]ode' ; pkill -f vite".toList
      "pkill -f '[n]ode' ; ".toList "vite".toList := by
    refine ⟨⟨[' '], "-f vite".toList, rfl, List.cons_ne_nil _ _, List.forall_mem_singleton.mpr rfl,
      ⟨[], dashF, rfl, List.mem_singleton_self 'f', 'v', "ite".toList, rfl, rfl⟩, ?_⟩,
        fun c hc => ?_⟩
    · intro rest' hclusters
      obtain ⟨w, r, hnext, -⟩ := clusters_iff.mp hclusters
      cases hnext
    · cases hc
      rfl
  have hdenied := h.judged.mpr ⟨_, _, hoccurs, by decide⟩
  rw [hallowed] at hdenied
  cases hdenied

/-- What is in quotes is cut at its first blank. -/
example : (verdict asciiWords "pkill -f \"node [s]rc\"".toList).isSome = true := by decide +kernel

end OracleSkills.Rules.Pkill
