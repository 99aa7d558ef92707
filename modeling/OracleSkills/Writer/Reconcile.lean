import OracleSkills.Writer.Race

/-!
# What a process that lost reports

A process that gets `FileExistsError` reads the file and compares the `content_hash` it
finds with its own. `cmd_create` says that this is "the SAME identical / refuse / force
reconciliation as a pre-existing file", but the owner may still be writing: the
reader may find an empty file, a part of the header, or bytes that end inside a
character. Then it finds no hash, and refuses a skill that is the same as its own.

What it takes to find the hash is the owner's `heading`, the text up to and with the
closing fence, and no fence inside it (`verdict_of_heading`, `heading_of_verdict`).
`reconciles_iff_ready` carries this over runs.
-/

namespace OracleSkills.Writer

open Python Frontmatter Concurrency

variable {env : Env} {a : Args} {r : Request}

/-! ### The heading of a text -/

/-- The text up to the end of the closing fence. -/
def Request.heading (env : Env) (r : Request) : Text :=
  fence ++ '\n' :: (unlines (r.lines env) ++ fence)

theorem Request.heading_initial (env : Env) (r : Request) : r.heading env <+: r.rendered env :=
  ⟨'\n' :: (rstrip r.fullBody ++ ['\n']), by rw [Request.rendered_eq, Request.heading]; simp⟩

/-- No value of an accepted request holds a carriage return. -/
theorem Accepted.heading_noReturn (h : Accepted env a r) : '\r' ∉ r.heading env := by
  have hone : ∀ {t : Text}, OneLine t → '\r' ∉ t := fun ht hm => absurd (ht _ hm) (by decide)
  have hvalue : ∀ kv ∈ r.header env, '\r' ∉ kv.2 := by
    intro kv hkv
    rcases h.header_value kv hkv with he | he
    · rw [he]
      intro hm
      rcases mem_yamlScalar hm with hq | hq
      · exact absurd hq (by decide)
      · rcases mem_flatten hq with hb | hb
        · exact absurd hb (by decide)
        · exact hb.2.2 rfl
    · exact hone he
  have hline : ∀ l ∈ r.lines env, '\r' ∉ l := by
    intro l hl hm
    obtain ⟨kv, hkv, rfl⟩ := List.mem_map.mp hl
    rw [field, List.mem_append, List.mem_cons, List.mem_cons] at hm
    rcases hm with hm | hm | hm | hm
    · exact hone (headerKeys_line _ (header_key_mem hkv)).1 hm
    · exact absurd hm (by decide)
    · exact absurd hm (by decide)
    · exact hvalue kv hkv hm
  have hfence : '\r' ∉ fence := by decide
  intro hm
  rw [Request.heading, List.mem_append, List.mem_cons, List.mem_append] at hm
  rcases hm with hm | hm | hm | hm
  · exact hfence hm
  · exact absurd hm (by decide)
  · rw [unlines, List.mem_flatten] at hm
    obtain ⟨l', hl', hm⟩ := hm
    obtain ⟨l, hl, rfl⟩ := List.mem_map.mp hl'
    rw [List.mem_append, List.mem_singleton] at hm
    rcases hm with hm | hm
    · exact hline l hl hm
    · exact absurd hm (by decide)
  · exact hfence hm

/-- The line end after the fence and the lines of a block end in a line end. -/
theorem exists_newline_cons_unlines (ls : List Text) : ∃ x, '\n' :: unlines ls = x ++ ['\n'] := by
  induction ls using List.reverseRecOn with
  | nil => exact ⟨[], rfl⟩
  | append_singleton ls l => exact ⟨'\n' :: (unlines ls ++ l), by rw [unlines_append]; simp⟩

/-- **The hash is found**: it is the last line, so whatever the lines before it are, the
reader takes the hash from it. -/
theorem Request.get?_content_hash (env : Env) (r : Request) :
    (parseLines (splitlines ('\n' :: unlines (r.lines env)))).get? "content_hash".toList =
        some (r.newHash env) := by
  obtain ⟨ls, hls⟩ : ∃ ls, r.lines env = ls ++ [field "content_hash".toList (r.newHash env)] :=
    ⟨(r.lines env).dropLast, rfl⟩
  obtain ⟨x, hx⟩ := exists_newline_cons_unlines ls
  have hone : OneLine (field "content_hash".toList (r.newHash env)) :=
    oneLine_field (by decide) (oneLine_of_noSpace (Digest.noSpace _))
  have hlast : splitlines (field "content_hash".toList (r.newHash env) ++ ['\n']) =
      [field "content_hash".toList (r.newHash env)] := splitlines_append_newline (t := []) hone
  have htext : '\n' :: unlines (r.lines env) = x ++ '\n' ::
      (field "content_hash".toList (r.newHash env) ++ ['\n']) := by
    rw [hls, unlines_append, ← List.cons_append, hx]
    simp
  rw [htext, splitlines_append_cons_newline, hlast, parseLines, List.foldl_append, List.foldl_cons,
    List.foldl_nil, readLine_field (by decide), Dict.get?_set_self, Request.newHash,
    stripped_of_noSpace (Digest.noSpace _), Digest.unquote_eq]

/-- A text that begins with the heading gives the hash. -/
theorem Accepted.read_heading (h : Accepted env a r) (hd : NoFence r.desc)
    (hs : NoFence (flatten r.source)) {t : Text} (ht : r.heading env <+: t) :
    (readFrontmatter (universalNewlines t)).1.get? "content_hash".toList =
        some (r.newHash env) := by
  obtain ⟨b, rfl⟩ := ht
  rw [universalNewlines_append h.heading_noReturn, Request.heading, List.append_assoc,
    List.cons_append,
    List.append_assoc, readFrontmatter, fenceSplit_unlines (h.lines_noFence hd hs)]
  exact r.get?_content_hash env

/-- A text that stops inside the heading has no closing fence. -/
theorem fenceSplit_initial {ls : List Text} (hls : ∀ l ∈ ls, NoFence l) {t : Text}
    (ht : t <+: fence ++ '\n' :: (unlines ls ++ fence))
    (hne : t ≠ fence ++ '\n' :: (unlines ls ++ fence)) :
    fenceSplit t = none := by
  by_cases hp : fence <+: t
  · obtain ⟨q, rfl⟩ := hp
    rw [List.prefix_append_right_inj] at ht
    cases q with
    | nil => decide
    | cons c q =>
      rw [List.cons_prefix_cons] at ht
      obtain ⟨rfl, b, hb⟩ := ht
      have hbne : b ≠ [] := by
        rintro rfl
        rw [List.append_nil] at hb
        exact hne (by rw [hb])
      rw [fenceSplit_fence_append, Option.map_eq_none_iff]
      by_contra hsome
      obtain ⟨⟨x, y⟩, hxy⟩ := Option.ne_none_iff_exists'.mp hsome
      -- a fence found here would be found in the whole heading, with `b` behind it
      have hwhole : cut fence (unlines ls ++ fence) = some (unlines ls, []) := by
        rw [cut_fence_unlines hls]
        have hself : cut fence fence = some ([], []) := by decide
        rw [hself]
        simp
      rw [← hb, cut_append hxy, Option.some.injEq, Prod.mk.injEq, List.append_eq_nil_iff] at hwhole
      exact hbne hwhole.2.2
  · rw [fenceSplit, if_neg (by rwa [List.isPrefixOf_iff_prefix])]

/-- Of a clean request's text, a part in which the reader finds any hash has the whole
heading. -/
theorem Clean.heading_of_read (hc : Clean r) (h : Accepted env a r) {t : Text}
    (ht : t <+: r.rendered env)
    {v : Text} (hv : (readFrontmatter (universalNewlines t)).1.get? "content_hash".toList =
      some v) :
    r.heading env <+: t := by
  by_contra hnot
  have hpart : t <+: r.heading env :=
    (List.prefix_or_prefix_of_prefix ht (r.heading_initial env)).resolve_right hnot
  have hret : '\r' ∉ t := fun hm => h.heading_noReturn (hpart.subset hm)
  have hsplit : fenceSplit t = none :=
    fenceSplit_initial (h.lines_noFence hc.desc_fence hc.source_fence) hpart fun he =>
      hnot (he ▸ List.prefix_rfl)
  rw [universalNewlines_eq_self hret, readFrontmatter, hsplit] at hv
  cases hv

/-! ### Reports at the end of a process -/

namespace Contest

variable {ι : Type*} (K : Contest ι)

/-- The two processes have one body, after `strip()`. -/
def SameBody (i w : ι) : Prop := strip (K.request i).fullBody = strip (K.request w).fullBody

/-- The reports of the processes that lost are right: one with the owner's body reports
`exists-identical`, and one that reports `refused-conflict` has another body. -/
def Reconciles (s : Sys ι Disk Phase) : Prop :=
  ∀ w i, K.Won (s.loc w) → K.Lost (s.loc i) →
    ((s.loc i).Ended → K.SameBody i w → s.loc i = .done .existsIdentical) ∧
      (s.loc i = .done .refusedConflict → ¬ K.SameBody i w)

/-- If the event is a read by a process that has the owner's body, the file on the disk
ends at a whole character and has the owner's heading, with no fence inside it. -/
def Ready (s : Sys ι Disk Phase) (i : ι) (e : Event) : Prop :=
  e = .read → ∀ w f, K.Won (s.loc w) → s.shared.file = some f → K.SameBody i w →
    f.torn = false ∧ (K.request w).heading (K.env w) <+: f.text ∧ NoFence (K.request w).desc ∧
      NoFence (flatten (K.request w).source)

variable {K}

theorem accepted (i : ι) :
    Accepted (K.env i) (K.args i) (K.request i) := accepted_of_prepare (K.prepared i)

theorem newHash_eq {i w : ι} (h : K.SameBody i w) :
    (K.request i).newHash (K.env i) = (K.request w).newHash (K.env w) := by
  rw [Request.newHash, Request.newHash, bodyHash, bodyHash, h, K.sameHash i w]

theorem verdict_of_heading {i w : ι} {t : Text} (hb : K.SameBody i w)
    (ht : (K.request w).heading (K.env w) <+: t) (hd : NoFence (K.request w).desc)
    (hs : NoFence (flatten (K.request w).source)) :
    K.verdict i (universalNewlines t) = .existsIdentical := by
  rw [verdict, (accepted w).read_heading hd hs ht, newHash_eq hb, if_pos rfl]

theorem heading_of_verdict {i w : ι} {t : Text} (hc : Clean (K.request w)) (ht : t <+: K.rendered w)
    (h : K.verdict i (universalNewlines t) = .existsIdentical) :
    (K.request w).heading (K.env w) <+: t := by
  rw [verdict] at h
  split_ifs at h with hv
  exact hc.heading_of_read (accepted w) ht hv

theorem Lost.not_won {p : Phase} (h : K.Lost p) : ¬ K.Won p := K.not_won_of_lost h

variable {s s' : Sys ι Disk Phase} {i : ι} {e : Event}

/-- The second half of `Reconciles` follows from the first. -/
theorem reconciles_of_identical
    (h : ∀ w i, K.Won (s.loc w) → K.Lost (s.loc i) → (s.loc i).Ended → K.SameBody i w →
      s.loc i = .done .existsIdentical) : K.Reconciles s := by
  refine fun w i hw hi => ⟨h w i hw hi, fun hr hb => ?_⟩
  have hx := h w i hw hi (by rw [hr]; trivial) hb
  rw [hr] at hx
  cases hx

variable [DecidableEq ι]

/-- A step that meets `Ready` keeps the reports right. -/
theorem Reconciles.step (hrec : K.Reconciles s) (hs : K.Inv s) (hready : K.Ready s i e)
    (h : K.protocol.step s i e = some s') : K.Reconciles s' := by
  have hacts := K.acts_of_act (Protocol.act_of_step h)
  have hloc : ∀ j, j ≠ i → s'.loc j = s.loc j := fun j hj => Protocol.step_loc_of_ne h hj
  refine reconciles_of_identical fun w j hw hj hended hb => ?_
  cases hs with
  | fresh hfile hstart =>
    -- the step created the file: every other process has not begun
    by_cases hji : j = i
    · rw [hji, (hacts.fresh hfile (hstart i)).2] at hended
      exact absurd hended id
    · rw [hloc j hji, hstart j] at hended
      exact absurd hended id
  | taken v f hfile howner hlost =>
    have hwv : w = v := by
      by_contra hne
      by_cases hwi : w = i
      · subst hwi
        exact ((hacts.lost hfile (hlost w hne)).1).not_won hw
      · rw [hloc w hwi] at hw
        exact (hlost w hne).not_won hw
    subst hwv
    by_cases hji : j = i
    · subst hji
      have hjw : j ≠ w := by
        rintro rfl
        exact hj.not_won hw
      obtain rfl := hacts.read_of_lost (hlost j hjw) hended
      obtain ⟨g, hg, hp'⟩ := hacts.read
      obtain ⟨htorn, hhead, hd, hs⟩ := hready rfl w g howner.won hg hb
      rw [hp', htorn, verdict_of_heading hb hhead hd hs]
      rfl
    · rw [hloc j hji] at hj hended ⊢
      exact (hrec w j howner.won hj).1 hended hb

/-- A process that has ended stays as it is. -/
theorem ended_step (h : K.protocol.step s i e = some s') {j : ι} (hj : (s.loc j).Ended) :
    s'.loc j = s.loc j := by
  by_cases hji : j = i
  · subst hji
    exact absurd hj (K.acts_of_act (Protocol.act_of_step h)).not_ended
  · exact Protocol.step_loc_of_ne h hji

theorem ended_run {tr : List (ι × Event)} (h : K.protocol.run s tr = some s') {j : ι}
    (hj : (s.loc j).Ended) :
    s'.loc j = s.loc j := by
  refine Protocol.run_invariant (I := fun t => t.loc j = s.loc j)
    (fun t i e t' ht hstep => ?_) rfl h
  rw [ended_step hstep (ht ▸ hj), ht]

/-- A read that gives the right report, of a clean owner's file, met `Ready`. -/
theorem ready_of_reconciles {tr : List (ι × Event)} (hs : K.Inv s)
    (hclean : ∀ i, Clean (K.request i))
    (h : K.protocol.step s i e = some s') {s'' : Sys ι Disk Phase}
    (hrun : K.protocol.run s' tr = some s'')
    (hrec : K.Reconciles s'') : K.Ready s i e := by
  rintro rfl w f hw hfile hb
  obtain ⟨g, hg, hp'⟩ := (K.acts_of_act (Protocol.act_of_step h)).read
  rw [hfile, Option.some.injEq] at hg
  subst hg
  have hended : (s'.loc i).Ended := by
    rw [hp']
    cases f.torn <;> trivial
  have hlost : K.Lost (s'.loc i) := by
    rw [hp']
    cases f.torn
    · exact K.verdict_ne_success i _
    · trivial
  have hfinal := ended_run hrun hended
  have hwon := won_run (hs.step h) (won_step hs h w hw) hrun
  have hreport := (hrec w i hwon (hfinal ▸ hlost)).1 (hfinal ▸ hended) hb
  rw [hfinal, hp'] at hreport
  obtain ⟨f', hf', howner⟩ := hs.owner_of_won hw
  rw [hfile, Option.some.injEq] at hf'
  subst hf'
  split_ifs at hreport with htorn
  rw [Phase.done.injEq] at hreport
  exact ⟨by simpa using htorn, heading_of_verdict (hclean w) ⟨_,
    howner.text⟩ hreport, (hclean w).desc_fence,
    (hclean w).source_fence⟩

/-- **What losers report**: in a run along which every read by a process with the owner's
body meets `Ready`, the reports are right. And when the free text of all requests is
clean, they are right in no other run. -/
theorem reconciles_of_ready (K : Contest ι) (queue : Text) (tr : List (ι × Event))
    (s : Sys ι Disk Phase) (h : K.protocol.run (init queue) tr = some s) :
    (K.protocol.Along K.Ready (init queue) tr → K.Reconciles s) ∧
      ((∀ i, Clean (K.request i)) → K.Reconciles s → K.protocol.Along K.Ready (init queue) tr) := by
  constructor
  · intro hready
    have hboth : K.Inv s ∧ K.Reconciles s :=
      Protocol.Along.invariant (I := fun s => K.Inv s ∧ K.Reconciles s)
        (fun _ _ _ _ hs hr hstep => ⟨hs.1.step hstep, hs.2.step hs.1 hr hstep⟩)
        ⟨K.inv_init queue, fun w _ hw => absurd hw id⟩ hready h
    exact hboth.2
  · intro hclean hrec
    refine Protocol.along_iff.mpr fun pre i e post a heq ha => ?_
    obtain ⟨a', b, ha', hb, hpost⟩ := Protocol.run_split (heq ▸ h)
    rw [ha, Option.some.injEq] at ha'
    subst ha'
    exact ready_of_reconciles (inv_run ha) hclean hb hpost hrec

/-- The run in which process `true` reads the whole file: the condition is met and the
report is `exists-identical`. -/
theorem reconciles_of_ready_sample :
    (sample.protocol.Along sample.Ready (init []) sampleTrace → sample.Reconciles sampleEnd) ∧
      ((∀ i, Clean (sample.request i)) → sample.Reconciles sampleEnd →
        sample.protocol.Along sample.Ready (init []) sampleTrace) :=
  reconciles_of_ready sample [] sampleTrace sampleEnd sampleTrace_run

/-- Process `true` reads after process `false` created the file and before it wrote. -/
def earlyTrace : List (Bool × Event) :=
  [(false, .creat), (true, .creat), (true, .read)] ++ sample.finish false

/-- The end of that run. -/
def earlyEnd : Sys Bool Disk Phase :=
  ⟨⟨some ⟨sample.rendered false, false⟩, []⟩,
    Function.update (Function.update (Function.update (Function.update (fun _ => .start) false
      (.writing (sample.rendered false))) true .reading) true (.done .refusedConflict)) false
        (.done .created)⟩

theorem earlyTrace_run : sample.protocol.run (init []) earlyTrace = some earlyEnd := by
  have hread : sample.protocol.run (init []) [(false, .creat), (true, .creat), (true, .read)] = some
      ⟨⟨some ⟨[], false⟩, []⟩,
        Function.update (Function.update (Function.update (fun _ => .start) false
        (.writing (sample.rendered false))) true .reading) true (.done .refusedConflict)⟩ := rfl
  rw [earlyTrace, Protocol.run_append, hread, Option.bind_some, sample.run_finish false rfl rfl]
  rfl

/-- Of two processes with one body, the one that reads too early reports
`refused-conflict`. -/
theorem not_reconciles_early :
    ¬ ∀ (K : Contest Bool) (queue : Text) (tr : List (Bool × Event)) (s : Sys Bool Disk Phase),
      K.protocol.run (init queue) tr = some s → K.protocol.Ended s → K.Reconciles s := by
  intro hall
  have hrec := hall sample [] earlyTrace earlyEnd earlyTrace_run fun i e => by
    rw [Protocol.step_eq_none]
    cases i <;> cases e <;> rfl
  exact (hrec false true rfl fun hr => nomatch hr).2 rfl rfl

end Contest

end OracleSkills.Writer
