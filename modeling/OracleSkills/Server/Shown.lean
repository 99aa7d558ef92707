import OracleSkills.Server.Visibility
import Mathlib.Order.WithBot
import Mathlib.Data.Set.Lattice
import Mathlib.Order.CompletePartialOrder

/-!
# What a listing shows

Above the visibility rule is an order. A skill needs some servers, tools and toolsets (`needs`); a
call offers some (`offer`), and an inventory that is not passed is the greatest. A skill is shown
exactly if what it needs is at most what is offered (`hideReason_eq_none_iff`), which is why more is
shown where more is offered.

All of it is so as long as the requirements can be written as text: `str()` raises for an integer
past the digit limit, and then there is no listing at all. `listing_partitions_iff` has that as the
exact condition.
-/

namespace OracleSkills.Server

open Python Frontmatter Rpc

/-! ### Needs and offers -/

/-- Servers, tools and toolsets, where `⊤` is every tool there may be. -/
abbrev Offer := Set Text × WithTop (Set Text) × WithTop (Set Text)

/-- The texts of the requirements of one kind. -/
def texts (vs : List Value) : Set Text := {t | ∃ v ∈ vs, v.toStr = .ok t}

/-- What a skill needs. -/
def needs (requires : List (Value × Value)) : Offer :=
  (texts (required requires "mcp"), (texts (required requires "tools") : Set Text),
    (texts (required requires "toolsets") : Set Text))

/-- What an inventory offers, with what is always there. -/
def supply (H : Host) (always : List Text) : Option Json → WithTop (Set Text)
  | none => ⊤
  | some v => ({t | t ∈ always ∨ ∃ ts, H.strings v = .ok ts ∧ t ∈ ts} : Set Text)

/-- What a call offers. -/
def offer (H : Host) (servers : List Text) (args : Dict Text Json) : Offer :=
  ({t | t ∈ servers}, supply H builtinTools (given args "agent_tools"),
    supply H [] (given args "agent_toolsets"))

/-- The second inventory is not passed, or both are, and it has all that the first one has. -/
def Wider (inventory inventory' : Option Json) : Prop :=
  inventory' = none ∨ ∃ xs ys, inventory = some (.arr xs) ∧ inventory' = some (.arr ys) ∧ xs ⊆ ys

/-- **A wider inventory offers more.** -/
theorem supply_mono {H : Host} {always : List Text} {inventory inventory' : Option Json}
    (h : Wider inventory inventory') :
    supply H always inventory ≤ supply H always inventory' := by
  obtain rfl | ⟨xs, ys, rfl, rfl, hsub⟩ := h
  · exact le_top
  · refine WithTop.coe_le_coe.mpr fun t ht => ht.imp_right ?_
    rintro ⟨ts, hts, hmem⟩
    cases hts
    exact ⟨_, rfl, List.map_subset _ hsub hmem⟩

/-! ### What is claimed -/

/-- A catalog: the names are all different. -/
structure Catalog where
  entries : List Entry
  nodup : (entries.map Entry.name).Nodup

/-- The index is a catalog. -/
def Catalog.ofIndex {W : World} {idx : Index} (h : IndexSound W idx) : Catalog :=
  ⟨idx.entries, h.nodup⟩

/-- The category filter and the inventories of a call are texts and lists, where they are passed. -/
structure WellTyped (args : Dict Text Json) : Prop where
  category : ∃ category, categoryOf args = .ok category
  tools : ∀ v, given args "agent_tools" = some v → ∃ xs, v = .arr xs
  toolsets : ∀ v, given args "agent_toolsets" = some v → ∃ xs, v = .arr xs

/-- What is claimed of one listing of a catalog. -/
structure Partition (catalog : List Entry) (category : Text) (args : Dict Text Json) (l : Listing) :
    Prop where
  sorted : l.skills.Pairwise fun c d => leText c.name d.name = true
  /-- Each entry is shown at most once. -/
  once : (l.skills.map PublicEntry.name).Nodup
  matching : ∀ s ∈ l.skills, ∃ c ∈ inCategory category catalog, s = publicEntry c
  count : l.count = l.skills.length
  total : l.count + l.hiddenCount.getD 0 = (inCategory category catalog).length
  all : showAll args = true → l.hiddenCount = none

/-- What is claimed of the listings of a catalog. -/
structure Partitions (H : Host) (catalog : List Entry) : Prop where
  lists : ∀ (servers : List Text) (args : Dict Text Json), WellTyped args →
    ∃ category l, categoryOf args = .ok category ∧ skillsList H servers catalog args = .ok l ∧
      Partition catalog category args l
  /-- With more servers, and wider inventories, what was shown is shown. -/
  monotone : ∀ (servers servers' : List Text) (args args' : Dict Text Json) (l l' : Listing),
    WellTyped args → WellTyped args' → categoryOf args = categoryOf args' →
      showAll args = showAll args' → servers ⊆ servers' →
    Wider (given args "agent_tools") (given args' "agent_tools") →
      Wider (given args "agent_toolsets") (given args' "agent_toolsets") →
    skillsList H servers catalog args = .ok l → skillsList H servers' catalog args' = .ok l' →
      l.skills ⊆ l'.skills
  /-- A server that a hidden skill requires, and that is not registered, is among the missing ones
  of its readiness report. -/
  readiness : ∀ (servers : List Text) (args : Dict Text Json), WellTyped args →
    ∀ c ∈ catalog, ∀ m ∈ required c.requires "mcp",
    ∀ name reason, m.toStr = .ok name → name ∉ servers →
    hideReason H servers c.requires (given args "agent_tools") (given args "agent_toolsets") =
      .ok (some reason) →
    ∃ r miss, readiness H servers c.requires = .ok r ∧
      r.missing.get? "mcp".toList = some miss ∧ m ∈ miss

/-- The requirements of a skill that decide whether it is shown can be written as text. -/
def Textual (requires : List (Value × Value)) : Prop :=
  ∀ key ∈ ["mcp", "tools", "toolsets"], ∀ v ∈ required requires key, ∃ t, v.toStr = .ok t

/-- Each of the requirements can be written as text, and looked up. -/
def LooksUp (has : Text → Except Raised Bool) (vs : List Value) : Prop :=
  ∀ v ∈ vs, ∃ t b, v.toStr = .ok t ∧ has t = .ok b

/-- The requirements of a skill can be written as text, and where it requires a server, its
readiness can be looked up. -/
structure Printable (H : Host) (requires : List (Value × Value)) : Prop where
  texts : Textual requires
  environ : required requires "mcp" ≠ [] → LooksUp H.hasEnv (required requires "env")
  commands : required requires "mcp" ≠ [] → LooksUp H.hasCommand (required requires "commands")
  files : required requires "mcp" ≠ [] → LooksUp H.fileExists (required requires "files")

/-! ### Requirements -/

theorem strs_ok_iff : ∀ {vs : List Value}, (∃ ts, strs vs = .ok ts) ↔ ∀ v ∈ vs, ∃ t, v.toStr = .ok t
  | [] => by simp [strs]
  | v :: vs => by
    simp only [strs, bind_eq_ok, List.forall_mem_cons, ← strs_ok_iff]
    constructor
    · rintro ⟨_, t, ht, ts, hts, -⟩
      exact ⟨⟨t, ht⟩, ts, hts⟩
    · rintro ⟨⟨t, ht⟩, ts, hts⟩
      exact ⟨_, t, ht, ts, hts, rfl⟩

theorem texts_of_strs :
    ∀ {vs : List Value} {ts : List Text}, strs vs = .ok ts → texts vs = {t | t ∈ ts}
  | [], ts, h => by
    cases h
    simp [texts]
  | v :: vs, ts, h => by
    rw [strs, bind_eq_ok] at h
    obtain ⟨t, ht, h⟩ := h
    rw [bind_eq_ok] at h
    obtain ⟨ts', hts', h⟩ := h
    cases h
    ext u
    have hu : (∃ w ∈ vs, w.toStr = .ok u) ↔ u ∈ ts' := Set.ext_iff.mp (texts_of_strs hts') u
    rw [texts, Set.mem_ofPred_eq, Set.mem_ofPred_eq, List.exists_mem_cons_iff, hu, ht,
      List.mem_cons, Except.ok.injEq, eq_comm]

/-- Nothing is raised where each requirement can be written and looked up. -/
theorem lacking_ok_iff {has : Text → Except Raised Bool} :
    ∀ {vs : List Value}, (∃ ms, lacking has vs = .ok ms) ↔ LooksUp has vs
  | [] => by simp [lacking, LooksUp]
  | v :: vs => by
    rw [LooksUp, List.forall_mem_cons, ← LooksUp, ← lacking_ok_iff]
    simp only [lacking, bind_eq_ok]
    constructor
    · rintro ⟨_, t, ht, b, hb, ms, hms, -⟩
      exact ⟨⟨t, b, ht, hb⟩, ms, hms⟩
    · rintro ⟨⟨t, b, ht, hb⟩, ms, hms⟩
      exact ⟨_, t, ht, b, hb, ms, hms, rfl⟩

/-- What is lacking are the requirements that are not found. -/
theorem mem_lacking {has : Text → Except Raised Bool} {m : Value} :
    ∀ {vs ms : List Value}, lacking has vs = .ok ms →
    (m ∈ ms ↔ m ∈ vs ∧ ∃ t, m.toStr = .ok t ∧ has t = .ok false)
  | [], ms, h => by
    cases h
    simp
  | v :: vs, ms, h => by
    simp only [lacking, bind_eq_ok] at h
    obtain ⟨t, ht, b, hb, ms', hms', h⟩ := h
    cases h
    rw [List.mem_cons, or_and_right, ← mem_lacking hms']
    cases b with
    | true =>
      rw [if_pos rfl]
      refine ⟨Or.inr, fun hm => hm.resolve_left ?_⟩
      rintro ⟨rfl, u, hu, hfound⟩
      cases hu.symm.trans ht
      cases hfound.symm.trans hb
    | false =>
      rw [if_neg Bool.false_ne_true, List.mem_cons]
      exact or_congr_left ⟨fun hm => ⟨hm, hm ▸ ⟨t, ht, hb⟩⟩, fun hm => hm.1⟩

variable {H : Host} {servers : List Text} {requires : List (Value × Value)}

theorem missMcp_ok_iff (servers : List Text) : (∃ ms, missMcp servers requires = .ok ms) ↔
    ∀ v ∈ required requires "mcp", ∃ t, v.toStr = .ok t := by
  rw [missMcp, lacking_ok_iff]
  exact forall₂_congr fun v _ => exists_congr fun t => ⟨fun ⟨_, h⟩ => h.1, fun h => ⟨_, h, rfl⟩⟩

theorem mem_missMcp {m : Value} {ms : List Value} (h : missMcp servers requires = .ok ms) :
    m ∈ ms ↔ m ∈ required requires "mcp" ∧ ∃ t, m.toStr = .ok t ∧ t ∉ servers := by
  rw [mem_lacking h]
  simp

/-- No server is missing exactly if the required ones are among the registered ones. -/
theorem missMcp_eq_nil_iff {ms : List Value} (h : missMcp servers requires = .ok ms) :
    ms = [] ↔ texts (required requires "mcp") ⊆ {t | t ∈ servers} := by
  rw [List.eq_nil_iff_forall_not_mem]
  constructor
  · rintro hnone t ⟨m, hm, ht⟩
    by_contra hnot
    exact hnone m ((mem_missMcp h).mpr ⟨hm, t, ht, hnot⟩)
  · intro hsub m hm
    obtain ⟨hreq, t, ht, hnot⟩ := (mem_missMcp h).mp hm
    exact hnot (hsub ⟨m, hreq, ht⟩)

/-! ### The rule -/

/-- An inventory that is passed is a list. -/
def Lists (inventory : Option Json) : Prop := ∀ v, inventory = some v → ∃ xs, v = .arr xs

theorem reasonFor_eq_none_iff {label : String} {avail req : List Text} :
    reasonFor label avail req = none ↔ req ⊆ avail := by
  rw [reasonFor, ite_eq_right_iff, List.subset_def]
  simp

/-- **One check** finds nothing exactly if what is required is at most what is supplied. -/
theorem unavailable_spec (H : Host) (label : String) (always : List Text) {vs : List Value}
    {inventory : Option Json}
    (hvs : ∀ v ∈ vs, ∃ t, v.toStr = .ok t) (hlists : Lists inventory) : ∃ r,
      unavailable H label always vs inventory = .ok r ∧
      (r = none ↔ ((texts vs : Set Text) : WithTop (Set Text)) ≤ supply H always inventory) := by
  obtain ⟨req, hreq⟩ := strs_ok_iff.mpr hvs
  rw [texts_of_strs hreq, unavailable, hreq]
  cases inventory with
  | none => exact ⟨none, rfl, fun _ => le_top, fun _ => rfl⟩
  | some v =>
    obtain ⟨xs, rfl⟩ := hlists v rfl
    have hsupply :
        supply H always (some (.arr xs)) = ({t | t ∈ xs.map H.str ++ always} : Set Text) := by
      rw [supply]
      congr 1
      ext t
      simp [Host.strings, or_comm, eq_comm]
    rw [hsupply, WithTop.coe_le_coe]
    by_cases hnil : req = []
    · subst hnil
      exact ⟨none, rfl, fun _ t ht => absurd ht List.not_mem_nil, fun _ => rfl⟩
    · exact ⟨reasonFor label (xs.map H.str ++ always) req, if_neg hnil, reasonFor_eq_none_iff⟩

/-- A skill is hidden for the servers that are missing. -/
theorem hideReason_of_miss (H : Host) (tools toolsets : Option Json) {miss : List Value}
    (hmiss : missMcp servers requires = .ok miss) (hne : miss ≠ []) :
    ∃ names, hideReason H servers requires tools toolsets =
        .ok (some (mcpLabel ++ join ", ".toList names)) := by
  obtain ⟨names, hnames⟩ := strs_ok_iff.mpr fun m hm => by
    obtain ⟨-, t, ht, -⟩ := (mem_missMcp hmiss).mp hm
    exact ⟨t, ht⟩
  refine ⟨names, ?_⟩
  rw [hideReason, hmiss]
  show (if miss ≠ [] then _ else _) = _
  rw [if_pos hne, hnames]
  rfl

/-- With no server missing, it is the inventories that decide. -/
theorem hideReason_of_registered (tools toolsets : Option Json)
    (hmiss : missMcp servers requires = .ok []) :
    hideReason H servers requires tools toolsets = (do
      let reason ← unavailable H "requires tool(s) unavailable: " builtinTools
        (required requires "tools") tools
      match reason with
      | some reason => .ok (some reason)
      | none => unavailable H "requires toolset(s) unavailable: " [] (required requires
          "toolsets") toolsets) := by
  rw [hideReason, hmiss]
  rfl

/-- **A skill is shown** exactly if what it needs is at most what is offered. -/
theorem hideReason_spec (H : Host) (servers : List Text) (hprint : Textual requires)
    {tools toolsets : Option Json} (htools : Lists tools) (htoolsets : Lists toolsets) :
    ∃ r, hideReason H servers requires tools toolsets = .ok r ∧
      (r = none ↔ needs requires ≤
          ({t | t ∈ servers}, supply H builtinTools tools, supply H [] toolsets)) := by
  obtain ⟨miss, hmiss⟩ := (missMcp_ok_iff servers).mpr (hprint "mcp" (by simp))
  have hmcp := missMcp_eq_nil_iff hmiss
  rw [needs, Prod.mk_le_mk, Prod.mk_le_mk]
  by_cases hnil : miss = []
  · subst hnil
    obtain ⟨r, hr, hrnone⟩ := unavailable_spec H "requires tool(s) unavailable: " builtinTools
      (hprint "tools" (by simp)) htools
    obtain ⟨r', hr', hrnone'⟩ := unavailable_spec H "requires toolset(s) unavailable: " []
      (hprint "toolsets" (by simp)) htoolsets
    rw [hideReason_of_registered tools toolsets hmiss, hr]
    cases r with
    | some reason => exact ⟨some reason, rfl, fun h => (by cases h), fun h => hrnone.mpr h.2.1⟩
    | none => exact ⟨r', hr', fun h => ⟨hmcp.mp rfl, hrnone.mp rfl, hrnone'.mp h⟩,
      fun h => hrnone'.mpr h.2.2⟩
  · obtain ⟨names, hnames⟩ := hideReason_of_miss H tools toolsets hmiss hnil
    exact ⟨_, hnames, fun h => (by cases h), fun h => absurd (hmcp.mpr h.1) hnil⟩

/-- Where every server is registered and no inventory is passed, all requirements are written as
text. -/
theorem textual_of_hideReason {r : Option Text}
    (hmcp : ∀ v ∈ required requires "mcp", ∀ t, v.toStr = .ok t → t ∈ servers)
    (h : hideReason H servers requires none none = .ok r) : Textual requires := by
  have hstrs {label : String} {always : List Text} {vs : List Value} {reason : Option Text}
      (h : unavailable H label always vs none = .ok reason) : reason = none ∧
          ∀ v ∈ vs, ∃ t, v.toStr = .ok t := by
    rw [unavailable, bind_eq_ok] at h
    obtain ⟨req, hreq, h⟩ := h
    cases h
    exact ⟨rfl, strs_ok_iff.mp ⟨req, hreq⟩⟩
  have hmiss := h
  rw [hideReason, bind_eq_ok] at hmiss
  obtain ⟨miss, hmiss, -⟩ := hmiss
  have hprint := (missMcp_ok_iff servers).mp ⟨miss, hmiss⟩
  obtain rfl : miss = [] := (missMcp_eq_nil_iff hmiss).mpr fun t ⟨v, hv, ht⟩ => hmcp v hv t ht
  rw [hideReason_of_registered none none hmiss, bind_eq_ok] at h
  obtain ⟨reason, hreason, h⟩ := h
  obtain ⟨rfl, htools⟩ := hstrs hreason
  intro key hkey
  simp only [List.mem_cons, List.not_mem_nil, or_false] at hkey
  rcases hkey with rfl | rfl | rfl
  · exact hprint
  · exact htools
  · exact (hstrs h).2

/-! ### Readiness -/

/-- **A readiness report** names the servers that are missing. -/
theorem readiness_of_printable (servers : List Text) (h : Printable H requires)
    (hne : required requires "mcp" ≠ []) :
    ∃ r miss, readiness H servers requires = .ok r ∧ missMcp servers requires = .ok miss ∧
      (miss ≠ [] → r.missing.get? "mcp".toList = some miss) := by
  obtain ⟨env, henv⟩ := lacking_ok_iff.mpr (h.environ hne)
  obtain ⟨cmd, hcmd⟩ := lacking_ok_iff.mpr (h.commands hne)
  obtain ⟨file, hfile⟩ := lacking_ok_iff.mpr (h.files hne)
  obtain ⟨miss, hmiss⟩ := (missMcp_ok_iff servers).mpr (h.texts "mcp" (by simp))
  obtain ⟨tools, htools⟩ := strs_ok_iff.mpr (h.texts "tools" (by simp))
  refine ⟨⟨note "mcp" miss (note "files" file (note "commands" cmd (note "env" env []))), tools⟩,
    miss, ?_, hmiss, fun hmiss => ?_⟩
  · rw [readiness, henv, hcmd, hfile, hmiss, htools]
    rfl
  · rw [note, if_pos hmiss, Dict.get?_set_self]

theorem lookups_of_readiness (h : ∃ r, readiness H servers requires = .ok r) :
    LooksUp H.hasEnv (required requires "env") ∧
    LooksUp H.hasCommand (required requires "commands") ∧
        LooksUp H.fileExists (required requires "files") := by
  simp only [readiness, bind_eq_ok] at h
  obtain ⟨_, env, henv, cmd, hcmd, file, hfile, -⟩ := h
  exact ⟨lacking_ok_iff.mp ⟨env, henv⟩, lacking_ok_iff.mp ⟨cmd, hcmd⟩,
    lacking_ok_iff.mp ⟨file, hfile⟩⟩

/-! ### The loop -/

/-- The entry is shown. -/
def shows (hide : Entry → Except Raised (Option Text)) (c : Entry) : Bool :=
  match hide c with
  | .ok none => true
  | _ => false

theorem shows_iff {hide : Entry → Except Raised (Option Text)} {c : Entry} :
    shows hide c = true ↔ hide c = .ok none := by
  rw [shows]
  split <;> simp_all

/-- **The loop** raises where the check of an entry does, and else parts the entries. -/
theorem sift_eq_ok_iff {hide : Entry → Except Raised (Option Text)} :
    ∀ {cs : List Entry} {r : List Entry × ℕ},
    sift hide cs = .ok r ↔ (∀ c ∈ cs, ∃ reason, hide c = .ok reason) ∧
      r = (cs.filter (shows hide), cs.countP fun c => !shows hide c)
  | [], r => by simp [sift, eq_comm]
  | c :: cs, r => by
    simp only [sift, bind_eq_ok, sift_eq_ok_iff, List.forall_mem_cons]
    constructor
    · rintro ⟨reason, hreason, _, ⟨hrest, rfl⟩, h⟩
      cases h
      refine ⟨⟨⟨reason, hreason⟩, hrest⟩, ?_⟩
      cases reason with
      | some reason => simp [shows, hreason]
      | none => simp [shows, hreason]
    · rintro ⟨⟨⟨reason, hreason⟩, hrest⟩, rfl⟩
      refine ⟨reason, hreason, _, ⟨hrest, rfl⟩, ?_⟩
      cases reason with
      | some reason => simp [shows, hreason]
      | none => simp [shows, hreason]

/-- **What a call returns.** -/
theorem skillsList_eq_ok_iff {catalog : List Entry} {args : Dict Text Json} {l : Listing} :
    skillsList H servers catalog args = .ok l ↔
    ∃ category, categoryOf args = .ok category ∧
      (∀ c ∈ inCategory category catalog, ∃ reason, hideIn H servers args c = .ok reason) ∧
      l = listingOf H args ((inCategory category catalog).filter (shows (hideIn H servers args)))
        ((inCategory category catalog).countP fun c => !shows (hideIn H servers args) c) := by
  simp only [skillsList, bind_eq_ok, sift_eq_ok_iff]
  constructor
  · rintro ⟨category, hcategory, _, ⟨hall, rfl⟩, h⟩
    cases h
    exact ⟨category, hcategory, hall, rfl⟩
  · rintro ⟨category, hcategory, hall, rfl⟩
    exact ⟨category, hcategory, _, ⟨hall, rfl⟩, rfl⟩

theorem mem_listingOf {args : Dict Text Json} {visible : List Entry} {hidden : ℕ}
    {s : PublicEntry} :
    s ∈ (listingOf H args visible hidden).skills ↔ ∃ c ∈ visible, publicEntry c = s := by
  rw [listingOf, List.mem_map]
  exact exists_congr fun c => and_congr_left' (List.mergeSort_perm _ _).mem_iff

theorem pairwise_byName (cs : List Entry) :
    (cs.mergeSort fun c d => leText c.name d.name).Pairwise fun c d =>
        leText c.name d.name = true :=
  List.pairwise_mergeSort (fun c d e => leText_trans (s := c.name) (t := d.name) (u := e.name))
    (fun c d => leText_total c.name d.name) cs

theorem hiddenCount_listingOf (args : Dict Text Json) (visible : List Entry) (hidden : ℕ) :
    (listingOf H args visible hidden).hiddenCount.getD 0 = hidden := by
  show (if hidden = 0 then none else some hidden).getD 0 = hidden
  split_ifs with hzero
  · exact hzero.symm
  · rfl

/-- **One listing** parts the catalog. -/
theorem partition_listingOf (catalog : Catalog) (category : Text) (args : Dict Text Json) :
    Partition catalog.entries category args
      (listingOf H args
        ((inCategory category catalog.entries).filter (shows (hideIn H servers args)))
        ((inCategory category catalog.entries).countP fun c =>
            !shows (hideIn H servers args) c)) := by
  refine ⟨?_, ?_, fun s hs => ?_, ?_, ?_, fun hall => ?_⟩
  · exact List.pairwise_map.mpr (pairwise_byName _)
  · have hsub : ((inCategory category catalog.entries).filter
        (shows (hideIn H servers args))).Sublist catalog.entries := by
      refine List.filter_sublist.trans ?_
      rw [inCategory]
      split_ifs
      · exact List.filter_sublist
      · exact List.Sublist.refl _
    rw [listingOf, List.map_map]
    exact ((List.mergeSort_perm _ _).map _).nodup_iff.mpr (catalog.nodup.sublist (hsub.map _))
  · obtain ⟨c, hc, rfl⟩ := mem_listingOf.mp hs
    exact ⟨c, List.mem_of_mem_filter hc, rfl⟩
  · rw [listingOf, List.length_map, List.length_mergeSort]
  · have hcount := List.length_eq_countP_add_countP (l := inCategory category catalog.entries)
      (shows (hideIn H servers args))
    simp only [Bool.not_eq_true, Bool.decide_eq_false] at hcount
    have hvisible :
        (listingOf H args
        ((inCategory category catalog.entries).filter (shows (hideIn H servers args)))
        ((inCategory category catalog.entries).countP fun c =>
          !shows (hideIn H servers args) c)).count =
        (inCategory category catalog.entries).countP (shows (hideIn H servers args)) :=
          List.countP_eq_length_filter.symm
    rw [hiddenCount_listingOf, hvisible, hcount]
  · have hnone : (inCategory category catalog.entries).countP
        (fun c => !shows (hideIn H servers args) c) = 0 := by
      rw [List.countP_eq_zero]
      intro c _
      simp [shows, hideIn, hall]
    rw [listingOf, hnone, if_pos rfl]

variable {args : Dict Text Json}

/-- In a call, an entry whose requirements can be written is checked, and shown if all are, or if it
needs what is offered. -/
theorem hideIn_spec (H : Host) (servers : List Text) (h : WellTyped args) {c : Entry}
    (hprint : Textual c.requires) :
    ∃ r, hideIn H servers args c = .ok r ∧
        (r = none ↔ showAll args = true ∨ needs c.requires ≤ offer H servers args) := by
  rw [hideIn]
  split_ifs with hall
  · exact ⟨none, rfl, fun _ => Or.inl hall, fun _ => rfl⟩
  · obtain ⟨r, hr, hnone⟩ := hideReason_spec H servers hprint h.tools h.toolsets
    exact ⟨r, hr, hnone.trans (or_iff_right hall).symm⟩

/-! ### The catalog -/

theorem mem_of_mem_inCategory {category : Text} {catalog : List Entry} {c : Entry}
    (h : c ∈ inCategory category catalog) :
    c ∈ catalog := by
  rw [inCategory] at h
  split_ifs at h
  · exact List.mem_of_mem_filter h
  · exact h

/-- Where all requirements can be written and looked up, the listings are as claimed. -/
theorem partitions_of_printable {catalog : Catalog}
    (h : ∀ c ∈ catalog.entries, Printable H c.requires) :
    Partitions H catalog.entries := by
  have hok (servers : List Text) {args : Dict Text Json} (hargs : WellTyped args) {c : Entry}
      (hc : c ∈ catalog.entries) :=
    hideIn_spec H servers hargs (h c hc).texts
  refine ⟨fun servers args hargs => ?_, ?_, ?_⟩
  · obtain ⟨category, hcategory⟩ := hargs.category
    refine ⟨category, _, hcategory,
      skillsList_eq_ok_iff.mpr ⟨category, hcategory, fun c hc => ?_, rfl⟩, partition_listingOf ..⟩
    obtain ⟨r, hr, -⟩ := hok servers hargs (mem_of_mem_inCategory hc)
    exact ⟨r, hr⟩
  · intro servers servers' args args' l l' hargs hargs' hcategory hall hservers htools
      htoolsets hl hl' s hs
    have hle : offer H servers args ≤ offer H servers' args' :=
      ⟨fun _ ht => hservers ht, supply_mono htools, supply_mono htoolsets⟩
    obtain ⟨category, hc, -, rfl⟩ := skillsList_eq_ok_iff.mp hl
    obtain ⟨category', hc', -, rfl⟩ := skillsList_eq_ok_iff.mp hl'
    obtain rfl : category = category' := Except.ok.inj (hc.symm.trans (hcategory.trans hc'))
    obtain ⟨c, hmem, rfl⟩ := mem_listingOf.mp hs
    obtain ⟨hmem, hshown⟩ := List.mem_filter.mp hmem
    obtain ⟨r, hr, hnone⟩ := hok servers hargs (mem_of_mem_inCategory hmem)
    obtain ⟨r', hr', hnone'⟩ := hok servers' hargs' (mem_of_mem_inCategory hmem)
    rw [shows_iff, hr, Except.ok.injEq] at hshown
    refine mem_listingOf.mpr ⟨c, List.mem_filter.mpr ⟨hmem, shows_iff.mpr ?_⟩, rfl⟩
    rw [hr', hnone'.mpr ((hnone.mp hshown).imp (fun h => hall ▸ h) fun h => h.trans hle)]
  · intro servers args hargs c hc m hm name reason hname hnot _
    have hreq : required c.requires "mcp" ≠ [] := List.ne_nil_of_mem hm
    obtain ⟨r, miss, hr, hmiss, hget⟩ := readiness_of_printable servers (h c hc) hreq
    have hmem : m ∈ miss := (mem_missMcp hmiss).mpr ⟨hm, name, hname, hnot⟩
    exact ⟨r, miss, hr, hget (List.ne_nil_of_mem hmem), hmem⟩

/-- The calls without arguments, with the servers chosen, come to every requirement. -/
theorem printable_of_partitions {catalog : Catalog} (h : Partitions H catalog.entries) :
    ∀ c ∈ catalog.entries, Printable H c.requires := by
  intro c hc
  have hempty : WellTyped [] := ⟨⟨[], rfl⟩, fun _ h => (by cases h), fun _ h => (by cases h)⟩
  -- in a call without arguments every entry is checked
  have hchecked : ∀ servers, ∃ reason, hideReason H servers c.requires none none = .ok reason := by
    intro servers
    obtain ⟨_, l, -, hl, -⟩ := h.lists servers [] hempty
    obtain ⟨category, hcategory, hall, -⟩ := skillsList_eq_ok_iff.mp hl
    cases hcategory
    exact hall c hc
  have htextual : Textual c.requires := by
    obtain ⟨reason, hreason⟩ :=
      hchecked ((required c.requires "mcp").filterMap fun v => v.toStr.toOption)
    refine textual_of_hideReason (fun v hv t ht => List.mem_filterMap.mpr ⟨v, hv, ?_⟩) hreason
    rw [ht]
    rfl
  have hready : required c.requires "mcp" ≠ [] → ∃ r, readiness H [] c.requires = .ok r := by
    intro hne
    obtain ⟨m, hm⟩ := List.exists_mem_of_ne_nil _ hne
    obtain ⟨name, hname⟩ := htextual "mcp" (by simp) m hm
    obtain ⟨miss, hmiss⟩ := (missMcp_ok_iff []).mpr (htextual "mcp" (by simp))
    have hmem : m ∈ miss := (mem_missMcp hmiss).mpr ⟨hm, name, hname, List.not_mem_nil⟩
    obtain ⟨names, hreason⟩ := hideReason_of_miss H none none hmiss (List.ne_nil_of_mem hmem)
    obtain ⟨r, -, hr, -, -⟩ :=
      h.readiness [] [] hempty c hc m hm name _ hname List.not_mem_nil hreason
    exact ⟨r, hr⟩
  exact ⟨htextual, fun hne => (lookups_of_readiness (hready hne)).1,
    fun hne => (lookups_of_readiness (hready hne)).2.1,
    fun hne => (lookups_of_readiness (hready hne)).2.2⟩

/-- **The listing is a monotone partition** of the catalog, if and only if the requirements can be
written as text and looked up. -/
theorem listing_partitions_iff (H : Host) (catalog : Catalog) :
    Partitions H catalog.entries ↔ ∀ c ∈ catalog.entries, Printable H c.requires :=
  ⟨printable_of_partitions, partitions_of_printable⟩

/-- A skill that requires the server `x`, and a tool that is an integer past the digit limit. -/
def longTool : Entry :=
  ⟨"b".toList, none, none, none,
    [(.str "mcp".toList, .str "x".toList), (.str "tools".toList, longInt)], hexSkill⟩

/-- A skill that requires nothing. -/
def plainSkill : Entry := ⟨"a".toList, none, none, none, [], hexSkill⟩

theorem nodup_longCatalog : ([plainSkill, longTool].map Entry.name).Nodup := by decide

/-- A catalog of the two. -/
def longCatalog : Catalog := ⟨[plainSkill, longTool], nodup_longCatalog⟩

/-- The text of a string. -/
def textOf : Json → Text
  | .str t => t
  | _ => []

/-- A machine on which there is nothing. -/
def bareHost : Host where
  skillsDir := "skills".toList
  str := textOf
  str_str _ := rfl
  environ _ := .ok none
  which _ := .ok none
  fileExists _ := .ok false

/-- With no server registered `a` is listed; once `x` is, nothing is. -/
theorem not_partitions_longTool :
    (∃ l, skillsList bareHost [] longCatalog.entries [] = .ok l ∧
      publicEntry plainSkill ∈ l.skills) ∧
      ¬ Partitions bareHost longCatalog.entries := by
  refine ⟨⟨_, rfl, ?_⟩, fun h => ?_⟩
  · exact mem_listingOf.mpr ⟨plainSkill, List.mem_cons_self .., rfl⟩
  · have hempty : WellTyped [] := ⟨⟨[], rfl⟩, fun _ h => (by cases h), fun _ h => (by cases h)⟩
    obtain ⟨_, l, -, hl, -⟩ := h.lists ["x".toList] [] hempty
    cases hl

/-- The tool lists the index. -/
theorem toolSkillsList_eq {W : World} {cache : Cache} {idx : Index}
    (h : (buildIndex W cache).1 = .ok idx) {args : Dict Text Json}
    (hargs : WellTyped args) :
    (toolSkillsList W cache H servers args).1 = skillsList H servers idx.entries args := by
  obtain ⟨category, hcategory⟩ := hargs.category
  rw [toolSkillsList, hcategory]
  generalize buildIndex W cache = built at h
  obtain ⟨r, cache'⟩ := built
  cases h
  rfl

/-- So its listings part the index, where the requirements can be written and looked up. -/
theorem toolSkillsList_partition {W : World} {cache : Cache} {idx : Index}
    (h : (buildIndex W cache).1 = .ok idx)
    (hsound : IndexSound W idx) (hprint : ∀ c ∈ idx.entries, Printable H c.requires)
    {args : Dict Text Json} (hargs : WellTyped args) :
    ∃ category l, categoryOf args = .ok category ∧
      (toolSkillsList W cache H servers args).1 = .ok l ∧
      Partition idx.entries category args l := by
  have hall : Partitions H (Catalog.ofIndex hsound).entries := partitions_of_printable hprint
  rw [toolSkillsList_eq h hargs]
  exact hall.lists servers args hargs

theorem categoryOf_str {args : Dict Text Json} {t : Text}
    (h : args.get? "category".toList = some (.str t)) :
    categoryOf args = .ok (strip t) := by
  rw [categoryOf, h]
  by_cases ht : t = []
  · subst ht
    rfl
  · simp [Json.truthy, ht]

/-- With `all=true` it lists what `skillsListAll` does. -/
theorem toolSkillsList_all {W : World} {cache : Cache} {idx : Index}
    (h : (buildIndex W cache).1 = .ok idx) {args : Dict Text Json}
    (hargs : WellTyped args) {t : Text} (hcategory : args.get? "category".toList = some (.str t))
    (hall : showAll args = true) :
    ∃ l shown, (toolSkillsList W cache H servers args).1 = .ok l ∧
      (skillsListAll W cache t).1 = .ok shown ∧
      l.skills = shown.map publicEntry := by
  have hshows : ∀ c, hideIn H servers args c = .ok none := fun c => by rw [hideIn, if_pos hall]
  have hfilter : ∀ cs : List Entry, cs.filter (shows (hideIn H servers args)) = cs := fun cs =>
    List.filter_eq_self.mpr fun c _ => shows_iff.mpr (hshows c)
  rw [toolSkillsList_eq h hargs, skillsListAll]
  generalize buildIndex W cache = built at h
  obtain ⟨r, cache'⟩ := built
  cases h
  refine ⟨_, _,
    skillsList_eq_ok_iff.mpr ⟨_, categoryOf_str hcategory, fun c _ => ⟨none, hshows c⟩, rfl⟩,
    rfl, ?_⟩
  rw [listingOf, hfilter]
  rfl

end OracleSkills.Server
