import OracleSkills.Coding.MarkedLines
import OracleSkills.Python.Dict
import OracleSkills.Python.Paths
import Mathlib.Logic.Relation

/-!
# Symbolic links

A tree with symbolic links, as the system and as `os.path.realpath` go through it. The system enters
one component after another, puts the target of a link in its place, and fails at what is not there,
at what is no directory, and after too many links. `realpath` (as it is from Python 3.13 on) goes on
where the system fails: it keeps a table of the links that it has resolved, ignores errors, and
leaves a link that leads to itself in the path.

`realpath_of_resolves`: where the system gets to a place, `realpath` gives that place.
`realpath_clean`: what `realpath` gives is a place that leads to itself, up to a point from which on
the system leads nowhere. So a result that the system can get to is where it says.
-/

namespace Links

open Python Relation

/-- A place in a tree: the names on the way from the root. -/
abbrev Loc := List Text

/-- What is at a place. -/
inductive Inode where
  | dir
  | file (bytes : List UInt8)
  | link (target : Text)
  | other
  deriving DecidableEq

/-- A tree: what is there below the root, each in a directory. -/
structure Fs where
  entries : Dict Loc Inode
  parent : ∀ e ∈ entries, e.1.dropLast = [] ∨ entries.get? e.1.dropLast = some .dir

/-- The components of a path: `path.split("/")`. -/
def parts (path : Text) : List Text := path.splitOn '/'

/-- A component that is a name. -/
structure IsName (c : Text) : Prop where
  ne_nil : c ≠ []
  ne_dot : c ≠ ['.']
  ne_dots : c ≠ ['.', '.']
  noSlash : '/' ∉ c

namespace Fs

/-- What is at a place. -/
def node (fs : Fs) (p : Loc) : Option Inode := if p = [] then some .dir else fs.entries.get? p

/-! ### The system -/

/-- One component on from `p`: where it leads, and what is to be entered from there first, which is
the target of a link. -/
def enter (fs : Fs) (p : Loc) (c : Text) : Option (Loc × List Text) :=
  if fs.node p ≠ some .dir then none
  else if c = [] ∨ c = ['.'] then some (p, [])
  else if c = ['.', '.'] then some (p.dropLast, [])
  else
    match fs.node (p ++ [c]) with
    | none => none
    | some (.link target) => some (if isabs target then [] else p, parts target)
    | some _ => some (p ++ [c], [])

/-- Entering components up to the first link, which is left to `follow`. -/
def walkWith (fs : Fs) (follow : Loc → List Text → Option Loc) : Loc → List Text → Option Loc
  | p, [] => some p
  | p, c :: cs =>
    match fs.enter p c with
    | none => none
    | some (q, []) => fs.walkWith follow q cs
    | some (q, d :: ds) => follow q (d :: ds ++ cs)

/-- Entering components, with at most so many links on the way. -/
def walk (fs : Fs) : ℕ → Loc → List Text → Option Loc
  | 0 => fs.walkWith fun _ _ => none
  | links + 1 => fs.walkWith (fs.walk links)

/-! ### `realpath` -/

/-- What `realpath` has before it: a component, or the end of a link's target. -/
inductive Item where
  | part (c : Text)
  | mark (link : Loc)

/-- What an entry can still bring: the target of a link that `seen` does not have, and its end. -/
def weight (seen : Dict Loc (Option Loc)) (e : Loc × Inode) : ℕ :=
  match e.2 with
  | .link target => if e.1 ∈ seen.keys then 0 else (parts target).length + 1
  | _ => 0

/-- What entries can still bring. -/
def pendingOf (seen : Dict Loc (Option Loc)) : List (Loc × Inode) → ℕ
  | [] => 0
  | e :: es => weight seen e + pendingOf seen es

/-- What all links can still bring. -/
def pending (fs : Fs) (seen : Dict Loc (Option Loc)) : ℕ := pendingOf seen fs.entries

theorem weight_set_le (seen : Dict Loc (Option Loc)) (p : Loc) (v : Option Loc) (e : Loc × Inode) :
    weight (seen.set p v) e ≤ weight seen e := by
  unfold weight
  split
  · simp only [Dict.mem_keys_set]
    split_ifs with h h' h'
    · exact le_rfl
    · exact Nat.zero_le _
    · exact absurd (Or.inr h') h
    · exact le_rfl
  · exact le_rfl

theorem pendingOf_set_le (seen : Dict Loc (Option Loc)) (p : Loc) (v : Option Loc)
    (es : List (Loc × Inode)) :
    pendingOf (seen.set p v) es ≤ pendingOf seen es := by
  induction es with
  | nil => exact le_rfl
  | cons e es ih => exact Nat.add_le_add (weight_set_le seen p v e) ih

/-- A link that is seen for the first time brings no more than was pending for it. -/
theorem pendingOf_set_lt {seen : Dict Loc (Option Loc)} {p : Loc} {target : Text}
    (hnew : seen.get? p = none) (v : Option Loc)
    {es : List (Loc × Inode)} (hmem : (p, .link target) ∈ es) :
    pendingOf (seen.set p v) es + ((parts target).length + 1) ≤ pendingOf seen es := by
  have hbefore : weight seen (p, .link target) = (parts target).length + 1 :=
    if_neg (Dict.get?_eq_none_iff.mp hnew)
  have hafter : weight (seen.set p v) (p, .link target) = 0 :=
    if_pos (Dict.mem_keys_set.mpr (Or.inl rfl))
  induction es with
  | nil => cases hmem
  | cons e es ih =>
    rw [pendingOf, pendingOf]
    rcases List.mem_cons.mp hmem with rfl | hmem
    · have hle := pendingOf_set_le seen p v es
      omega
    · have hle := weight_set_le seen p v e
      have hlt := ih hmem
      omega

theorem pending_set_lt (fs : Fs) {seen : Dict Loc (Option Loc)} {p : Loc} {target : Text}
    (hnode : fs.node p = some (.link target))
    (hnew : seen.get? p = none) (v : Option Loc) :
    fs.pending (seen.set p v) + ((parts target).length + 1) ≤ fs.pending seen := by
  rw [node] at hnode
  split_ifs at hnode with hroot
  · cases hnode
  · exact pendingOf_set_lt hnew v (Dict.mem_of_get? hnode)

/-- `os.path.realpath` from `path` on, with a stack of what is before it, and the places that the
links led to which it has seen: `none` for a link whose target it has not come to the end of. -/
def realpathFrom (fs : Fs) (path : Loc) (rest : List Item) (seen : Dict Loc (Option Loc)) : Loc :=
  match rest with
  | [] => path
  | .mark link :: rest => fs.realpathFrom path rest (seen.set link (some path))
  | .part c :: rest =>
    if c = [] ∨ c = ['.'] then fs.realpathFrom path rest seen
    else if c = ['.', '.'] then fs.realpathFrom path.dropLast rest seen
    else
      match _hnode : fs.node (path ++ [c]) with
      | some (.link target) =>
        match hseen : seen.get? (path ++ [c]) with
        | some (some p) => fs.realpathFrom p rest seen
        -- the link leads to itself
        | some none => fs.realpathFrom (path ++ [c]) rest seen
        | none =>
          fs.realpathFrom (if isabs target then [] else path)
            ((parts target).map .part ++ .mark (path ++ [c]) :: rest)
            (seen.set (path ++ [c]) none)
      | _ => fs.realpathFrom (path ++ [c]) rest seen
termination_by fs.pending seen + rest.length
decreasing_by
  · have := pendingOf_set_le seen link (some path) fs.entries
    simp only [List.length_cons, pending]
    omega
  · simp
  · simp
  · simp
  · simp
  · have := fs.pending_set_lt ‹_› hseen none
    simp only [List.length_append, List.length_map, List.length_cons]
    omega
  · simp

/-- The place that a path starts from. -/
def start (cwd : Loc) (path : Text) : Loc := if isabs path then [] else cwd

/-- `os.path.realpath(path)`, as a place. -/
def realpath (fs : Fs) (cwd : Loc) (path : Text) : Loc :=
  fs.realpathFrom (start cwd path) ((parts path).map .part) []

/-! ### Runs of the system -/

/-- One component on, with no limit on links. -/
inductive Step (fs : Fs) : Loc × List Text → Loc × List Text → Prop
  | enter {p q : Loc} {c : Text} {ds : List Text} (h : fs.enter p c = some (q, ds))
    (cs : List Text) : fs.Step (p, c :: cs) (q, ds ++ cs)

/-- The system gets to the place `q`. -/
def Resolves (fs : Fs) (x : Loc × List Text) (q : Loc) : Prop := ReflTransGen fs.Step x (q, [])

/-- The system gets nowhere. -/
def Dead (fs : Fs) (x : Loc × List Text) : Prop := ∀ q, ¬ fs.Resolves x q

/-- The system comes from `x` to `y`, or gets nowhere. -/
def Leads (fs : Fs) (x y : Loc × List Text) : Prop := ReflTransGen fs.Step x y ∨ fs.Dead x

section

variable {fs : Fs} {x y z : Loc × List Text} {p q r : Loc} {c : Text} {cs ds es : List Text}

theorem Step.unique (h : fs.Step x y) (h' : fs.Step x z) : y = z := by
  cases h with
  | enter h cs =>
    cases h' with
    | enter h' =>
      rw [h, Option.some.injEq, Prod.mk.injEq] at h'
      rw [h'.1, h'.2]

theorem not_step_nil : ¬ fs.Step (p, []) y := by
  intro h
  cases h

/-- What the system gets to, it gets to from every place on the way. -/
theorem Resolves.of_reaches (h : fs.Resolves x q) (hy : ReflTransGen fs.Step x y) :
    fs.Resolves y q := by
  have hunique : Relator.RightUnique fs.Step := fun _ _ _ h h' => h.unique h'
  rcases ReflTransGen.total_of_right_unique hunique h hy with hback | hon
  · rcases ReflTransGen.cases_head hback with rfl | ⟨z, hstep, -⟩
    · exact .refl
    · exact absurd hstep not_step_nil
  · exact hon

/-- It gets to one place. -/
theorem Resolves.unique (h : fs.Resolves x q) (h' : fs.Resolves x r) : q = r := by
  rcases ReflTransGen.cases_head (h.of_reaches h') with heq | ⟨z, hstep, -⟩
  · exact (Prod.mk.inj heq).1.symm
  · exact absurd hstep not_step_nil

theorem dead_of_reaches (hy : ReflTransGen fs.Step x y) (h : fs.Dead y) :
    fs.Dead x := fun q hq => h q (hq.of_reaches hy)

theorem dead_of_enter (h : fs.enter p c = none) (cs : List Text) : fs.Dead (p, c :: cs) := by
  intro q hq
  rcases ReflTransGen.cases_head hq with heq | ⟨z, hstep, -⟩
  · cases heq
  · cases hstep with
    | enter h' =>
      rw [h] at h'
      cases h'

theorem Step.append (h : fs.Step x y) (es : List Text) :
    fs.Step (x.1, x.2 ++ es) (y.1, y.2 ++ es) := by
  cases h with
  | @enter p q c ds h cs =>
    show fs.Step (p, c :: (cs ++ es)) (q, ds ++ cs ++ es)
    rw [List.append_assoc]
    exact .enter h (cs ++ es)

theorem reaches_append (h : ReflTransGen fs.Step (p, cs) (q, ds)) (es : List Text) :
    ReflTransGen fs.Step (p, cs ++ es) (q, ds ++ es) :=
  ReflTransGen.lift (fun x => (x.1, x.2 ++ es)) (fun _ _ hstep => hstep.append es) _ _ h

/-- Getting through components is getting through the first of them, and then through the others. -/
theorem Resolves.split (h : fs.Resolves (p, cs ++ es) q) :
    ∃ m, fs.Resolves (p, cs) m ∧ fs.Resolves (m, es) q := by
  generalize hx : (p, cs ++ es) = x at h
  induction h using ReflTransGen.head_induction_on generalizing p cs with
  | refl =>
    obtain ⟨rfl, hnil⟩ := Prod.mk.inj hx
    obtain ⟨rfl, rfl⟩ := List.append_eq_nil_iff.mp hnil
    exact ⟨p, .refl, .refl⟩
  | @head x y hstep hon ih =>
    subst hx
    cases cs with
    | nil => exact ⟨p, .refl, .head hstep hon⟩
    | cons c cs =>
      cases hstep with
      | @enter _ r _ ds h =>
        obtain ⟨m, hm, hq⟩ : ∃ m, fs.Resolves (r, ds ++ cs) m ∧ fs.Resolves (m, es) q :=
          ih (congrArg (Prod.mk r) (List.append_assoc ds cs es))
        exact ⟨m, .head (.enter h cs) hm, hq⟩

theorem Resolves.append (h : fs.Resolves (p, cs) q) (h' : fs.Resolves (q, ds) r) :
    fs.Resolves (p, cs ++ ds) r :=
  ReflTransGen.trans (reaches_append h ds) h'

theorem Dead.append (h : fs.Dead (p, cs)) (es : List Text) : fs.Dead (p, cs ++ es) := by
  intro q hq
  obtain ⟨m, hm, -⟩ := hq.split
  exact h m hm

theorem Leads.trans (h : fs.Leads x y) (h' : fs.Leads y z) : fs.Leads x z := by
  rcases h with h | h
  · exact h'.imp (fun h' => h.trans h') fun h' => dead_of_reaches h h'
  · exact Or.inr h

theorem Leads.append (h : fs.Leads (p, cs) (q, ds)) (es : List Text) :
    fs.Leads (p, cs ++ es) (q, ds ++ es) :=
  h.imp (fun h => reaches_append h es) fun h => h.append es

/-- Where the system gets somewhere, it comes to an end. -/
theorem acc_of_resolves (h : fs.Resolves x q) : Acc (fun a b => fs.Step b a) x := by
  induction h using ReflTransGen.head_induction_on with
  | refl => exact ⟨_, fun y hy => absurd hy not_step_nil⟩
  | head hstep _ ih => exact ⟨_, fun y hy => hstep.unique hy ▸ ih⟩

/-- **What leads to itself leads nowhere.** -/
theorem dead_of_cycle (h : TransGen fs.Step (p, [c]) (p, c :: cs)) (es : List Text) :
    fs.Dead (p, c :: es) := by
  intro q hq
  have hacc := (acc_of_resolves hq).transGen
  generalize hx : (p, c :: es) = x at hacc
  induction hacc generalizing es q with
  | intro x _ ih =>
    subst hx
    have hon : TransGen fs.Step (p, c :: es) (p, c :: (cs ++ es)) :=
      TransGen.lift (fun x => (x.1, x.2 ++ es)) (fun _ _ hstep => hstep.append es) _ _ h
    exact ih (p, c :: (cs ++ es)) (transGen_swap.mpr hon) (cs ++ es) q
      (hq.of_reaches hon.to_reflTransGen) rfl

/-- With a limit on links, the system gets to the same place. -/
theorem resolves_of_walk {links : ℕ} (h : fs.walk links p cs = some q) : fs.Resolves (p, cs) q := by
  have hwith : ∀ follow : Loc → List Text → Option Loc,
      (∀ p cs, follow p cs = some q → fs.Resolves (p, cs) q) →
      ∀ cs p, fs.walkWith follow p cs = some q → fs.Resolves (p, cs) q := by
    intro follow hfollow cs
    induction cs with
    | nil =>
      intro p h
      cases h
      exact .refl
    | cons c cs ih =>
      intro p h
      rw [walkWith] at h
      cases henter : fs.enter p c with
      | none =>
        rw [henter] at h
        cases h
      | some x =>
        obtain ⟨r, ds⟩ := x
        rw [henter] at h
        have hstep := Step.enter henter cs
        cases ds with
        | nil => exact .head hstep (ih r h)
        | cons d ds => exact .head hstep (hfollow _ _ h)
  induction links generalizing p cs with
  | zero => exact hwith _ (fun _ _ h => by cases h) cs p h
  | succ links ih => exact hwith _ (fun _ _ h => ih h) cs p h

/-! ### Names -/

theorem noSlash_of_mem_parts {path : Text} (h : c ∈ parts path) :
    '/' ∉ c := Coding.Format.sep_notMem_of_mem_splitOn h

theorem node_parent (h : fs.node (p ++ [c]) ≠ none) : fs.node p = some .dir := by
  obtain ⟨x, hx⟩ := Option.ne_none_iff_exists'.mp h
  rw [node, if_neg (by simp)] at hx
  have hparent := fs.parent _ (Dict.mem_of_get? hx)
  rw [List.dropLast_concat] at hparent
  rw [node]
  split_ifs with hroot
  · rfl
  · exact hparent.resolve_left hroot

/-- Entering a name. -/
theorem enter_name (hc : IsName c) : fs.enter p c =
    match fs.node (p ++ [c]) with
    | none => none
    | some (.link target) => some (if isabs target then [] else p, parts target)
    | some _ => some (p ++ [c], []) := by
  have hname : ¬ (c = [] ∨ c = ['.']) := not_or.mpr ⟨hc.ne_nil, hc.ne_dot⟩
  rw [enter, if_neg hname, if_neg hc.ne_dots]
  by_cases hdir : fs.node p = some .dir
  · rw [if_neg (not_not.mpr hdir)]
  · have hnone : fs.node (p ++ [c]) = none := by
      by_contra hne
      exact hdir (node_parent hne)
    rw [if_pos hdir, hnone]

/-- The place leads to itself. -/
def Solid (fs : Fs) (p : Loc) : Prop := fs.Resolves ([], p) p

/-- The place, and each above it, leads to itself or nowhere. -/
structure Clean (fs : Fs) (p : Loc) : Prop where
  names : ∀ c ∈ p, IsName c
  real : ∀ q, q <+: p → fs.Solid q ∨ fs.Dead ([], q)

theorem clean_nil : fs.Clean [] where
  names _ hc := absurd hc List.not_mem_nil
  real q hq := by
    obtain rfl := List.prefix_nil.mp hq
    exact Or.inl .refl

theorem Clean.above (h : fs.Clean p) (hq : q <+: p) : fs.Clean q :=
  ⟨fun c hc => h.names c (hq.subset hc), fun r hr => h.real r (hr.trans hq)⟩

theorem Clean.concat (h : fs.Clean p) (hc : IsName c)
    (hreal : fs.Solid (p ++ [c]) ∨ fs.Dead ([], p ++ [c])) : fs.Clean (p ++ [c]) where
  names d hd := by
    rw [List.mem_append, List.mem_singleton] at hd
    rcases hd with hd | rfl
    · exact h.names d hd
    · exact hc
  real q hq := by
    rcases List.prefix_concat_iff.mp hq with rfl | hq
    · exact hreal
    · exact h.real q hq

/-- Where a clean place leads nowhere on, the place below it leads nowhere. -/
theorem Clean.dead_concat (h : fs.Clean p) (hdead : fs.Dead (p, [c])) : fs.Dead ([], p ++ [c]) := by
  intro q hq
  obtain ⟨m, hm, hq⟩ := hq.split
  rcases h.real p (List.prefix_refl p) with hreal | hreal
  · exact hdead q (hm.unique hreal ▸ hq)
  · exact hreal m hm

/-- A directory leads to itself. -/
theorem solid_of_dir (hnames : ∀ d ∈ p, IsName d) (h : fs.node p = some .dir) : fs.Solid p := by
  induction p using List.reverseRecOn with
  | nil => exact .refl
  | append_singleton p c ih =>
    have hc : IsName c := hnames c (by simp)
    have habove : fs.Solid p :=
      ih (fun d hd => hnames d (List.mem_append_left _ hd)) (node_parent (by rw [h]; simp))
    have henter : fs.enter p c = some (p ++ [c], []) := by rw [enter_name hc, h]
    exact habove.append (.single (.enter henter []))

theorem clean_of_dir (hnames : ∀ d ∈ p, IsName d) (h : fs.node p = some .dir) : fs.Clean p := by
  induction p using List.reverseRecOn with
  | nil => exact clean_nil
  | append_singleton p c ih =>
    have habove :=
      ih (fun d hd => hnames d (List.mem_append_left _ hd)) (node_parent (by rw [h]; simp))
    exact habove.concat (hnames c (by simp)) (Or.inl (solid_of_dir hnames h))

/-- What is there and is no link leads to itself, and what is not there leads nowhere. -/
theorem Clean.enter (h : fs.Clean p) (hc : IsName c)
    (hlink : ∀ target, fs.node (p ++ [c]) ≠ some (.link target)) :
    fs.Clean (p ++ [c]) ∧ ∀ es, fs.Leads (p, c :: es) (p ++ [c], es) := by
  cases hnode : fs.node (p ++ [c]) with
  | none =>
    have hdead : ∀ es, fs.Dead (p, c :: es) := dead_of_enter (by rw [enter_name hc, hnode])
    exact ⟨h.concat hc (Or.inr (h.dead_concat (hdead []))), fun es => Or.inr (hdead es)⟩
  | some x =>
    have hsome : fs.enter p c = some (p ++ [c], []) := by
      rw [enter_name hc, hnode]
      cases x with
      | link target => exact absurd hnode (hlink target)
      | dir => rfl
      | file bytes => rfl
      | other => rfl
    have hdir := node_parent (by rw [hnode]; simp : fs.node (p ++ [c]) ≠ none)
    have hstep : ∀ es, fs.Step (p, c :: es) (p ++ [c], es) := fun es => .enter hsome es
    exact ⟨h.concat hc (Or.inl ((solid_of_dir h.names hdir).append (.single (hstep [])))),
      fun es => Or.inl (.single (hstep es))⟩

/-! ### What `realpath` gives -/

/-- The components before it. -/
def partsOf (rest : List Item) : List Text :=
  rest.filterMap fun i =>
    match i with
    | .part c => some c
    | .mark _ => none

theorem partsOf_map_part (ds : List Text) (above : List Item) :
    partsOf (ds.map .part ++ above) = ds ++ partsOf above := by
  simp [partsOf, List.filterMap_map]

/-- A mark behind the components of a link's target is the one that the link has put there, or was
there. -/
theorem mark_cases {ds : List Text} {link other : Loc} {rest above below : List Item}
    (heq : ds.map .part ++ .mark link :: rest = above ++ .mark other :: below) :
    (above = ds.map .part ∧ other = link) ∨
      ∃ above', above = ds.map .part ++ .mark link :: above' ∧
          rest = above' ++ .mark other :: below := by
  induction ds generalizing above with
  | nil =>
    cases above with
    | nil =>
      cases heq
      exact Or.inl ⟨rfl, rfl⟩
    | cons i above =>
      obtain ⟨rfl, hrest⟩ := List.cons.inj heq
      exact Or.inr ⟨above, rfl, hrest⟩
  | cons d ds ih =>
    cases above with
    | nil => cases heq
    | cons i above =>
      obtain ⟨rfl, htail⟩ := List.cons.inj heq
      rcases ih htail with ⟨rfl, rfl⟩ | ⟨above', rfl, hrest⟩
      · exact Or.inl ⟨rfl, rfl⟩
      · exact Or.inr ⟨above', rfl, hrest⟩

/-- **The invariant** of `realpath`, which has come from `x` to `path`: the system comes to the same
place, or gets nowhere. So it is with each link that has been seen, and with each that is open,
whose mark is still to come. -/
structure Inv (fs : Fs) (x : Loc × List Text) (path : Loc) (rest : List Item)
    (seen : Dict Loc (Option Loc)) : Prop where
  clean : fs.Clean path
  leads : fs.Leads x (path, partsOf rest)
  noSlash : ∀ c, Item.part c ∈ rest → '/' ∉ c
  seen_clean : ∀ link p, seen.get? link = some (some p) → fs.Clean p
  seen_leads : ∀ p c q, seen.get? (p ++ [c]) = some (some q) → fs.Leads (p, [c]) (q, [])
  open_mem : ∀ link, seen.get? link = some none → Item.mark link ∈ rest
  marks : ∀ above link below, rest = above ++ .mark link :: below →
    ∃ p c, link = p ++ [c] ∧ (TransGen fs.Step (p, [c]) (path, partsOf above) ∨ fs.Dead (p, [c]))

/-- `realpath` is a component further on, and the system with it. -/
theorem Inv.advance {rest : List Item} {seen : Dict Loc (Option Loc)}
    (h : fs.Inv x p (.part c :: rest) seen) (hclean : fs.Clean q)
    (hleads : ∀ es, fs.Leads (p, c :: es) (q, es)) : fs.Inv x q rest seen where
  clean := hclean
  leads := h.leads.trans (hleads _)
  noSlash d hd := h.noSlash d (List.mem_cons_of_mem _ hd)
  seen_clean := h.seen_clean
  seen_leads := h.seen_leads
  open_mem link hlink := by
    rcases List.mem_cons.mp (h.open_mem link hlink) with hmark | hmark
    · cases hmark
    · exact hmark
  marks above link below heq := by
    obtain ⟨r, d, rfl, hlink⟩ :=
      h.marks (.part c :: above) link below (by rw [heq, List.cons_append])
    refine ⟨r, d, rfl, ?_⟩
    rcases hlink with hlink | hlink
    · exact (hleads (partsOf above)).imp (fun hon => hlink.trans_left hon) fun hdead =>
        dead_of_reaches hlink.to_reflTransGen hdead
    · exact Or.inr hlink

/-- It has come to the end of a link's target. -/
theorem Inv.close {link : Loc} {rest : List Item} {seen : Dict Loc (Option Loc)}
    (h : fs.Inv x p (.mark link :: rest) seen) :
    fs.Inv x p rest (seen.set link (some p)) := by
  obtain ⟨r, c, rfl, hlink⟩ := h.marks [] link rest rfl
  refine ⟨h.clean, h.leads, fun d hd => h.noSlash d (List.mem_cons_of_mem _ hd),
    fun other q hq => ?_, fun r' c' q hq => ?_,
    fun other hother => ?_, fun above other below heq => ?_⟩
  · rcases Dict.get?_of_get?_set hq with ⟨-, hp⟩ | hq
    · exact Option.some.inj hp ▸ h.clean
    · exact h.seen_clean other q hq
  · rcases Dict.get?_of_get?_set hq with ⟨heq, hp⟩ | hq
    · obtain ⟨rfl, hc⟩ := List.append_inj' heq rfl
      obtain rfl := List.singleton_inj.mp hc
      obtain rfl := Option.some.inj hp
      exact hlink.imp_left TransGen.to_reflTransGen
    · exact h.seen_leads r' c' q hq
  · rcases Dict.get?_of_get?_set hother with ⟨-, hp⟩ | hother'
    · cases hp
    · rcases List.mem_cons.mp (h.open_mem other hother') with hmark | hmark
      · cases hmark
        rw [Dict.get?_set_self] at hother
        cases hother
      · exact hmark
  · exact h.marks (.mark (r ++ [c]) :: above) other below (by rw [heq, List.cons_append])

/-- It follows a link that it has not seen. -/
theorem Inv.follow {rest : List Item} {seen : Dict Loc (Option Loc)} {target : Text}
    (h : fs.Inv x p (.part c :: rest) seen) (hc : IsName c)
    (hnode : fs.node (p ++ [c]) = some (.link target)) :
    fs.Inv x (if isabs target then [] else p) ((parts target).map .part ++ .mark (p ++ [c]) :: rest)
        (seen.set (p ++ [c]) none) := by
  have hstep : ∀ es,
      fs.Step (p, c :: es) (if isabs target then [] else p, parts target ++ es) := fun es =>
    .enter (by rw [enter_name hc, hnode]) es
  refine ⟨?_, ?_, fun d hd => ?_, fun other q hq => ?_, fun r d q hq => ?_, fun other hother => ?_,
    fun above other below heq => ?_⟩
  · split_ifs
    · exact clean_nil
    · exact h.clean
  · rw [partsOf_map_part]
    exact h.leads.trans (Or.inl (.single (hstep _)))
  · rw [List.mem_append, List.mem_cons] at hd
    rcases hd with hd | hd | hd
    · obtain ⟨d', hd', heq⟩ := List.mem_map.mp hd
      cases heq
      exact noSlash_of_mem_parts hd'
    · cases hd
    · exact h.noSlash d (List.mem_cons_of_mem _ hd)
  · rcases Dict.get?_of_get?_set hq with ⟨-, hnone⟩ | hq
    · cases hnone
    · exact h.seen_clean other q hq
  · rcases Dict.get?_of_get?_set hq with ⟨-, hnone⟩ | hq
    · cases hnone
    · exact h.seen_leads r d q hq
  · refine List.mem_append_right _ ?_
    rcases Dict.get?_of_get?_set hother with ⟨rfl, -⟩ | hother
    · exact List.mem_cons_self ..
    · rcases List.mem_cons.mp (h.open_mem other hother) with hmark | hmark
      · cases hmark
      · exact List.mem_cons_of_mem _ hmark
  · rcases mark_cases heq with ⟨rfl, rfl⟩ | ⟨above', rfl, hrest⟩
    · refine ⟨p, c, rfl, Or.inl (.single ?_)⟩
      rw [← List.append_nil ((parts target).map Item.part), partsOf_map_part]
      exact hstep []
    · obtain ⟨r, d, rfl, hlink⟩ :=
        h.marks (.part c :: above') other below (by rw [hrest, List.cons_append])
      refine ⟨r, d, rfl, hlink.imp_left fun hlink => ?_⟩
      rw [partsOf_map_part]
      exact hlink.tail (hstep _)

/-- A link that has been seen: the place that it led to. -/
theorem Inv.recall {rest : List Item} {seen : Dict Loc (Option Loc)}
    (h : fs.Inv x p (.part c :: rest) seen)
    (hseen : seen.get? (p ++ [c]) = some (some q)) : fs.Inv x q rest seen :=
  h.advance (h.seen_clean _ _ hseen) fun es => (h.seen_leads p c q hseen).append es

/-- A link that is still open leads to itself. -/
theorem Inv.loop {rest : List Item} {seen : Dict Loc (Option Loc)}
    (h : fs.Inv x p (.part c :: rest) seen) (hc : IsName c)
    (hseen : seen.get? (p ++ [c]) = some none) : fs.Inv x (p ++ [c]) rest seen := by
  have hdead : ∀ es, fs.Dead (p, c :: es) := by
    intro es
    obtain ⟨above, below, heq⟩ := List.append_of_mem (h.open_mem _ hseen)
    obtain ⟨r, d, hlink, hback⟩ := h.marks above _ below heq
    obtain ⟨rfl, hd⟩ := List.append_inj' hlink rfl
    obtain rfl := List.singleton_inj.mp hd
    rcases hback with hback | hback
    · cases above with
      | nil => cases heq
      | cons i above =>
        obtain ⟨rfl, -⟩ := List.cons.inj heq
        exact dead_of_cycle hback es
    · exact hback.append es
  exact h.advance (h.clean.concat hc (Or.inr (h.clean.dead_concat (hdead [])))) fun es =>
    Or.inr (hdead es)

/-- **What `realpath` gives** is clean, and where the system gets to. -/
theorem realpathFrom_spec {rest : List Item} {seen : Dict Loc (Option Loc)}
    (h : fs.Inv x p rest seen) :
    fs.Clean (fs.realpathFrom p rest seen) ∧ fs.Leads x (fs.realpathFrom p rest seen, []) := by
  have hleads : ∀ {p q : Loc} {c : Text}, (fs.node p = some .dir → fs.enter p c = some (q, [])) →
      ∀ es, fs.Leads (p, c :: es) (q, es) := by
    intro p q c henter es
    by_cases hdir : fs.node p = some .dir
    · exact Or.inl (.single (.enter (henter hdir) es))
    · exact Or.inr (dead_of_enter (if_pos hdir) es)
  have hname : ∀ {p : Loc} {c : Text} {rest : List Item} {seen : Dict Loc (Option Loc)},
      fs.Inv x p (.part c :: rest) seen →
      ¬ (c = [] ∨ c = ['.']) → c ≠ ['.', '.'] → IsName c := fun h hstay hup =>
    ⟨fun hnil => hstay (Or.inl hnil), fun hdot => hstay (Or.inr hdot), hup,
      h.noSlash _ (List.mem_cons_self ..)⟩
  fun_induction realpathFrom fs p rest seen with
  | case1 p seen => exact ⟨h.clean, h.leads⟩
  | case2 p seen link rest ih => exact ih h.close
  | case3 p seen c rest hc ih =>
    refine ih (h.advance h.clean (hleads fun hdir => ?_))
    rw [enter, if_neg (not_not.mpr hdir), if_pos hc]
  | case4 p seen rest hc ih =>
    refine ih (h.advance (h.clean.above (List.dropLast_prefix p)) (hleads fun hdir => ?_))
    rw [enter, if_neg (not_not.mpr hdir), if_neg hc, if_pos rfl]
  | case5 p seen c rest hstay hup target hnode q hseen ih => exact ih (h.recall hseen)
  | case6 p seen c rest hstay hup target hnode hseen ih =>
    exact ih (h.loop (hname h hstay hup) hseen)
  | case7 p seen c rest hstay hup target hnode hseen ih =>
    exact ih (h.follow (hname h hstay hup) hnode)
  | case8 p seen c rest hstay hup hnode ih =>
    obtain ⟨hclean, hon⟩ := h.clean.enter (hname h hstay hup) fun target ht => hnode target ht
    exact ih (h.advance hclean hon)

variable {cwd : Loc} {path : Text}

theorem inv_start (hcwd : fs.Clean cwd) (path : Text) :
    fs.Inv (start cwd path, parts path) (start cwd path) ((parts path).map .part) [] := by
  have hparts : partsOf ((parts path).map .part) = parts path := by
    rw [← List.append_nil ((parts path).map Item.part), partsOf_map_part]
    exact List.append_nil _
  have hmark : ∀ link, Item.mark link ∉ (parts path).map Item.part := by simp
  refine ⟨?_, ?_, fun c hc => ?_, fun _ _ h => (by cases h), fun _ _ _ h => (by cases h),
    fun _ h => (by cases h), fun above link below heq => ?_⟩
  · rw [start]
    split_ifs
    · exact clean_nil
    · exact hcwd
  · rw [hparts]
    exact Or.inl .refl
  · obtain ⟨d, hd, heq⟩ := List.mem_map.mp hc
    cases heq
    exact noSlash_of_mem_parts hd
  · exact absurd (heq ▸ List.mem_append_right _ (List.mem_cons_self ..)) (hmark link)

/-- **What `realpath` gives is clean.** -/
theorem realpath_clean (hcwd : fs.Clean cwd) (path : Text) : fs.Clean (fs.realpath cwd path) :=
  (realpathFrom_spec (inv_start hcwd path)).1

/-- **Where the system gets to a place, `realpath` gives it.** -/
theorem realpath_of_resolves (hcwd : fs.Clean cwd)
    (h : fs.Resolves (start cwd path, parts path) q) : fs.realpath cwd path = q := by
  rcases (realpathFrom_spec (inv_start hcwd path)).2 with hon | hdead
  · exact Resolves.unique hon h
  · exact absurd h (hdead q)

end

end Fs

/-! ### The path of a place -/

/-- The path of a place, from the root. -/
def pathOf (p : Loc) : Text := '/' :: join ['/'] p

section

variable {p q : Loc} {c : Text}

theorem isabs_pathOf (p : Loc) : isabs (pathOf p) = true := rfl

theorem parts_pathOf (hnames : ∀ d ∈ p, IsName d) (hne : p ≠ []) : parts (pathOf p) = [] :: p := by
  have hjoin : pathOf p = join ['/'] ([] :: p) := by
    obtain ⟨c, cs, rfl⟩ := List.exists_cons_of_ne_nil hne
    rw [join_cons_cons]
    rfl
  rw [parts, hjoin, join, List.splitOn_intercalate]
  · intro l hl
    rcases List.mem_cons.mp hl with rfl | hl
    · exact List.not_mem_nil
    · exact (hnames l hl).noSlash
  · exact List.cons_ne_nil _ _

theorem components_pathOf (hnames : ∀ d ∈ p, IsName d) : components (pathOf p) = p := by
  by_cases hne : p = []
  · subst hne
    rfl
  · have hall : ∀ d ∈ p, decide (d ≠ [] ∧ d ≠ ['.']) = true := fun d hd =>
      decide_eq_true ⟨(hnames d hd).ne_nil, (hnames d hd).ne_dot⟩
    have hparts : (pathOf p).splitOn '/' = [] :: p := parts_pathOf hnames hne
    rw [components, hparts, List.filter_cons_of_neg (by simp), List.filter_eq_self.mpr hall]

theorem pathOf_inj (hp : ∀ d ∈ p, IsName d) (hq : ∀ d ∈ q, IsName d) (h : pathOf p = pathOf q) :
    p = q := by
  rw [← components_pathOf hp, h, components_pathOf hq]

/-- **The common path** of two places is the first one exactly if the second is there or below. -/
theorem commonpath_pathOf (hp : ∀ d ∈ p, IsName d) (hq : ∀ d ∈ q, IsName d) :
    ∃ common, commonpath (pathOf p) (pathOf q) = some common ∧ (common = pathOf p ↔ p <+: q) := by
  have hcommon : commonpath (pathOf p) (pathOf q) = some (pathOf (commonPrefix p q)) := by
    rw [commonpath, if_neg (by simp [isabs_pathOf]), isabs_pathOf, components_pathOf hp,
      components_pathOf hq]
    rfl
  refine ⟨_, hcommon, ?_⟩
  rw [← commonPrefix_eq_left_iff]
  exact ⟨fun h => pathOf_inj (fun d hd => hp d (commonPrefix_subset p q hd)) hp h, congrArg pathOf⟩

end

/-! ### Files -/

namespace Fs

variable {fs : Fs} {links : ℕ} {cwd p q : Loc} {c path : Text}

/-- The place that a path leads to. -/
def resolve (fs : Fs) (links : ℕ) (cwd : Loc) (path : Text) : Option Loc :=
  fs.walk links (start cwd path) (parts path)

/-- `os.path.isfile(path)`. -/
def isfile (fs : Fs) (links : ℕ) (cwd : Loc) (path : Text) : Bool :=
  match (fs.resolve links cwd path).bind fs.node with
  | some (.file _) => true
  | _ => false

/-- `os.path.lexists(path)`: something is there, and be it a link. -/
def lexists (fs : Fs) (links : ℕ) (cwd : Loc) (path : Text) : Bool :=
  ((fs.walk links (start cwd path) (parts path).dropLast).bind fun p =>
    fs.enter p ((parts path).getLast?.getD [])).isSome

/-- What is read of a path that is opened with `O_NOFOLLOW`: nothing, if the last component is a
link or there is no file. -/
def readNoFollow (fs : Fs) (links : ℕ) (cwd : Loc) (path : Text) : Option (List UInt8) :=
  match (fs.walk links (start cwd path) (parts path).dropLast).bind fun p =>
      fs.enter p ((parts path).getLast?.getD []) with
  | some (p, []) =>
    match fs.node p with
    | some (.file bytes) => some bytes
    | _ => none
  | _ => none

/-- What is there in a directory, is there in a directory. -/
theorem exists_resolve_of_lexists {dir : Text} (hne : dir ≠ []) (hc : '/' ∉ c)
    (h : fs.lexists links cwd (dir ++ '/' :: c) = true) :
    ∃ p, fs.resolve links cwd dir = some p := by
  have hstart : start cwd (dir ++ '/' :: c) = start cwd dir := by
    obtain ⟨d, ds, rfl⟩ := List.exists_cons_of_ne_nil hne
    rfl
  have hparts : parts (dir ++ '/' :: c) = parts dir ++ [c] := by
    rw [parts, List.splitOn_append_cons_self, List.splitOn_eq_singleton hc]
    rfl
  rw [lexists, hstart, hparts, List.dropLast_concat] at h
  cases hwalk : fs.walk links (start cwd dir) (parts dir) with
  | none =>
    rw [hwalk] at h
    cases h
  | some p => exact ⟨p, hwalk⟩

theorem resolves_root {cs : List Text} (h : fs.Resolves ([], [] :: cs) q) :
    fs.Resolves ([], cs) q := by
  have henter : fs.enter [] [] = some ([], []) := by simp [enter, node]
  exact h.of_reaches (.single (.enter henter cs))

/-- The system that gets through a clean place is there. -/
theorem Clean.eq_of_resolves (hp : fs.Clean p) (h : fs.Resolves ([], p) q) : q = p := by
  rcases hp.real p (List.prefix_refl p) with hreal | hreal
  · exact h.unique hreal
  · exact absurd h (hreal q)

/-- **The path of a clean place** leads nowhere else. -/
theorem resolve_pathOf (hp : fs.Clean p) (h : fs.resolve links cwd (pathOf p) = some q) :
    q = p := by
  have hwalk : fs.Resolves ([], parts (pathOf p)) q := resolves_of_walk h
  by_cases hne : p = []
  · subst hne
    exact clean_nil.eq_of_resolves (resolves_root (resolves_root hwalk))
  · rw [parts_pathOf hp.names hne] at hwalk
    exact hp.eq_of_resolves (resolves_root hwalk)

/-- **What is read at the path of a clean place** is the file that is there. -/
theorem readNoFollow_pathOf {bytes : List UInt8} (hp : fs.Clean p) (hne : p ≠ [])
    (h : fs.readNoFollow links cwd (pathOf p) = some bytes) : fs.node p = some (.file bytes) := by
  obtain ⟨d, c, rfl⟩ : ∃ d c, p = d ++ [c] :=
    ⟨p.dropLast, p.getLast hne, (List.dropLast_append_getLast hne).symm⟩
  have hc : IsName c := hp.names c (by simp)
  have hparts : parts (pathOf (d ++ [c])) = ([] :: d) ++ [c] := parts_pathOf hp.names hne
  rw [readNoFollow, hparts, List.dropLast_concat, List.getLast?_concat] at h
  cases hwalk : fs.walk links (start cwd (pathOf (d ++ [c]))) ([] :: d) with
  | none =>
    rw [hwalk] at h
    cases h
  | some m =>
    have hm : m = d :=
      (hp.above (List.prefix_append d [c])).eq_of_resolves (resolves_root (resolves_of_walk hwalk))
    subst hm
    rw [hwalk, Option.bind_some, Option.getD_some, enter_name hc] at h
    cases hnode : fs.node (m ++ [c]) with
    | none =>
      rw [hnode] at h
      cases h
    | some x =>
      rw [hnode] at h
      cases x with
      | file data =>
        simp only [hnode] at h
        rw [Option.some.inj h]
      | link target =>
        -- a link is not opened: its target has at least one component
        obtain ⟨e, es, htarget⟩ := List.exists_cons_of_ne_nil (List.splitOn_ne_nil '/' target)
        simp only [parts, htarget] at h
        cases h
      | dir =>
        simp only [hnode] at h
        cases h
      | other =>
        simp only [hnode] at h
        cases h

/-! ### Places that are there -/

/-- **What is there and is no link** is entered from the root through the directories above it,
which takes no link. -/
theorem walkWith_of_node {x : Inode} (hnames : ∀ d ∈ p, IsName d) (hnode : fs.node p = some x)
    (hlink : ∀ target, x ≠ .link target)
    (follow : Loc → List Text → Option Loc) (es : List Text) :
    fs.walkWith follow [] (p ++ es) = fs.walkWith follow p es := by
  induction p using List.reverseRecOn generalizing x es with
  | nil => rfl
  | append_singleton p c ih =>
    have hc : IsName c := hnames c (by simp)
    have hdir : fs.node p = some .dir := node_parent (by rw [hnode]; simp)
    have henter : fs.enter p c = some (p ++ [c], []) := by
      rw [enter_name hc, hnode]
      cases x with
      | link target => exact absurd rfl (hlink target)
      | _ => rfl
    rw [List.append_assoc, ih (fun d hd => hnames d (List.mem_append_left _ hd)) hdir (by simp),
      List.singleton_append, walkWith, henter]

theorem walk_root (cs : List Text) : fs.walk links [] ([] :: cs) = fs.walk links [] cs := by
  have henter : fs.enter [] [] = some ([], []) := by simp [enter, node]
  cases links <;> rw [walk, walkWith, henter]

theorem walk_of_node {x : Inode} (hnames : ∀ d ∈ p, IsName d) (hnode : fs.node p = some x)
    (hlink : ∀ target, x ≠ .link target)
    (es : List Text) : fs.walk links [] (p ++ es) = fs.walk links p es := by
  cases links <;> exact walkWith_of_node hnames hnode hlink _ es

/-- The path of what is there and is no link leads there. -/
theorem resolve_of_node {x : Inode} (hnames : ∀ d ∈ p, IsName d) (hnode : fs.node p = some x)
    (hlink : ∀ target, x ≠ .link target) :
    fs.resolve links cwd (pathOf p) = some p := by
  have hstart : start cwd (pathOf p) = [] := if_pos (isabs_pathOf p)
  have hstay : fs.walk links p [] = some p := by cases links <;> rfl
  rw [resolve, hstart]
  by_cases hne : p = []
  · subst hne
    exact (walk_root [[]]).trans ((walk_root []).trans hstay)
  · have hwalk : fs.walk links [] (p ++ []) = fs.walk links p [] :=
      walk_of_node hnames hnode hlink []
    rw [List.append_nil] at hwalk
    rw [parts_pathOf hnames hne, walk_root, hwalk, hstay]

/-- **A file that is there is read**, when it is opened with `O_NOFOLLOW`. -/
theorem readNoFollow_of_node {bytes : List UInt8} (hnames : ∀ d ∈ p, IsName d)
    (hnode : fs.node p = some (.file bytes)) :
    fs.readNoFollow links cwd (pathOf p) = some bytes := by
  have hne : p ≠ [] := by
    rintro rfl
    cases hnode
  obtain ⟨d, c, rfl⟩ : ∃ d c, p = d ++ [c] :=
    ⟨p.dropLast, p.getLast hne, (List.dropLast_append_getLast hne).symm⟩
  have hdir : fs.node d = some .dir := node_parent (by rw [hnode]; simp)
  have hwalk : fs.walk links [] (d ++ []) = fs.walk links d [] :=
    walk_of_node (fun e he => hnames e (List.mem_append_left _ he)) hdir (by simp) []
  rw [List.append_nil] at hwalk
  have hstay : fs.walk links d [] = some d := by cases links <;> rfl
  have hstart : start cwd (pathOf (d ++ [c])) = [] := if_pos (isabs_pathOf _)
  have hparts : parts (pathOf (d ++ [c])) = ([] :: d) ++ [c] := parts_pathOf hnames hne
  rw [readNoFollow, hstart, hparts, List.dropLast_concat, List.getLast?_concat, walk_root, hwalk,
    hstay, Option.bind_some, Option.getD_some, enter_name (hnames c (by simp)), hnode]
  simp only [hnode]

/-- A regular file at the path of a clean place is at the place. -/
theorem node_of_isfile (hp : fs.Clean p) (h : fs.isfile links cwd (pathOf p) = true) :
    ∃ bytes, fs.node p = some (.file bytes) := by
  rw [isfile] at h
  cases hresolve : fs.resolve links cwd (pathOf p) with
  | none =>
    rw [hresolve] at h
    cases h
  | some q =>
    rw [hresolve, Option.bind_some, resolve_pathOf hp hresolve] at h
    cases hnode : fs.node p with
    | none =>
      rw [hnode] at h
      cases h
    | some x =>
      rw [hnode] at h
      cases x with
      | file bytes => exact ⟨bytes, rfl⟩
      | _ => cases h

/-- **The path of a clean place** is that of a regular file exactly if there is one at the place. -/
theorem isfile_iff (hp : fs.Clean p) :
    fs.isfile links cwd (pathOf p) = true ↔ ∃ bytes, fs.node p = some (.file bytes) := by
  refine ⟨node_of_isfile hp, fun ⟨bytes, hnode⟩ => ?_⟩
  rw [isfile, resolve_of_node hp.names hnode (by simp), Option.bind_some, hnode]

end Fs

end Links
