import OracleSkills.Greedy.Fit
import Mathlib.Data.List.Sigma

/-!
# The marks of a greedy fit

A greedy fit is made of some of the items of a list, in the descending order of their keys. What it
decides is read back as marks on the list itself: an item is marked if it was passed over. Items may
be equal, so that they are told apart by their places. The results are those of the fit, in terms of
the marked list: what is spent is the sum over the list of what is not marked (`taken_eq`), and
`left_lt_of_marked` and `lt_of_marked` are those of `left_lt` and `pairwise_fit`.
-/

namespace Greedy

universe u v w

variable {α : Type u} {P : Type v} {M : Type w} [LinearOrder P] [AddCommGroup M] [LinearOrder M]
variable (p : α → Bool) (key : α → P) (cost : α → M) (spare : M) (l : List α)

/-- The items that are offered, with their places. -/
def offered : List (α × ℕ) := descending (fun x => key x.1) (l.zipIdx.filter fun x => p x.1)

/-- What is decided of them. -/
def decided : List ((α × ℕ) × Bool) := fit (fun x => cost x.1) spare (offered p key l)

/-- The item at `i` was passed over. -/
def passed (i : ℕ) : Bool := (decided p key cost spare l).any fun d => decide (d.1.2 = i) && !d.2

/-- The items, each with whether it was passed over. -/
def marks : List (α × Bool) := l.zipIdx.map fun x => (x.1, passed p key cost spare l x.2)

/-- Items that are in their order are offered as they stand. -/
theorem offered_of_pairwise
    (h : (l.zipIdx.filter fun x => p x.1).Pairwise fun x y => key y.1 ≤ key x.1) :
    offered p key l = l.zipIdx.filter fun x => p x.1 :=
  List.mergeSort_of_pairwise (h.imp fun hle => decide_eq_true hle)

theorem descending_map {β : Type*} (g : β → α) (l : List β) :
    descending key (l.map g) = (descending (fun b => key (g b)) l).map g :=
  (List.map_mergeSort (f := g) (l := l) fun _ _ _ _ => rfl).symm

theorem map_fst_offered : (offered p key l).map Prod.fst = descending key (l.filter p) := by
  have hfilter : l.filter p = (l.zipIdx.filter fun x => p x.1).map Prod.fst := by
    conv_lhs => rw [← List.zipIdx_map_fst 0 l, List.filter_map]
    rfl
  rw [hfilter, descending_map, offered]

theorem map_fst_decided :
    (decided p key cost spare l).map Prod.fst = offered p key l := map_fst_fit ..

/-- **The fit of the items themselves** is the one with their places. -/
theorem fit_eq :
    fit cost spare (descending key (l.filter p)) = (decided p key cost spare l).map fun d =>
    (d.1.1, d.2) := by
  rw [← map_fst_offered, fit_map, decided]

theorem map_fst_marks : (marks p key cost spare l).map Prod.fst = l := by
  rw [marks, List.map_map]
  exact List.zipIdx_map_fst 0 l

variable {p key cost spare l}

theorem mem_offered {x : α × ℕ} : x ∈ offered p key l ↔ x ∈ l.zipIdx ∧ p x.1 = true :=
  ((descending_perm _ _).mem_iff).trans List.mem_filter

/-- Two items of the list at one place are one. -/
theorem eq_of_place {x y : α × ℕ} (hx : x ∈ l.zipIdx) (hy : y ∈ l.zipIdx) (h : x.2 = y.2) :
    x = y := by
  rw [List.mem_zipIdx_iff_getElem?] at hx hy
  exact Prod.ext (Option.some.inj (hx.symm.trans (h ▸ hy))) h

theorem mem_of_mem_decided {d : (α × ℕ) × Bool} (h : d ∈ decided p key cost spare l) :
    d.1 ∈ l.zipIdx ∧ p d.1.1 = true :=
  mem_offered.mp (map_fst_decided p key cost spare l ▸ List.mem_map_of_mem h)

/-- There is one decision on each place. -/
theorem nodup_decided : ((decided p key cost spare l).map fun d => d.1.2).Nodup := by
  have hplaces : ((offered p key l).map Prod.snd).Nodup :=
    (((descending_perm _ _).map Prod.snd).nodup_iff).mpr
      ((List.nodup_zipIdx_map_snd l).sublist (List.filter_sublist.map _))
  rw [← map_fst_decided p key cost spare l, List.map_map] at hplaces
  exact hplaces

theorem eq_of_decided {d e : (α × ℕ) × Bool} (hd : d ∈ decided p key cost spare l)
    (he : e ∈ decided p key cost spare l)
    (h : d.1.2 = e.1.2) : d = e := List.inj_on_of_nodup_map nodup_decided hd he h

/-- **The mark of an item** is the decision on it. -/
theorem passed_eq {d : (α × ℕ) × Bool} (hd : d ∈ decided p key cost spare l) :
    passed p key cost spare l d.1.2 = !d.2 := by
  rw [Bool.eq_iff_iff, passed, List.any_eq_true]
  constructor
  · rintro ⟨e, he, hpassed⟩
    rw [Bool.and_eq_true, decide_eq_true_eq] at hpassed
    exact eq_of_decided he hd hpassed.1 ▸ hpassed.2
  · exact fun h => ⟨d, hd, by simpa using h⟩

theorem decided_of_passed {x : α × ℕ} (hx : x ∈ l.zipIdx)
    (h : passed p key cost spare l x.2 = true) :
    (x, false) ∈ decided p key cost spare l := by
  rw [passed, List.any_eq_true] at h
  obtain ⟨d, hd, hpassed⟩ := h
  rw [Bool.and_eq_true, decide_eq_true_eq, Bool.not_eq_true'] at hpassed
  have heq : d = (x, false) :=
    Prod.ext (eq_of_place (mem_of_mem_decided hd).1 hx hpassed.1) hpassed.2
  exact heq ▸ hd

theorem decided_of_not_passed {x : α × ℕ} (hx : x ∈ l.zipIdx) (hp : p x.1 = true)
    (h : passed p key cost spare l x.2 = false) :
    (x, true) ∈ decided p key cost spare l := by
  have hmem : x ∈ offered p key l := mem_offered.mpr ⟨hx, hp⟩
  rw [← map_fst_decided p key cost spare l] at hmem
  obtain ⟨d, hd, rfl⟩ := List.mem_map.mp hmem
  rw [passed_eq hd, Bool.not_eq_false'] at h
  have heq : d = (d.1, true) := Prod.ext rfl h
  exact heq ▸ hd

/-- Only an item that is offered is marked. -/
theorem offered_of_passed {x : α × ℕ} (hx : x ∈ l.zipIdx)
    (h : passed p key cost spare l x.2 = true) : p x.1 = true :=
  (mem_of_mem_decided (decided_of_passed hx h)).2

/-- A marked item, at its place. -/
theorem getElem?_marks {i : ℕ} {m : α × Bool} :
    (marks p key cost spare l)[i]? = some m ↔ (m.1, i) ∈ l.zipIdx ∧
        passed p key cost spare l i = m.2 := by
  rw [List.mk_mem_zipIdx_iff_getElem?, marks, List.getElem?_map, List.getElem?_zipIdx]
  cases l[i]? with
  | none => simp
  | some a => simp [Prod.ext_iff, eq_comm]

theorem mem_marks {m : α × Bool} (h : m ∈ marks p key cost spare l) :
    ∃ i, (m.1, i) ∈ l.zipIdx ∧ passed p key cost spare l i = m.2 := by
  obtain ⟨i, hi⟩ := List.mem_iff_getElem?.mp h
  exact ⟨i, getElem?_marks.mp hi⟩

/-- **The items that are passed over** are the marked ones, in another order. -/
theorem passed_perm (p : α → Bool) (key : α → P) (cost : α → M) (spare : M) (l : List α) :
    (((decided p key cost spare l).filter fun d => !d.2).map fun d => d.1.1).Perm
    (((marks p key cost spare l).filter (·.2)).map Prod.fst) := by
  have hdecided : ((decided p key cost spare l).filter fun d => !d.2).map (fun d => d.1.1) =
      ((offered p key l).filter fun x => passed p key cost spare l x.2).map Prod.fst := by
    rw [← map_fst_decided p key cost spare l, List.filter_map, List.map_map]
    refine congrArg (List.map _) (List.filter_congr fun d hd => ?_)
    rw [Function.comp_apply, passed_eq hd]
  have hmarks : ((marks p key cost spare l).filter (·.2)).map Prod.fst =
      (l.zipIdx.filter fun x => passed p key cost spare l x.2).map Prod.fst := by
    rw [marks, List.filter_map, List.map_map]
    rfl
  have hoffered : (l.zipIdx.filter fun x => p x.1).filter (fun x => passed p key cost spare l x.2) =
      l.zipIdx.filter fun x => passed p key cost spare l x.2 := by
    rw [List.filter_filter]
    refine List.filter_congr fun x hx => ?_
    rw [Bool.eq_iff_iff, Bool.and_eq_true]
    exact ⟨fun h => h.1, fun h => ⟨h, offered_of_passed hx h⟩⟩
  rw [hdecided, hmarks, ← hoffered]
  exact ((descending_perm _ _).filter _).map _

/-- **What is spent** is what the items cost that are offered and not marked. -/
theorem taken_eq : taken (fun x => cost x.1) (decided p key cost spare l) =
    total (fun m => if p m.1 = true ∧ m.2 = false then cost m.1 else 0)
        (marks p key cost spare l) := by
  have hdecided : taken (fun x => cost x.1) (decided p key cost spare l) =
      total (fun x => if passed p key cost spare l x.2 then 0 else cost x.1) (offered p key l) := by
    rw [taken, ← map_fst_decided p key cost spare l, total_map]
    refine total_congr fun d hd => ?_
    rw [passed_eq hd]
    cases d.2 <;> rfl
  rw [hdecided, offered, total_perm (descending_perm _ _), total_filter, marks, total_map]
  refine total_congr fun x _ => ?_
  cases p x.1 <;> cases passed p key cost spare l x.2 <;> rfl

/-- The decisions are in the order of the keys, and of the places where the keys are equal. -/
theorem pairwise_decided : (decided p key cost spare l).Pairwise
    fun d e => key e.1.1 < key d.1.1 ∨ key e.1.1 = key d.1.1 ∧ d.1.2 < e.1.2 := by
  have hplaces : l.zipIdx.Pairwise fun x y => x.2 < y.2 := by
    have hrange : (l.zipIdx.map Prod.snd).Pairwise (· < ·) := by
      rw [List.zipIdx_map_snd]
      exact List.pairwise_lt_range'
    exact List.pairwise_map.mp hrange
  have hoffered := pairwise_descending (fun x : α × ℕ => key x.1) (hplaces.filter fun x => p x.1)
  rw [← offered, ← map_fst_decided p key cost spare l] at hoffered
  exact List.pairwise_map.mp hoffered

variable [IsOrderedAddMonoid M]

/-- **What is left** is too little for a marked item. -/
theorem left_lt_of_marked (hcost : ∀ a ∈ l, 0 ≤ cost a) {m : α × Bool}
    (hm : m ∈ marks p key cost spare l) (h : m.2 = true) :
    spare - taken (fun x => cost x.1) (decided p key cost spare l) < cost m.1 := by
  obtain ⟨i, hi, hpassed⟩ := mem_marks hm
  have hoffered : ∀ x ∈ offered p key l, 0 ≤ cost x.1 := fun x hx =>
    hcost x.1 (List.fst_mem_of_mem_zipIdx (mem_offered.mp hx).1)
  exact left_lt hoffered (decided_of_passed hi (hpassed.trans h)) rfl

/-- **An item that is taken**, and comes after a marked one by its key, or else by its place, costs
less. -/
theorem lt_of_marked (hcost : ∀ a ∈ l, 0 ≤ cost a) {i j : ℕ} {a b : α}
    (ha : (marks p key cost spare l)[i]? = some (a, true))
    (hb : (marks p key cost spare l)[j]? = some (b, false)) (hp : p b = true)
    (hafter : key b < key a ∨ key b = key a ∧ i < j) : cost b < cost a := by
  rw [getElem?_marks] at ha hb
  have hfit : (decided p key cost spare l).Pairwise fun d e => d.2 = false → e.2 = true →
      cost e.1.1 < cost d.1.1 :=
    pairwise_fit fun x hx => hcost x.1 (List.fst_mem_of_mem_zipIdx (mem_offered.mp hx).1)
  obtain ⟨n, hn, hda⟩ := List.getElem_of_mem (decided_of_passed ha.1 ha.2)
  obtain ⟨k, hk, hdb⟩ := List.getElem_of_mem (decided_of_not_passed hb.1 hp hb.2)
  rcases lt_trichotomy n k with hlt | rfl | hlt
  · -- the marked item was offered first
    have hcheaper := List.pairwise_iff_getElem.mp hfit n k hn hk hlt
    rw [hda, hdb] at hcheaper
    exact hcheaper rfl rfl
  · exact absurd (congrArg Prod.snd (hda.symm.trans hdb)) Bool.false_ne_true
  · have hbefore := List.pairwise_iff_getElem.mp pairwise_decided k n hk hn hlt
    rw [hda, hdb] at hbefore
    rcases hbefore with hkey | ⟨hkey, hplace⟩ <;> rcases hafter with hkey' | ⟨hkey', hplace'⟩
    · exact absurd hkey' hkey.asymm
    · exact absurd hkey' hkey.ne'
    · exact absurd hkey hkey'.ne'
    · exact absurd hplace' hplace.asymm

end Greedy
