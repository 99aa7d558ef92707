import OracleSkills.Greedy.Marks

/-!
# A greedy fit with more to spend

A greedy fit is no monotone thing: with more to spend, or with fewer items that want it, a large
item may be taken that was passed over, and a small one behind it be passed over that was taken.
What holds is that an item is given up only for one that was offered before it (`gives_way`), and
that what is spent grows: either the fit is the same one, or more is spent than there was
(`fit_eq_or_lt`). The marks of a list say the same of its places (`gives_way_marked`).
-/

namespace Greedy

universe u v w

theorem total_le_total {α : Type u} {M : Type w} [AddCommMonoid M] [PartialOrder M]
    [IsOrderedAddMonoid M] {f g : α → M} {as : List α}
    (h : ∀ a ∈ as, f a ≤ g a) : total f as ≤ total g as := by
  induction as with
  | nil => exact le_rfl
  | cons a as ih =>
    exact add_le_add (h a (List.mem_cons_self ..)) (ih fun b hb => h b (List.mem_cons_of_mem _ hb))

section Fits

variable {α : Type u} {M : Type w} [AddCommGroup M] [LinearOrder M] [IsOrderedAddMonoid M]
  {cost : α → M} {spare spare' : M} {as : List α} {a : α} {keep : α → Bool}

/-- **An item is given up for one before it**: if there is more to spend, and some items are not
offered any more, then an item that was taken, and is passed over now, comes behind one that was
passed over and is taken now. -/
theorem gives_way (hcost : ∀ a ∈ as, 0 ≤ cost a) (hspare : spare ≤ spare') (hnodup : as.Nodup)
    (ha : (a, true) ∈ fit cost spare as) (ha' : (a, false) ∈ fit cost spare' (as.filter keep)) :
    ∃ b, [b, a].Sublist as ∧ keep b = true ∧ (b, false) ∈ fit cost spare as ∧
        (b, true) ∈ fit cost spare' (as.filter keep) := by
  induction as generalizing spare spare' with
  | nil => cases ha
  | cons c as ih =>
    obtain ⟨hc, hrest⟩ := List.forall_mem_cons.mp hcost
    obtain ⟨hnew, hnodup⟩ := List.nodup_cons.mp hnodup
    have hmem : ∀ {s : M} {bs : List α} {b : α} {t : Bool}, (b, t) ∈ fit cost s bs →
        b ∈ bs := fun {s bs b t} h =>
      map_fst_fit cost s bs ▸ List.mem_map_of_mem h
    cases hkeep : keep c with
    | false =>
      -- `c` is not offered any more, and if it was taken then there is still more to spend
      rw [List.filter_cons_of_neg (by simp [hkeep])] at ha' ⊢
      have hne : a ≠ c := fun heq => hnew (heq ▸ List.mem_of_mem_filter (hmem ha'))
      rw [fit] at ha ⊢
      split_ifs at ha ⊢ with hfits
      · have htail := (List.mem_cons.mp ha).resolve_left fun heq => hne (congrArg Prod.fst heq)
        obtain ⟨b, hsub, hb, hpassed, htaken⟩ :=
          ih hrest ((sub_le_self _ hc).trans hspare) hnodup htail ha'
        exact ⟨b, hsub.cons _, hb, List.mem_cons_of_mem _ hpassed, htaken⟩
      · have htail := (List.mem_cons.mp ha).resolve_left fun heq => hne (congrArg Prod.fst heq)
        obtain ⟨b, hsub, hb, hpassed, htaken⟩ := ih hrest hspare hnodup htail ha'
        exact ⟨b, hsub.cons _, hb, List.mem_cons_of_mem _ hpassed, htaken⟩
    | true =>
      rw [List.filter_cons_of_pos hkeep] at ha' ⊢
      rw [fit] at ha ha' ⊢
      rw [fit]
      by_cases hfits : cost c ≤ spare
      · -- it is taken by both
        rw [if_pos hfits] at ha ⊢
        rw [if_pos (hfits.trans hspare)] at ha' ⊢
        have htail' := (List.mem_cons.mp ha').resolve_left fun heq => by cases heq
        have hne : a ≠ c := fun heq => hnew (heq ▸ List.mem_of_mem_filter (hmem htail'))
        have htail := (List.mem_cons.mp ha).resolve_left fun heq => hne (congrArg Prod.fst heq)
        obtain ⟨b, hsub, hb, hpassed, htaken⟩ :=
          ih hrest (sub_le_sub_right hspare _) hnodup htail htail'
        exact ⟨b, hsub.cons _, hb, List.mem_cons_of_mem _ hpassed, List.mem_cons_of_mem _ htaken⟩
      · rw [if_neg hfits] at ha ⊢
        have htail := (List.mem_cons.mp ha).resolve_left fun heq => by cases heq
        by_cases hfits' : cost c ≤ spare'
        · -- it is the one that is taken now
          rw [if_pos hfits'] at ha' ⊢
          exact ⟨c, (List.singleton_sublist.mpr (hmem htail)).cons_cons c, hkeep,
            List.mem_cons_self .., List.mem_cons_self ..⟩
        · rw [if_neg hfits'] at ha' ⊢
          have hne : a ≠ c := fun heq => hnew (heq ▸ hmem htail)
          have htail' := (List.mem_cons.mp ha').resolve_left fun heq => hne (congrArg Prod.fst heq)
          obtain ⟨b, hsub, hb, hpassed, htaken⟩ := ih hrest hspare hnodup htail htail'
          exact ⟨b, hsub.cons _, hb, List.mem_cons_of_mem _ hpassed, List.mem_cons_of_mem _ htaken⟩

/-- **More is spent**: with more to spend the fit is the same one, or spends more than there was. -/
theorem fit_eq_or_lt (hcost : ∀ a ∈ as, 0 ≤ cost a) (hspare : spare ≤ spare') :
    fit cost spare' as = fit cost spare as ∨ spare < taken cost (fit cost spare' as) := by
  induction as generalizing spare spare' with
  | nil => exact .inl rfl
  | cons c as ih =>
    obtain ⟨hc, hrest⟩ := List.forall_mem_cons.mp hcost
    by_cases hfits : cost c ≤ spare
    · rw [fit, if_pos (hfits.trans hspare), fit, if_pos hfits]
      refine (ih hrest (sub_le_sub_right hspare (cost c))).imp (congrArg _) fun hlt => ?_
      rw [taken, total, if_pos rfl]
      exact sub_lt_iff_lt_add'.mp hlt
    · rw [fit, fit, if_neg hfits]
      by_cases hfits' : cost c ≤ spare'
      · refine .inr ?_
        have hnonneg : 0 ≤ taken cost (fit cost (spare' - cost c) as) := taken_nonneg fun e he =>
          hrest e.1 (map_fst_fit cost (spare' - cost c) as ▸ List.mem_map_of_mem he)
        rw [if_pos hfits', taken, total, if_pos rfl]
        exact (not_le.mp hfits).trans_le (le_add_of_nonneg_right hnonneg)
      · rw [if_neg hfits']
        refine (ih hrest hspare).imp (congrArg _) fun hlt => ?_
        rw [taken, total, if_neg Bool.false_ne_true, zero_add]
        exact hlt

omit [IsOrderedAddMonoid M] in
/-- Where nothing is left, nothing is spent. -/
theorem taken_of_neg (hcost : ∀ a ∈ as, 0 ≤ cost a) (hspare : spare < 0) :
    taken cost (fit cost spare as) = 0 := by
  induction as with
  | nil => rfl
  | cons c as ih =>
    obtain ⟨hc, hrest⟩ := List.forall_mem_cons.mp hcost
    rw [fit, if_neg (not_le.mpr (hspare.trans_le hc)), taken, total,
      if_neg Bool.false_ne_true, zero_add]
    exact ih hrest

/-- **No less is spent** where there is more to spend. -/
theorem taken_mono (hcost : ∀ a ∈ as, 0 ≤ cost a) (hspare : spare ≤ spare') :
    taken cost (fit cost spare as) ≤ taken cost (fit cost spare' as) := by
  rcases fit_eq_or_lt hcost hspare with heq | hlt
  · rw [heq]
  · rcases lt_or_ge spare 0 with hneg | hnonneg
    · rw [taken_of_neg hcost hneg]
      exact taken_nonneg fun e he => hcost e.1 (map_fst_fit cost spare' as ▸ List.mem_map_of_mem he)
    · exact (taken_le hnonneg as).trans hlt.le

end Fits

section Places

variable {α : Type u} {P : Type v} {M : Type w} [LinearOrder P] [AddCommGroup M] [LinearOrder M]
  {p keep : α → Bool} {key : α → P} {cost : α → M} {spare spare' : M} {l : List α}

/-- One item is offered before another one: by its key, or else by its place. -/
def Before (key : α → P) (x y : α × ℕ) : Prop := key y.1 < key x.1 ∨ key y.1 = key x.1 ∧ x.2 < y.2

theorem pairwise_offered (p : α → Bool) (key : α → P) (l : List α) :
    (offered p key l).Pairwise (Before key) := by
  have hplaces : l.zipIdx.Pairwise fun x y => x.2 < y.2 := by
    have hrange : (l.zipIdx.map Prod.snd).Pairwise (· < ·) := by
      rw [List.zipIdx_map_snd]
      exact List.pairwise_lt_range'
    exact List.pairwise_map.mp hrange
  exact pairwise_descending (fun x : α × ℕ => key x.1) (hplaces.filter fun x => p x.1)

theorem Before.asymm {x y : α × ℕ} (h : Before key x y) : ¬ Before key y x := by
  rintro (hlt | ⟨heq, hlt⟩) <;> rcases h with hlt' | ⟨heq', hlt'⟩
  · exact hlt.asymm hlt'
  · exact hlt.ne' heq'
  · exact hlt'.ne' heq
  · exact hlt.asymm hlt'

theorem nodup_offered : (offered p key l).Nodup := (pairwise_offered p key l).imp fun h heq => by
  subst heq
  exact h.asymm h

/-- **Fewer items** are offered in the same order. -/
theorem offered_filter :
    offered (fun a => p a && keep a) key l = (offered p key l).filter fun x => keep x.1 := by
  have hperm : (offered (fun a => p a && keep a) key l).Perm
      ((offered p key l).filter fun x => keep x.1) := by
    refine (descending_perm _ _).trans ?_
    have hfilter : l.zipIdx.filter (fun x => p x.1 && keep x.1) =
        (l.zipIdx.filter fun x => p x.1).filter fun x => keep x.1 := by
      rw [List.filter_filter]
      exact List.filter_congr fun x _ => Bool.and_comm _ _
    rw [hfilter]
    exact ((descending_perm _ _).filter _).symm
  exact hperm.eq_of_pairwise (fun x y _ _ hxy hyx => absurd hyx hxy.asymm)
    (pairwise_offered _ key l)
    ((pairwise_offered p key l).filter _)

variable [IsOrderedAddMonoid M]

/-- **An item is given up for one before it**, told by the places of the list. -/
theorem gives_way_marked (hcost : ∀ a ∈ l, 0 ≤ cost a) (hspare : spare ≤ spare') {j : ℕ} {a : α}
    (hp : p a = true) (ha : (marks p key cost spare l)[j]? = some (a, false))
    (ha' : (marks (fun a => p a && keep a) key cost spare' l)[j]? = some (a, true)) :
    ∃ i b, (marks p key cost spare l)[i]? = some (b, true) ∧
      (marks (fun a => p a && keep a) key cost spare' l)[i]? = some (b, false) ∧ keep b = true ∧
          Before key (b, i) (a, j) := by
  rw [getElem?_marks] at ha ha'
  have hdecided : decided (fun a => p a && keep a) key cost spare' l =
      fit (fun x => cost x.1) spare' ((offered p key l).filter fun x => keep x.1) := by
        rw [decided, offered_filter]
  have hoffered : ∀ x ∈ offered p key l, 0 ≤ cost x.1 := fun x hx =>
    hcost x.1 (List.fst_mem_of_mem_zipIdx (mem_offered.mp hx).1)
  obtain ⟨⟨b, i⟩, hsub, hkeep, hpassed, htaken⟩ := gives_way hoffered hspare nodup_offered
    (decided_of_not_passed ha.1 hp ha.2)
    (hdecided ▸ decided_of_passed ha'.1 ha'.2)
  rw [← hdecided] at htaken
  have hbefore : Before key (b, i) (a, j) := by
    have hpair := (pairwise_offered p key l).sublist hsub
    exact (List.pairwise_cons.mp hpair).1 _ (List.mem_singleton_self _)
  refine ⟨i, b, getElem?_marks.mpr ⟨(mem_of_mem_decided hpassed).1, ?_⟩,
    getElem?_marks.mpr ⟨(mem_of_mem_decided htaken).1, ?_⟩, hkeep, hbefore⟩
  · exact passed_eq hpassed
  · exact passed_eq htaken

end Places

end Greedy
