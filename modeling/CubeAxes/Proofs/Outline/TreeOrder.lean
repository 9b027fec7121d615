import CubeAxes.Proofs.Outline.Order

/-!
# Tree order

Members put in hierarchical order stand as a walk over their hierarchy meets them: a member after all members that it lies below,
members under one parent as in the catalog, and the members of a subtree next to one another, whether or not the member at its top is
among them (`Outline.Consistent.inTreeOrder_of_pairwise`).
-/

namespace CubeAxes

/-- Of three entries that stand in a list in this order, what holds of each entry and those behind it holds of the first and the second, and
of the second and the third. -/
theorem pairwise_of_triple {α : Type} {R : α → α → Prop} {l : List α} (h : l.Pairwise R) {a b c : α} (hsub : [a, b, c].Sublist l) :
    R a b ∧ R b c := by
  have hpair := h.sublist hsub
  simp only [List.pairwise_cons, List.mem_cons, List.not_mem_nil, or_false, forall_eq_or_imp, forall_eq] at hpair
  exact ⟨hpair.1.1, hpair.2.1⟩

/-- A key that stands between two keys that have a common start has that start too. -/
theorem SortKeys.prefix_of_between {p k l n : List Nat} (hk : p <+: k) (hn : p <+: n) (hkl : keyLe k l) (hln : keyLe l n) : p <+: l := by
  induction p generalizing k l n with
  | nil => exact List.nil_prefix
  | cons a p ih =>
    obtain ⟨ks, rfl, hks⟩ := List.cons_prefix_iff.1 hk
    obtain ⟨ns, rfl, hns⟩ := List.cons_prefix_iff.1 hn
    cases l with
    | nil => nomatch hkl
    | cons b ls =>
      rw [keyLe] at hkl hln
      by_cases hab : a = b
      · subst hab
        rw [if_pos rfl] at hkl hln
        exact List.cons_prefix_cons.2 ⟨rfl, ih hks hns hkl hln⟩
      · rw [if_neg hab, decide_eq_true_eq] at hkl
        rw [if_neg (Ne.symm hab), decide_eq_true_eq] at hln
        omega

namespace Outline

/-- A member belongs to the subtree of another when it is that member or lies below it. -/
def Within (o : Outline) (top m : Member) : Prop := m = top ∨ o.isBelow m top.uniqueName = true

/-- Members as a walk over their hierarchy meets them. -/
structure InTreeOrder (o : Outline) (ms : List Member) : Prop where
  ancestors : ms.Pairwise fun a b => o.isBelow a b.uniqueName = false
  siblings : ms.Pairwise fun a b => a.parent = b.parent → a.ordinal < b.ordinal
  subtrees : ∀ top, o.Holds top → ∀ a b c, [a, b, c].Sublist ms → o.Within top a → o.Within top c → o.Within top b

variable {o : Outline}

/-- A member belongs to the subtree of another when the other's key starts its own. -/
theorem Consistent.within_iff (hc : Consistent o) {top m : Member} (ht : o.Holds top) (hm : o.Holds m)
    (hh : top.hierarchy = m.hierarchy) : o.Within top m ↔ o.ordinals top <+: o.ordinals m := by
  rw [Within, hc.isBelow_iff hm ht, hc.prefix_ordinals_iff ht hm hh]
  constructor
  · rintro (rfl | ⟨hlt, hanc⟩)
    · exact ⟨Nat.le_refl _, ancestor_self o m⟩
    · exact ⟨Nat.le_of_lt hlt, hanc⟩
  · rintro ⟨hle, hanc⟩
    rcases Nat.lt_or_eq_of_le hle with hlt | heq
    · exact Or.inr ⟨hlt, hanc⟩
    · rw [heq, ancestor_self] at hanc
      exact Or.inl hanc

/-- A subtree lies in one hierarchy. -/
theorem Consistent.hierarchy_of_within (hc : Consistent o) {top m : Member} (ht : o.Holds top) (hm : o.Holds m)
    (h : o.Within top m) : top.hierarchy = m.hierarchy := by
  rcases h with rfl | hbelow
  · rfl
  · obtain ⟨hlt, hanc⟩ := (hc.isBelow_iff hm ht).1 hbelow
    rw [← hanc, hc.hierarchy_ancestor hm (Nat.le_of_lt hlt)]

/-- In members of a hierarchy whose keys are in order those of a subtree stand next to one another. -/
theorem Consistent.within_of_pairwise (hc : Consistent o) {hierarchy : String} {ms : List Member} (hms : o.HoldsAll hierarchy ms)
    (h : ms.Pairwise fun a b => o.orderLe a b) {top : Member} (ht : o.Holds top) {a b c : Member} (hsub : [a, b, c].Sublist ms)
    (hwa : o.Within top a) (hwc : o.Within top c) : o.Within top b := by
  have hin : ∀ m ∈ [a, b, c], o.Holds m ∧ m.hierarchy = hierarchy := fun m hm => hms m (hsub.subset hm)
  obtain ⟨⟨ha, hah⟩, ⟨hb, hbh⟩, ⟨hcm, hch⟩⟩ : (o.Holds a ∧ a.hierarchy = hierarchy) ∧ (o.Holds b ∧ b.hierarchy = hierarchy) ∧
      (o.Holds c ∧ c.hierarchy = hierarchy) := by simpa using hin
  obtain ⟨hab, hbc⟩ := pairwise_of_triple h hsub
  have hh : top.hierarchy = hierarchy := (hc.hierarchy_of_within ht ha hwa).trans hah
  rw [hc.within_iff ht ha (hh.trans hah.symm)] at hwa
  rw [hc.within_iff ht hcm (hh.trans hch.symm)] at hwc
  rw [hc.within_iff ht hb (hh.trans hbh.symm)]
  exact SortKeys.prefix_of_between hwa hwc hab hbc

/-- Members of a hierarchy each of which precedes those behind it are in tree order. -/
theorem Consistent.inTreeOrder_of_pairwise (hc : Consistent o) {hierarchy : String} {ms : List Member}
    (hms : o.HoldsAll hierarchy ms) (h : ms.Pairwise o.Precedes) : o.InTreeOrder ms := by
  refine ⟨h.imp_of_mem fun {a b} ha hb hab => ?_, h.imp_of_mem fun {a b} ha hb hab => ?_, ?_⟩
  · exact hc.isBelow_of_precedes (hms a ha).1 (hms b hb).1 ((hms a ha).2.trans (hms b hb).2.symm) hab
  · exact hc.ordinal_lt_of_precedes (hms a ha).1 (hms b hb).1 hab
  · intro top ht a b c hsub
    exact hc.within_of_pairwise hms (h.imp_of_mem fun ha hb => hc.keyLe_of_precedes (hms _ ha).1 (hms _ hb).1) ht hsub

end Outline

end CubeAxes
