import CubeAxes.Proofs.Outline.TreeOrder

/-!
# Sorting members

Keys are worked out once and remembered (`SortKeys.after`), so what a sort gives could depend on what was sorted before. It does not:
sorts of members that are held remember nothing wrong (`Outline.Consistent.remembers_after`). What they give is the same members in
preorder (`Outline.Preordered`), also where some are repeated, and there is only one way to do so (`Outline.Orderly.sort_canonical`).
-/

namespace CubeAxes

/-- The keys remembered after lists of members were sorted, one after the other. -/
def SortKeys.after (cat : Catalog) (keys : SortKeys) : List (List Member) → SortKeys
  | [] => keys
  | ms :: earlier => after cat (keys.sort cat ms).2 earlier

namespace Outline

variable {o : Outline}

/-! ## What is remembered -/

/-- Sorting members that are held, over and over, remembers nothing wrong. -/
theorem Consistent.remembers_after (hc : Consistent o) {keys : SortKeys} (hk : o.Remembers keys) {earlier : List (List Member)}
    (h : ∀ ms ∈ earlier, ∀ m ∈ ms, o.Holds m) : o.Remembers (keys.after o.catalog earlier) := by
  induction earlier generalizing keys with
  | nil => exact hk
  | cons ms earlier ih =>
    obtain ⟨keys', hsort, hk'⟩ := hc.sort_eq (h ms List.mem_cons_self) hk
    rw [SortKeys.after, hsort]
    exact ih hk' fun ns hns => h ns (List.mem_cons_of_mem ms hns)

/-! ## Preorder -/

/-- Members in preorder, some of them maybe more than once: none stands before one that it lies below, those below a member, with that
member or without it, stand next to one another, and those with the same parent stand as their level gives them. -/
structure Preordered (o : Outline) (ms : List Member) : Prop where
  ancestors : ms.Pairwise fun a b => o.isBelow a b.uniqueName = false
  subtrees : ∀ top, o.Holds top → ∀ a b c, [a, b, c].Sublist ms → o.Within top a → o.Within top c → o.Within top b
  below : ∀ top, o.Holds top → ∀ a b c, [a, b, c].Sublist ms →
    o.isBelow a top.uniqueName = true → o.isBelow c top.uniqueName = true → o.isBelow b top.uniqueName = true
  siblings : ms.Pairwise fun a b => a.parent = b.parent → a = b ∨ [a, b].Sublist (o.rows a.hierarchy a.depth)

/-- Of two members of a level the one of the lesser ordinal comes first in the catalog. -/
theorem Consistent.sublist_rows (hc : Consistent o) {a b : Member} (ha : o.Holds a) (hb : o.Holds b)
    (hh : a.hierarchy = b.hierarchy) (hd : a.depth = b.depth) (hlt : a.ordinal < b.ordinal) :
    [a, b].Sublist (o.rows a.hierarchy a.depth) := by
  have hrow : b ∈ o.rows a.hierarchy a.depth := hc.mem_rows.2 ⟨hb, hh.symm, hd.symm⟩
  have hasc := hc.pairwise_rows a.hierarchy a.depth
  obtain ⟨before, after, hrows⟩ := List.append_of_mem (hc.mem_rows.2 ⟨ha, rfl, rfl⟩)
  rw [hrows] at hrow hasc ⊢
  have hnot : b ∉ before := by
    intro hin
    have := (List.pairwise_append.1 hasc).2.2 b hin a List.mem_cons_self
    omega
  have hafter : b ∈ after := by
    rcases List.mem_append.1 hrow with hin | hin
    · exact absurd hin hnot
    · rcases List.mem_cons.1 hin with rfl | hin
      · exact absurd hlt (Nat.lt_irrefl _)
      · exact hin
  exact ((List.singleton_sublist.2 hafter).cons_cons a).trans (List.sublist_append_right before _)

/-- No member lies below itself. -/
theorem Consistent.isBelow_self (hc : Consistent o) {m : Member} (hm : o.Holds m) : o.isBelow m m.uniqueName = false := by
  rw [← Bool.not_eq_true]
  intro h
  exact absurd ((hc.isBelow_iff hm hm).1 h).1 (Nat.lt_irrefl _)

/-- Members of a hierarchy whose keys are in order are in preorder. -/
theorem Consistent.preordered_of_pairwise (hc : Consistent o) {hierarchy : String} {ms : List Member}
    (hms : o.HoldsAll hierarchy ms) (h : ms.Pairwise fun a b => o.orderLe a b) : o.Preordered ms := by
  have hprecedes : ∀ a ∈ ms, ∀ b ∈ ms, o.orderLe a b → a = b ∨ o.Precedes a b := by
    intro a ha b hb hab
    by_cases heq : a = b
    · exact Or.inl heq
    · exact Or.inr (hc.precedes_of_keyLe (hms a ha).1 (hms b hb).1 ((hms a ha).2.trans (hms b hb).2.symm) hab heq)
  have hancestors : ms.Pairwise fun a b => o.isBelow a b.uniqueName = false := by
    refine h.imp_of_mem fun {a b} ha hb hab => ?_
    rcases hprecedes a ha b hb hab with rfl | hpre
    · exact hc.isBelow_self (hms a ha).1
    · exact hc.isBelow_of_precedes (hms a ha).1 (hms b hb).1 ((hms a ha).2.trans (hms b hb).2.symm) hpre
  refine ⟨hancestors, fun top ht a b c hsub => hc.within_of_pairwise hms h ht hsub, ?_, ?_⟩
  · intro top ht a b c hsub ha hcb
    rcases hc.within_of_pairwise hms h ht hsub (Or.inr ha) (Or.inr hcb) with rfl | hb
    · rw [(pairwise_of_triple hancestors hsub).1] at ha
      nomatch ha
    · exact hb
  · refine h.imp_of_mem fun {a b} ha hb hab hpar => ?_
    rcases hprecedes a ha b hb hab with rfl | hpre
    · exact Or.inl rfl
    · have hlt := hc.ordinal_lt_of_precedes (hms a ha).1 (hms b hb).1 hpre hpar
      have hd := hc.depth_eq_of_parent_eq (hms a ha).1 (hms b hb).1 hpar
      exact Or.inr (hc.sublist_rows (hms a ha).1 (hms b hb).1 ((hms a ha).2.trans (hms b hb).2.symm) hd hlt)

/-- There is only one way to put members of a hierarchy in the order of their keys. -/
theorem Consistent.sortBy_congr (hc : Consistent o) {hierarchy : String} {ms ms' : List Member} (hms : o.HoldsAll hierarchy ms)
    (h : ms'.Perm ms) : sortBy o.orderLe ms' = sortBy o.orderLe ms := by
  refine (sortBy_eq_of_perm o.orderLe_trans o.orderLe_total ?_ h.symm).symm
  intro a ha b hb
  exact hc.orderLe_antisymm (hms a ha).1 (hms b hb).1 ((hms a ha).2.trans (hms b hb).2.symm)

/-! ## What a sort gives -/

/-- Whatever members of an orderly outline were sorted before, sorting members of one hierarchy succeeds and gives the same members, as
often as they were there, in preorder. It gives the same for the same members in any other order, after any other sorts, and so when
nothing was sorted before. -/
theorem Orderly.sort_canonical (ho : Orderly o) {hierarchy : String} {ms : List Member} (hms : o.HoldsAll hierarchy ms)
    {earlier : List (List Member)} (h : ∀ ns ∈ earlier, ∀ m ∈ ns, o.Holds m) :
    ∃ sorted, (SortKeys.sort o.catalog (SortKeys.after o.catalog [] earlier) ms).1 = .ok sorted ∧
      sorted.Perm ms ∧ o.Preordered sorted ∧
      (∀ ms' earlier', ms'.Perm ms → (∀ ns ∈ earlier', ∀ m ∈ ns, o.Holds m) →
        (SortKeys.sort o.catalog (SortKeys.after o.catalog [] earlier') ms').1 = .ok sorted) ∧
      (SortKeys.sort o.catalog [] ms).1 = .ok sorted := by
  have hc := ho.consistent
  have hsort : ∀ ms' earlier', ms'.Perm ms → (∀ ns ∈ earlier', ∀ m ∈ ns, o.Holds m) →
      (SortKeys.sort o.catalog (SortKeys.after o.catalog [] earlier') ms').1 = .ok (sortBy o.orderLe ms) := by
    intro ms' earlier' hperm hearlier
    have hheld : ∀ m ∈ ms', o.Holds m := fun m hm => (hms m (hperm.mem_iff.1 hm)).1
    obtain ⟨keys', heq, -⟩ := hc.sort_eq hheld (hc.remembers_after (remembers_nil o) hearlier)
    rw [heq, hc.sortBy_congr hms hperm]
  have hperm := sortBy_perm o.orderLe ms
  have hsorted : o.HoldsAll hierarchy (sortBy o.orderLe ms) := fun m hm => hms m (hperm.mem_iff.1 hm)
  have hpre := hc.preordered_of_pairwise hsorted (sortBy_pairwise o.orderLe_trans o.orderLe_total ms)
  exact ⟨_, hsort ms earlier (List.Perm.refl _) h, hperm, hpre, hsort, hsort ms [] (List.Perm.refl _) (by simp)⟩

/-- Products of the small cube in no order, one of them twice. -/
def sampleShuffled : List Member :=
  ["[Product].[All].[Food [new]]].[Snacks]", "[Product].[All].[Drink]", "[Product].[All].[Food [new]]]", "[Product].[All]",
    "[Product].[All].[Drink].[Beverages]", "[Product].[All].[Drink]", "[Product].[All].[Drink].[Dairy]"].filterMap sample.member?

/-- Two sorts on the small cube: one of a department, whose ancestors' keys are remembered with its own, and one of the genders. -/
def sampleEarlier : List (List Member) :=
  [["[Product].[All].[Drink].[Beverages]"], ["[Gender].[All].[M]", "[Gender].[All].[F]"]].map (·.filterMap sample.member?)

/-- On the small cube shuffled products come out in preorder after other sorts were made, and so does the same list backwards. -/
theorem sample_sort_canonical :
    (sampleEarlier.map (·.length) = [1, 2] ∧ (SortKeys.after sample.catalog [] sampleEarlier).length = 6) ∧
      ∃ sorted, (SortKeys.sort sample.catalog (SortKeys.after sample.catalog [] sampleEarlier) sampleShuffled).1 = .ok sorted ∧
        sorted.Perm sampleShuffled ∧ sample.Preordered sorted ∧
        sorted.map (·.name) = ["All", "Drink", "Drink", "Dairy", "Beverages", "Food [new]", "Snacks"] ∧
        (SortKeys.sort sample.catalog [] sampleShuffled.reverse).1 = .ok sorted := by
  obtain ⟨hheld, hearlier, hlengths, hnames⟩ :
      (∀ m ∈ sampleShuffled, sample.member? m.uniqueName = some m ∧ m.hierarchy = "Product") ∧
      (∀ ns ∈ sampleEarlier, ∀ m ∈ ns, sample.member? m.uniqueName = some m) ∧
      (sampleEarlier.map (·.length) = [1, 2] ∧ (SortKeys.after sample.catalog [] sampleEarlier).length = 6) ∧
      (SortKeys.sort sample.catalog [] sampleShuffled).1.toOption.any (fun sorted => decide
        (sorted.map (·.name) = ["All", "Drink", "Drink", "Dairy", "Beverages", "Food [new]", "Snacks"])) = true := by
    decide +kernel
  obtain ⟨sorted, hsorted, hperm, hpre, hany, hfresh⟩ := orderly_sample.sort_canonical hheld hearlier
  rw [hfresh] at hnames
  exact ⟨hlengths, sorted, hsorted, hperm, hpre, of_decide_eq_true hnames, hany _ [] (List.reverse_perm _) (by simp)⟩

end Outline

end CubeAxes
