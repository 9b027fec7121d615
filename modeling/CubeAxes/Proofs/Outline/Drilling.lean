import CubeAxes.Proofs.Outline.Order

/-!
# Drilling in a consistent outline

Drilling succeeds on members that are held. From above it gives the members at the level whose ancestor at the anchors' depth is
selected (`Consistent.exists_expand_of_anchor`), from below the ancestors of what is selected (`Consistent.exists_expand_of_le`).
So from all the members at some depths, none of them deeper than the level, it brings in exactly the members of the level
(`Consistent.exists_expand_of_forall`): every member of the level has an ancestor at each of these depths.
-/

namespace CubeAxes

/-! ## Anchors -/

/-- There are no anchors when nothing selected is above the level. -/
theorem anchorDepth?_eq_none {selected : List Member} {level : Level} :
    anchorDepth? selected level = none ↔ ∀ s ∈ selected, level.depth ≤ s.depth := by
  rw [anchorDepth?, List.max?_eq_none_iff, List.filter_eq_nil_iff]
  constructor
  · intro h s hs
    have hd := h s.depth (List.mem_map_of_mem hs)
    simpa using hd
  · intro h d hd
    obtain ⟨s, hs, rfl⟩ := List.mem_map.1 hd
    simpa using h s hs

/-- The anchors are at the greatest depth at which something above the level is selected. -/
theorem anchorDepth?_eq_some {selected : List Member} {level : Level} {d : Nat} :
    anchorDepth? selected level = some d ↔
      (∃ s ∈ selected, s.depth = d) ∧ d < level.depth ∧ ∀ s ∈ selected, s.depth < level.depth → s.depth ≤ d := by
  rw [anchorDepth?, List.max?_eq_some_iff]
  simp only [List.mem_filter, List.mem_map, decide_eq_true_eq, and_imp, and_assoc, forall_exists_index, and_imp,
    forall_apply_eq_imp_iff₂]

/-- Where the anchors are depends on which members are selected only. -/
theorem anchorDepth?_congr {selected selected' : List Member} (h : ∀ m, m ∈ selected ↔ m ∈ selected') (level : Level) :
    anchorDepth? selected level = anchorDepth? selected' level := by
  refine Option.ext fun d => ?_
  rw [anchorDepth?_eq_some, anchorDepth?_eq_some]
  simp only [h]

namespace Outline

variable {o : Outline}

/-! ## Ancestors and descendants of several members -/

/-- The ancestors of members that are not above a depth are all found. -/
theorem Consistent.ancestors_eq (hc : Consistent o) {ms : List Member} {d : Nat} (hms : ∀ m ∈ ms, o.Holds m)
    (hd : ∀ m ∈ ms, d ≤ m.depth) : o.catalog.ancestors d ms = .ok (ms.map fun m => o.ancestor m d) := by
  have hall : ∀ m ∈ ms, o.catalog.ancestorAt m d = .ok (some (o.ancestor m d)) := by
    intro m hm
    rw [hc.ancestorAt_eq (hms m hm), if_neg (Nat.not_lt.2 (hd m hm))]
  rw [Catalog.ancestors, mapM_eq_ok hall, ok_bind]
  refine congrArg Except.ok ?_
  rw [List.filterMap_map]
  exact congrFun List.filterMap_eq_map' ms

/-- The descendants at a level of several members are the members of the level that lie below one of them. -/
theorem descendants_eq {l : Level} {t : LevelTable} (ht : o.table? l.hierarchy l.depth = some t) (anchors : List Member) :
    o.catalog.descendants l anchors =
      .ok (anchors.flatMap fun a => (o.rows l.hierarchy l.depth).filter fun m => o.isBelow m a.uniqueName) := by
  have hall : ∀ a ∈ anchors, asked (o.catalog.membersOf l (some a)) =
      .ok ((o.rows l.hierarchy l.depth).filter fun m => o.isBelow m a.uniqueName) := by
    intro a _
    rw [membersOf_some ht a, asked_ok]
  rw [Catalog.descendants, mapM_eq_ok hall, ok_bind, List.flatMap_def]
  rfl

/-! ## What drilling gives -/

/-- From anchors, drilling gives the members of the level of which the ancestor at the anchors' depth is selected. -/
theorem Consistent.exists_expand_of_anchor (hc : Consistent o) {l : Level} {t : LevelTable}
    (ht : o.table? l.hierarchy l.depth = some t) {selected : List Member} (hs : o.HoldsAll l.hierarchy selected) {d : Nat}
    (hd : anchorDepth? selected l = some d) :
    ∃ ms, o.catalog.expand selected l = .ok ms ∧
      ∀ m, m ∈ ms ↔ (o.Holds m ∧ m.hierarchy = l.hierarchy ∧ m.depth = l.depth) ∧ o.ancestor m d ∈ selected := by
  refine ⟨_, by simp only [Catalog.expand, hd, descendants_eq ht, ok_bind]; rfl, fun m => ?_⟩
  obtain ⟨-, hlt, -⟩ := anchorDepth?_eq_some.1 hd
  have hheld : ∀ m ∈ (selected.filter fun m => decide (m.depth = d)).flatMap
      (fun a => (o.rows l.hierarchy l.depth).filter fun m => o.isBelow m a.uniqueName), o.Holds m := by
    intro m hm
    obtain ⟨a, -, hma⟩ := List.mem_flatMap.1 hm
    exact (hc.mem_rows.1 (List.mem_filter.1 hma).1).1
  rw [mem_distinctMembers hheld, List.mem_flatMap]
  constructor
  · rintro ⟨a, ha, hm⟩
    obtain ⟨hsel, had⟩ := List.mem_filter.1 ha
    obtain ⟨hrow, hbelow⟩ := List.mem_filter.1 hm
    have hm' := hc.mem_rows.1 hrow
    obtain ⟨-, hanc⟩ := (hc.isBelow_iff hm'.1 (hs a hsel).1).1 hbelow
    rw [of_decide_eq_true had] at hanc
    exact ⟨hm', by rwa [hanc]⟩
  · rintro ⟨hm, hanc⟩
    have hle : d ≤ m.depth := by omega
    have hdepth := hc.depth_ancestor hm.1 hle
    refine ⟨_, List.mem_filter.2 ⟨hanc, decide_eq_true hdepth⟩, List.mem_filter.2 ⟨hc.mem_rows.2 hm, ?_⟩⟩
    exact (hc.isBelow_iff hm.1 (hs _ hanc).1).2 ⟨by omega, by rw [hdepth]⟩

/-- Where nothing is above the level, drilling gives the ancestors at the level of what is selected. -/
theorem Consistent.exists_expand_of_le (hc : Consistent o) {l : Level} {selected : List Member}
    (hs : ∀ s ∈ selected, o.Holds s) (hd : ∀ s ∈ selected, l.depth ≤ s.depth) :
    ∃ ms, o.catalog.expand selected l = .ok ms ∧ ∀ m, m ∈ ms ↔ ∃ s ∈ selected, o.ancestor s l.depth = m := by
  have hnone := anchorDepth?_eq_none.2 hd
  refine ⟨_, by simp only [Catalog.expand, hnone, hc.ancestors_eq hs hd, ok_bind]; rfl, fun m => ?_⟩
  have hheld : ∀ m ∈ selected.map (fun s => o.ancestor s l.depth), o.Holds m := by
    intro m hm
    obtain ⟨s, hsel, rfl⟩ := List.mem_map.1 hm
    exact hc.holds_ancestor (hs s hsel) (hd s hsel)
  rw [mem_distinctMembers hheld, List.mem_map]

/-- Drilling gives members of the level only; it succeeds, unless there are anchors and the level has no table. -/
theorem Consistent.exists_expand_of_hasTable (hc : Consistent o) {l : Level} {selected : List Member}
    (hs : o.HoldsAll l.hierarchy selected) (hl : ∀ d, anchorDepth? selected l = some d → o.HasTable l) :
    ∃ ms, o.catalog.expand selected l = .ok ms ∧
      ∀ m ∈ ms, o.Holds m ∧ m.hierarchy = l.hierarchy ∧ m.depth = l.depth := by
  cases hd : anchorDepth? selected l with
  | some d =>
    obtain ⟨t, ht⟩ := hl d hd
    obtain ⟨ms, hms, hmem⟩ := hc.exists_expand_of_anchor ht hs hd
    exact ⟨ms, hms, fun m hm => ((hmem m).1 hm).1⟩
  | none =>
    rw [anchorDepth?_eq_none] at hd
    obtain ⟨ms, hms, hmem⟩ := hc.exists_expand_of_le (fun s h => (hs s h).1) hd
    refine ⟨ms, hms, fun m hm => ?_⟩
    obtain ⟨s, hsel, rfl⟩ := (hmem m).1 hm
    obtain ⟨hheld, hh, hdepth⟩ := hc.ancestor_spec (hs s hsel).1 (hd s hsel)
    exact ⟨hheld, hh.trans (hs s hsel).2, hdepth⟩

/-- Drilling to a level succeeds, and gives members of the level only. -/
theorem Consistent.exists_expand (hc : Consistent o) {l : Level} (hl : o.HasTable l) {selected : List Member}
    (hs : o.HoldsAll l.hierarchy selected) :
    ∃ ms, o.catalog.expand selected l = .ok ms ∧
      ∀ m ∈ ms, o.Holds m ∧ m.hierarchy = l.hierarchy ∧ m.depth = l.depth :=
  hc.exists_expand_of_hasTable hs fun _ _ => hl

/-- A level of which the members are given has a table. -/
theorem hasTable_of_membersOf {l : Level} {ancestor : Option Member} {ms : List Member}
    (h : asked (o.catalog.membersOf l ancestor) = .ok ms) : o.HasTable l := by
  cases ht : o.table? l.hierarchy l.depth with
  | some t => exact ⟨t, ht⟩
  | none =>
    simp only [catalog, membersOf, Outline.hierarchy] at h
    cases hh : o.hierarchy? l.hierarchy with
    | none =>
      rw [hh] at h
      cases h
    | some table =>
      rw [table?, hh, Option.bind_some] at ht
      simp only [hh, ok_bind, ht] at h
      cases h

/-- A level to which anchors are drilled has a table. -/
theorem hasTable_of_expand {l : Level} {selected ms : List Member} {d : Nat} (hd : anchorDepth? selected l = some d)
    (h : o.catalog.expand selected l = .ok ms) : o.HasTable l := by
  obtain ⟨⟨s, hsel, rfl⟩, -⟩ := anchorDepth?_eq_some.1 hd
  unfold Catalog.expand Catalog.descendants at h
  rw [hd] at h
  obtain ⟨below, hbelow, -⟩ := bind_eq_ok h
  obtain ⟨mss, hmss, -⟩ := bind_eq_ok hbelow
  obtain ⟨found, -, hfound⟩ := exists_of_mapM_eq_ok hmss s (List.mem_filter.2 ⟨hsel, decide_eq_true rfl⟩)
  exact hasTable_of_membersOf hfound

/-- What drilling gives are members of the level. -/
theorem Consistent.spec_of_expand (hc : Consistent o) {l : Level} {selected : List Member} (hs : o.HoldsAll l.hierarchy selected)
    {ms : List Member} (h : o.catalog.expand selected l = .ok ms) :
    ∀ m ∈ ms, o.Holds m ∧ m.hierarchy = l.hierarchy ∧ m.depth = l.depth := by
  obtain ⟨ms', hms', hspec⟩ := hc.exists_expand_of_hasTable hs fun d hd => hasTable_of_expand hd h
  obtain rfl := Except.ok.inj (hms'.symm.trans h)
  exact hspec

/-- What drilling gives depends on which members are selected only. -/
theorem Consistent.mem_expand_congr (hc : Consistent o) {l : Level} {selected selected' : List Member}
    (hs : o.HoldsAll l.hierarchy selected) (hmem : ∀ m, m ∈ selected ↔ m ∈ selected') {ms ms' : List Member}
    (h : o.catalog.expand selected l = .ok ms) (h' : o.catalog.expand selected' l = .ok ms') (m : Member) : m ∈ ms ↔ m ∈ ms' := by
  have hs' : o.HoldsAll l.hierarchy selected' := fun m hm => hs m ((hmem m).2 hm)
  cases hd : anchorDepth? selected l with
  | some d =>
    obtain ⟨t, ht⟩ := hasTable_of_expand hd h
    obtain ⟨xs, hxs, hx⟩ := hc.exists_expand_of_anchor ht hs hd
    obtain ⟨ys, hys, hy⟩ := hc.exists_expand_of_anchor ht hs' (anchorDepth?_congr hmem l ▸ hd)
    obtain rfl := Except.ok.inj (hxs.symm.trans h)
    obtain rfl := Except.ok.inj (hys.symm.trans h')
    rw [hx, hy, hmem]
  | none =>
    rw [anchorDepth?_eq_none] at hd
    obtain ⟨xs, hxs, hx⟩ := hc.exists_expand_of_le (fun s hsel => (hs s hsel).1) hd
    obtain ⟨ys, hys, hy⟩ := hc.exists_expand_of_le (fun s hsel => (hs' s hsel).1) fun s hsel => hd s ((hmem s).2 hsel)
    obtain rfl := Except.ok.inj (hxs.symm.trans h)
    obtain rfl := Except.ok.inj (hys.symm.trans h')
    rw [hx, hy]
    simp only [hmem]

/-- From all the members at some depths, none of them below the level, drilling gives members of the level, all of which are
selected then. -/
theorem Consistent.exists_expand_of_forall (hc : Consistent o) {l : Level} (hl : o.HasTable l) {depths : List Nat}
    (hne : depths ≠ []) (hle : ∀ d ∈ depths, d ≤ l.depth) {selected : List Member}
    (hs : ∀ m, m ∈ selected ↔ o.Holds m ∧ m.hierarchy = l.hierarchy ∧ m.depth ∈ depths) :
    ∃ ms, o.catalog.expand selected l = .ok ms ∧
      ∀ m, m ∈ selected ++ ms ↔ o.Holds m ∧ m.hierarchy = l.hierarchy ∧ m.depth ∈ depths ++ [l.depth] := by
  have hall : o.HoldsAll l.hierarchy selected := fun m hm => ⟨((hs m).1 hm).1, ((hs m).1 hm).2.1⟩
  obtain ⟨ms, hms, hlevel⟩ := hc.exists_expand hl hall
  refine ⟨ms, hms, fun m => ?_⟩
  simp only [List.mem_append, List.mem_singleton]
  constructor
  · rintro (hm | hm)
    · obtain ⟨hheld, hh, hd⟩ := (hs m).1 hm
      exact ⟨hheld, hh, Or.inl hd⟩
    · obtain ⟨hheld, hh, hd⟩ := hlevel m hm
      exact ⟨hheld, hh, Or.inr hd⟩
  · rintro ⟨hheld, hh, hd | hd⟩
    · exact Or.inl ((hs m).2 ⟨hheld, hh, hd⟩)
    · -- the ancestors of a member of the level are all selected, so there are anchors, or the level is one of the depths
      have hanc : ∀ d ∈ depths, o.ancestor m d ∈ selected := by
        intro d hdd
        have hdm : d ≤ m.depth := hd ▸ hle d hdd
        obtain ⟨hah, hahh, had⟩ := hc.ancestor_spec hheld hdm
        exact (hs _).2 ⟨hah, hahh.trans hh, by rwa [had]⟩
      obtain ⟨t, ht⟩ := hl
      cases hd' : anchorDepth? selected l with
      | some a =>
        obtain ⟨ms', hms', hmem⟩ := hc.exists_expand_of_anchor ht hall hd'
        obtain rfl := Except.ok.inj (hms.symm.trans hms')
        obtain ⟨⟨s, hsel, rfl⟩, -⟩ := anchorDepth?_eq_some.1 hd'
        exact Or.inr ((hmem m).2 ⟨⟨hheld, hh, hd⟩, hanc _ ((hs s).1 hsel).2.2⟩)
      | none =>
        obtain ⟨d, hdd⟩ := List.exists_mem_of_ne_nil depths hne
        have hdm : d ≤ m.depth := hd ▸ hle d hdd
        have hbelow := anchorDepth?_eq_none.1 hd' _ (hanc d hdd)
        rw [hc.depth_ancestor hheld hdm] at hbelow
        obtain rfl : d = m.depth := by omega
        have hself := hanc _ hdd
        rw [ancestor_self] at hself
        exact Or.inl hself

end Outline

end CubeAxes
