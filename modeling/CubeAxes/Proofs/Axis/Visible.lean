import CubeAxes.Visibility
import CubeAxes.Proofs.Axis.Sets
import CubeAxes.Proofs.Outline.Order

/-!
# Visible levels over a consistent outline

The visible levels of a hierarchy are found by the depths of its members on the axis. Where these members are held, every depth has
its level, so no depth is passed over, and the levels come in the order of their depths (`Consistent.exists_visibleLevelsOf`). Those of the
axis are these, hierarchy by hierarchy (`Axis.exists_visibleLevels`).
-/

namespace CubeAxes

/-- Where the visible levels of every hierarchy on an axis are given, by depth, those of the axis are these, hierarchy by hierarchy. They come
in the order of a reading in which the hierarchies of the axis occur in their order. -/
theorem Axis.exists_visibleLevels {axis : Axis} {cat : Catalog} {P : Level → Prop}
    (h : ∀ n ∈ axis.hierarchies, ∃ visible, axis.visibleLevelsOf cat n = .ok visible ∧
      (∀ l, l ∈ visible ↔ P l ∧ l.hierarchy = n) ∧ visible.Pairwise fun a b => a.depth < b.depth)
    {reading : List String} (horder : axis.hierarchies.Pairwise fun a b => reading.idxOf a < reading.idxOf b) :
    ∃ visible, axis.visibleLevels cat = .ok visible ∧ (∀ l, l ∈ visible ↔ P l ∧ l.hierarchy ∈ axis.hierarchies) ∧
      (visible.Pairwise fun a b => (a.hierarchy = b.hierarchy ∧ a.depth < b.depth) ∨
        reading.idxOf a.hierarchy < reading.idxOf b.hierarchy) ∧
      ∀ n ∈ axis.hierarchies, axis.visibleLevelsOf cat n = .ok (visible.filter fun l => decide (l.hierarchy = n)) := by
  choose! vis hvis using h
  have hmap : axis.hierarchies.mapM (axis.visibleLevelsOf cat) = .ok (axis.hierarchies.map vis) := mapM_eq_ok fun n hn => (hvis n hn).1
  have hown : ∀ n ∈ axis.hierarchies, ∀ l ∈ vis n, l.hierarchy = n := fun n hn l hl => (((hvis n hn).2.1 l).1 hl).2
  have hnodup : (axis.hierarchies.map id).Nodup := by
    rw [List.map_id]
    exact nodup_distinctOn_id _
  refine ⟨axis.hierarchies.flatMap vis, ?_, fun l => ?_, ?_, fun n hn => ?_⟩
  · rw [visibleLevels, hmap, ok_bind, List.flatMap_def]
    rfl
  · rw [List.mem_flatMap]
    constructor
    · rintro ⟨n, hn, hl⟩
      obtain ⟨hP, rfl⟩ := ((hvis n hn).2.1 l).1 hl
      exact ⟨hP, hn⟩
    · rintro ⟨hP, hn⟩
      exact ⟨_, hn, ((hvis _ hn).2.1 l).2 ⟨hP, rfl⟩⟩
  · rw [List.pairwise_flatMap]
    refine ⟨fun n hn => ?_, ?_⟩
    · refine (hvis n hn).2.2.imp_of_mem fun ha hb hlt => Or.inl ⟨?_, hlt⟩
      rw [hown n hn _ ha, hown n hn _ hb]
    · refine horder.imp_of_mem fun {n n'} hn hn' hlt a ha b hb => Or.inr ?_
      rw [hown n hn a ha, hown n' hn' b hb]
      exact hlt
  · rw [(hvis n hn).1]
    exact congrArg Except.ok (filter_flatMap_own id vis Level.hierarchy hown hnodup hn).symm

namespace Outline

variable {o : Outline}

/-- A level that stands among the levels of a hierarchy is of the hierarchy, stands at its depth, and is given by the outline. -/
theorem spec_of_getElem?_levelsOf {hierarchy : String} {ls : List Level} (hls : o.levelsOf hierarchy = .ok ls) {d : Nat}
    {l : Level} (h : ls[d]? = some l) : o.HasLevel l ∧ l.hierarchy = hierarchy ∧ l.depth = d := by
  have hmem := List.mem_of_getElem? h
  obtain ⟨t, ht, hret⟩ := bind_eq_ok hls
  have hname := name_of_hierarchy? (hierarchy?_of_hierarchy ht)
  obtain rfl := Except.ok.inj hret
  rw [getElem?_levelsFrom] at h
  obtain ⟨table, -, rfl⟩ := Option.map_eq_some_iff.1 h
  refine ⟨⟨_, ?_, hmem⟩, hname, Nat.zero_add d⟩
  simp only [hname]
  simpa only [hname] using hls

/-- Where there is a member of a hierarchy, the levels of the hierarchy are given. -/
theorem Consistent.exists_levelsOf (hc : Consistent o) {m : Member} (hm : o.Holds m) :
    ∃ ls l, o.levelsOf m.hierarchy = .ok ls ∧ ls[m.depth]? = some l := by
  obtain ⟨t, ht⟩ := hc.exists_table? hm
  obtain ⟨ls, hls, hl⟩ := exists_levelsOf_of_table? ht
  exact ⟨ls, _, hls, hl⟩

/-- The visible levels of a hierarchy on an axis are the levels at its depths there that the catalog shows, by depth. -/
theorem Consistent.exists_visibleLevelsOf (hc : Consistent o) {axis : Axis} {hierarchy : String}
    (hne : axis.membersOf hierarchy ≠ []) (hm : o.HoldsAll hierarchy (axis.membersOf hierarchy)) :
    ∃ visible, axis.visibleLevelsOf o.catalog hierarchy = .ok visible ∧
      (∀ l, l ∈ visible ↔ o.HasLevel l ∧ l.hierarchy = hierarchy ∧ l.depth ∈ axis.depths hierarchy ∧ o.isVisible l = true) ∧
      visible.Pairwise fun a b => a.depth < b.depth := by
  obtain ⟨m, hmem⟩ := List.exists_mem_of_ne_nil _ hne
  obtain ⟨hheld, rfl⟩ := hm m hmem
  obtain ⟨ls, -, hls, -⟩ := hc.exists_levelsOf hheld
  have hdepths : axis.depths m.hierarchy ≠ [] := List.ne_nil_of_mem (Axis.mem_depths.2 ⟨m, hmem, rfl⟩)
  have hls' : o.catalog.levelsOf m.hierarchy = .ok ls := hls
  refine ⟨((axis.depths m.hierarchy).filterMap fun d => ls[d]?).filter o.catalog.isVisible, ?_, ?_, ?_⟩
  · rw [Axis.visibleLevelsOf, if_neg hdepths, hls', asked_ok, ok_bind]
    rfl
  · intro l
    rw [List.mem_filter, List.mem_filterMap]
    constructor
    · rintro ⟨⟨d, hd, hl⟩, hvis⟩
      obtain ⟨hlevel, hh, rfl⟩ := spec_of_getElem?_levelsOf hls hl
      exact ⟨hlevel, hh, hd, hvis⟩
    · rintro ⟨hlevel, hh, hd, hvis⟩
      obtain ⟨-, ls', -, hls'', hl⟩ := hlevel.exists_table?
      rw [hh, hls] at hls''
      obtain rfl := Except.ok.inj hls''
      exact ⟨⟨l.depth, hd, hl⟩, hvis⟩
  · refine List.Pairwise.filter _ ?_
    refine List.pairwise_filterMap.2 ((Axis.pairwise_depths axis m.hierarchy).imp ?_)
    intro d e hlt a ha b hb
    rw [(spec_of_getElem?_levelsOf hls ha).2.2, (spec_of_getElem?_levelsOf hls hb).2.2]
    exact hlt

end Outline

end CubeAxes
