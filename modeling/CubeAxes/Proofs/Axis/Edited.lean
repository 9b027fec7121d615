import Mathlib.Data.List.InsertIdx
import CubeAxes.Proofs.Axis.Editing
import CubeAxes.Proofs.Axis.Placing

/-!
# Edits that succeed

Each way in which an edit succeeds is said once, over any catalog (`Edit.cases_of_adding`, `Edit.spec_of_removing`,
`Edit.spec_of_placing`). Over a consistent outline and an axis of which all members are held, what a mutation leaves are selections
of members that are held, no two of them of one hierarchy (`Outline.Consistent.sorts_edit`, `Mutation.nodup_hierarchies_edit`).
Nothing is asked of the levels: those that the outline does not have bring in nothing when they do not make the edit fail.
-/

namespace CubeAxes

/-! ## Ways to succeed -/

namespace Edit

/-- A level is added at a position that is not too far, by drilling its hierarchy or by bringing that in. -/
theorem cases_of_adding {cat : Catalog} {axis : Axis} {l : Level} {position : Int} {edit : Edit}
    (h : adding cat axis l position = .ok edit) :
    position ≤ axis.selections.length ∧
      ((l.hierarchy ∈ axis.hierarchies ∧ ∃ drilled, cat.expand (axis.membersOf l.hierarchy) l = .ok drilled ∧
          edit.selections = axis.selections.map (Selection.change l.hierarchy (· ++ drilled))) ∨
        (l.hierarchy ∉ axis.hierarchies ∧ ∃ ms, asked (cat.membersOf l none) = .ok ms ∧
          edit.selections =
            axis.selections.insertIdx (if position < 0 then axis.selections.length else position.toNat) ⟨l.hierarchy, ms⟩)) := by
  unfold adding at h
  dsimp only at h
  split at h
  · nomatch h
  · next hp =>
    refine ⟨Int.not_lt.1 hp, ?_⟩
    split at h
    · next hin =>
      obtain ⟨drilled, hd, h⟩ := bind_eq_ok h
      obtain rfl := Except.ok.inj h
      exact Or.inl ⟨hin, drilled, hd, rfl⟩
    · next hin =>
      obtain ⟨ms, hms, h⟩ := bind_eq_ok h
      obtain rfl := Except.ok.inj h
      exact Or.inr ⟨hin, ms, hms, rfl⟩

/-- A level is removed when it is visible; the other members of its hierarchy are left, and those to which its own are rolled up. -/
theorem spec_of_removing {cat : Catalog} {axis : Axis} {l : Level} {edit : Edit} (h : removing cat axis l = .ok edit) :
    ∃ visible ups, axis.visibleLevelsOf cat l.hierarchy = .ok visible ∧ l ∈ visible ∧
      raised cat axis l = .ok ups ∧
      edit.selections = Outline.without l.hierarchy
        ((axis.membersOf l.hierarchy).filter (fun m => !decide (m.depth = l.depth)) ++ ups) axis.selections := by
  obtain ⟨visible, hvisible, h⟩ := bind_eq_ok h
  split at h
  · next hin =>
    simp only [List.partition_eq_filter_filter] at h
    obtain ⟨ups, hups, h⟩ := bind_eq_ok h
    obtain rfl := Except.ok.inj h
    refine ⟨visible, ups, ?_, hin, hups, rfl⟩
    cases hv : axis.visibleLevelsOf cat l.hierarchy with
    | error e =>
      rw [hv] at hvisible
      nomatch hvisible
    | ok found =>
      rw [hv] at hvisible
      exact hvisible
  · nomatch h

/-- The members by which a level is brought to an axis: those to which its hierarchy is drilled, or all of the level if the hierarchy
is not there. -/
def brought (cat : Catalog) (axis : Axis) (l : Level) : Except AxisError (List Member) :=
  if l.hierarchy ∈ axis.hierarchies then cat.expand (axis.membersOf l.hierarchy) l else asked (cat.membersOf l none)

theorem brought_of_mem {cat : Catalog} {axis : Axis} {l : Level} (h : l.hierarchy ∈ axis.hierarchies) :
    brought cat axis l = cat.expand (axis.membersOf l.hierarchy) l := if_pos h

theorem brought_of_not_mem {cat : Catalog} {axis : Axis} {l : Level} (h : l.hierarchy ∉ axis.hierarchies) :
    brought cat axis l = asked (cat.membersOf l none) := if_neg h

/-- Levels are placed by filling a selection for each of their hierarchies. -/
theorem spec_of_placing {cat : Catalog} {levels : List Level} {edit : Edit} (h : placing cat levels = .ok edit) :
    edit.selections.map (·.hierarchy) = distinctOn id (levels.map (·.hierarchy)) ∧
      ∀ s ∈ edit.selections, filled cat (levelsIn s.hierarchy levels) = .ok s.members := by
  obtain ⟨ss, hss, h⟩ := bind_eq_ok h
  obtain rfl := Except.ok.inj h
  have hfill : ∀ hierarchy (s : Selection),
      (do return (⟨hierarchy, ← filled cat (levelsIn hierarchy levels)⟩ : Selection) : Except AxisError Selection) = .ok s →
        s.hierarchy = hierarchy ∧ filled cat (levelsIn hierarchy levels) = .ok s.members := by
    intro hierarchy s hs
    obtain ⟨ms, hms, hs⟩ := bind_eq_ok hs
    obtain rfl := Except.ok.inj hs
    exact ⟨rfl, hms⟩
  have hall := (forall₂_of_mapM_eq_ok hss).imp hfill
  constructor
  · refine (List.forall₂_eq_eq_eq ▸ ?_ : ss.map (·.hierarchy) = distinctOn id (levels.map (·.hierarchy)))
    exact List.forall₂_map_left_iff.2 (hall.imp fun _ _ hs => hs.1).flip
  · intro s hs
    obtain ⟨hierarchy, -, hf⟩ := forall_of_mapM_eq_ok hss s hs
    obtain ⟨rfl, hms⟩ := hfill hierarchy s hf
    exact hms

end Edit

/-! ## Hierarchies -/

/-- An axis has one selection for each hierarchy on it. -/
@[simp] theorem Axis.map_hierarchy_selections (axis : Axis) : axis.selections.map (·.hierarchy) = axis.hierarchies := by
  rw [selections, List.map_map]
  exact List.map_id' _

/-- A selection of an axis is that of a hierarchy on it. -/
theorem Axis.mem_selections {axis : Axis} {s : Selection} :
    s ∈ axis.selections ↔ s.hierarchy ∈ axis.hierarchies ∧ s.members = axis.membersOf s.hierarchy := by
  rw [selections, List.mem_map]
  constructor
  · rintro ⟨h, hh, rfl⟩
    exact ⟨hh, rfl⟩
  · rintro ⟨hh, hms⟩
    exact ⟨s.hierarchy, hh, by rw [← hms]⟩

/-- No selection of an axis is empty. -/
theorem Axis.ne_nil_of_mem_selections {axis : Axis} {s : Selection} (hs : s ∈ axis.selections) : s.members ≠ [] := by
  obtain ⟨hh, hms⟩ := Axis.mem_selections.1 hs
  obtain ⟨m, hm, hmh⟩ := Axis.mem_hierarchies.1 hh
  have hfilter : m ∈ axis.members.filter fun m => decide (m.hierarchy = s.hierarchy) :=
    List.mem_filter.2 ⟨hm, decide_eq_true hmh⟩
  obtain ⟨n, hn, -⟩ := exists_mem_distinctOn Member.uniqueName hfilter
  rw [hms]
  exact List.ne_nil_of_mem hn

/-- Removing a level leaves the hierarchies, but perhaps its own. -/
theorem Outline.sublist_map_hierarchy_without (hierarchy : String) (left : List Member) (ss : List Selection) :
    ((without hierarchy left ss).map (·.hierarchy)).Sublist (ss.map (·.hierarchy)) := by
  by_cases hl : left = []
  · rw [hl, without_nil]
    exact List.filter_sublist.map _
  · rw [without_of_ne_nil hl, Selection.map_hierarchy_change]

/-- No edit leaves two selections of one hierarchy. -/
theorem Mutation.nodup_hierarchies_edit {cat : Catalog} {axis : Axis} {m : Mutation} {edit : Edit}
    (h : m.edit cat axis = .ok edit) : (edit.selections.map (·.hierarchy)).Nodup := by
  have hnodup : (axis.selections.map (·.hierarchy)).Nodup := by
    rw [Axis.map_hierarchy_selections]
    exact nodup_distinctOn_id _
  cases m with
  | add l position =>
    obtain ⟨hp, hcases⟩ := Edit.cases_of_adding h
    rcases hcases with ⟨-, drilled, -, hss⟩ | ⟨hin, ms, -, hss⟩
    · rw [hss, Selection.map_hierarchy_change]
      exact hnodup
    · have hindex := Edit.index_le hp
      have hperm := (List.perm_insertIdx (⟨l.hierarchy, ms⟩ : Selection) axis.selections hindex).map (·.hierarchy)
      rw [hss, hperm.nodup_iff, List.map_cons, List.nodup_cons]
      exact ⟨by rwa [Axis.map_hierarchy_selections], hnodup⟩
  | remove l =>
    obtain ⟨_, _, -, -, -, hss⟩ := Edit.spec_of_removing h
    rw [hss]
    exact hnodup.sublist (Outline.sublist_map_hierarchy_without _ _ _)
  | place levels =>
    rw [(Edit.spec_of_placing h).1]
    exact nodup_distinctOn_id _

/-! ## Members -/

namespace Outline

variable {o : Outline}

/-- Where all members on an axis are held, its members of a hierarchy are just that. -/
theorem mem_membersOf {axis : Axis} (h : ∀ m ∈ axis.members, o.Holds m) {hierarchy : String} {m : Member} :
    m ∈ axis.membersOf hierarchy ↔ m ∈ axis.members ∧ m.hierarchy = hierarchy := by
  rw [Axis.membersOf, mem_distinctMembers fun n hn => h n (List.mem_filter.1 hn).1, List.mem_filter, decide_eq_true_eq]

/-- Where all members on an axis are held, those of a hierarchy are. -/
theorem holdsAll_membersOf {axis : Axis} (h : ∀ m ∈ axis.members, o.Holds m) (hierarchy : String) :
    o.HoldsAll hierarchy (axis.membersOf hierarchy) := by
  intro m hm
  obtain ⟨hmem, hmh⟩ := Axis.mem_of_mem_membersOf hm
  exact ⟨h m hmem, hmh⟩

/-- So are those of each selection. -/
theorem sorts_selections {axis : Axis} (h : ∀ m ∈ axis.members, o.Holds m) : ∀ s ∈ axis.selections, o.Sorts s := by
  intro s hs
  rw [Sorts, (Axis.mem_selections.1 hs).2]
  exact holdsAll_membersOf h s.hierarchy

/-- The members of a level that are given are its rows. -/
theorem eq_rows_of_membersOf {l : Level} {ms : List Member}
    (h : asked (o.catalog.membersOf l none) = .ok ms) : ms = o.rows l.hierarchy l.depth := by
  obtain ⟨t, ht⟩ := hasTable_of_membersOf h
  rw [membersOf_none ht, asked_ok] at h
  exact (Except.ok.inj h).symm

/-- Members that are left of a hierarchy when a level of it is removed are held and of the hierarchy. -/
theorem Consistent.holdsAll_rolledUp (hc : Consistent o) {hierarchy : String} {depths : List Nat}
    (hasc : depths.Pairwise (· < ·)) {depth : Nat} {removed : List Member} (hr : o.HoldsAll hierarchy removed)
    (hd : ∀ m ∈ removed, m.depth = depth) {ups : List Member} (h : Edit.rolledUp o.catalog depths depth removed = .ok ups) :
    o.HoldsAll hierarchy ups := by
  obtain ⟨ms, hms, hmem⟩ := hc.exists_rolledUp hasc fun m hm => ⟨(hr m hm).1, hd m hm⟩
  obtain rfl := Except.ok.inj (hms.symm.trans h)
  intro m hm
  obtain ⟨above, habove, -, r, hrm, rfl⟩ := (hmem m).1 hm
  have hle : above ≤ r.depth := by
    rw [hd r hrm]
    exact Nat.le_of_lt ((Edit.depthAbove?_eq_some hasc).1 habove).2.1
  exact ⟨hc.holds_ancestor (hr r hrm).1 hle, (hc.hierarchy_ancestor (hr r hrm).1 hle).trans (hr r hrm).2⟩

/-- A level that is visible on an axis of held members is at a depth at which its hierarchy is there. -/
theorem Consistent.mem_depths_of_mem_visible (hc : Consistent o) {axis : Axis} (hax : ∀ m ∈ axis.members, o.Holds m) {l : Level}
    {visible : List Level} (h : axis.visibleLevelsOf o.catalog l.hierarchy = .ok visible) (hl : l ∈ visible) :
    l.depth ∈ axis.depths l.hierarchy := by
  by_cases hdepths : axis.depths l.hierarchy = []
  · rw [Axis.visibleLevelsOf, if_pos hdepths] at h
    cases h
  · obtain ⟨d, hd⟩ := List.exists_mem_of_ne_nil _ hdepths
    obtain ⟨m, hm, -⟩ := Axis.mem_depths.1 hd
    obtain ⟨visible', hvisible, hmem, -⟩ := hc.exists_visibleLevelsOf (List.ne_nil_of_mem hm) (holdsAll_membersOf hax l.hierarchy)
    obtain rfl := Except.ok.inj (hvisible.symm.trans h)
    exact ((hmem l).1 hl).2.2.1

/-- What is left of a hierarchy when a level of it is removed: its other members, and those to which the removed ones are rolled up. -/
theorem Consistent.exists_left_of_removing (hc : Consistent o) {axis : Axis} (hax : ∀ m ∈ axis.members, o.Holds m) {l : Level}
    {edit : Edit} (h : Edit.removing o.catalog axis l = .ok edit) :
    ∃ left, edit.selections = without l.hierarchy left axis.selections ∧ l.depth ∈ axis.depths l.hierarchy ∧
      o.HoldsAll l.hierarchy left ∧ ∀ m, m ∈ left ↔ o.Leaves axis l m := by
  obtain ⟨visible, ups, hvisible, hl, hups, heq⟩ := Edit.spec_of_removing h
  have hheld := holdsAll_membersOf hax l.hierarchy
  obtain ⟨ups', hups', hmem⟩ := hc.exists_raised hheld
  obtain rfl := Except.ok.inj (hups'.symm.trans hups)
  have hrolled := hc.holdsAll_rolledUp (Axis.pairwise_depths axis l.hierarchy)
    (fun m hm => hheld m (List.mem_filter.1 hm).1) (fun m hm => of_decide_eq_true (List.mem_filter.1 hm).2) hups
  refine ⟨_, heq, hc.mem_depths_of_mem_visible hax hvisible hl, fun m hm => ?_, fun m => ?_⟩
  · rcases List.mem_append.1 hm with hm | hm
    · exact hheld m (List.mem_filter.1 hm).1
    · exact hrolled m hm
  · rw [List.mem_append, hmem, List.mem_filter, Leaves, RaisedTo]
    simp only [Bool.not_eq_true', decide_eq_false_iff_not, ne_eq]

/-- Levels of a hierarchy are filled with members of theirs, among which are all those of the first level. -/
theorem Consistent.spec_of_filled (hc : Consistent o) {hierarchy : String} {levels : List Level}
    (hl : ∀ l ∈ levels, l.hierarchy = hierarchy) {ms : List Member} (h : Edit.filled o.catalog levels = .ok ms) :
    (∀ m ∈ ms, o.Holds m ∧ m.hierarchy = hierarchy ∧ ∃ l ∈ levels, m.depth = l.depth) ∧
      ∀ first ∈ levels.head?, o.rows hierarchy first.depth ⊆ ms := by
  cases levels with
  | nil =>
    obtain rfl := Except.ok.inj h
    exact ⟨fun m hm => absurd hm List.not_mem_nil, fun first hf => nomatch hf⟩
  | cons first deeper =>
    obtain ⟨rfl, hdeeper⟩ := List.forall_mem_cons.1 hl
    obtain ⟨start, hstart, h⟩ := bind_eq_ok h
    obtain rfl := eq_rows_of_membersOf hstart
    have hrows : ∀ m ∈ o.rows first.hierarchy first.depth,
        o.Holds m ∧ m.hierarchy = first.hierarchy ∧ ∃ l ∈ first :: deeper, m.depth = l.depth := by
      intro m hm
      obtain ⟨hheld, hh, hd⟩ := hc.mem_rows.1 hm
      exact ⟨hheld, hh, first, List.mem_cons_self, hd⟩
    -- a level that is drilled to adds members of its own, and takes none away
    have hfilled := of_foldlM_eq_ok (P := fun ms =>
      (∀ m ∈ ms, o.Holds m ∧ m.hierarchy = first.hierarchy ∧ ∃ l ∈ first :: deeper, m.depth = l.depth) ∧
        o.rows first.hierarchy first.depth ⊆ ms) ?_ h ⟨hrows, List.Subset.refl _⟩
    · refine ⟨hfilled.1, fun l hfirst => ?_⟩
      obtain rfl := Option.some.inj hfirst
      exact hfilled.2
    · rintro l hmem ms ms' ⟨hms, hsub⟩ hstep
      obtain ⟨drilled, hdrilled, hstep⟩ := bind_eq_ok hstep
      obtain rfl := Except.ok.inj hstep
      have hh := hdeeper l hmem
      have hall : o.HoldsAll l.hierarchy ms := fun m hm => ⟨(hms m hm).1, (hms m hm).2.1.trans hh.symm⟩
      refine ⟨fun m hm => ?_, List.Subset.trans hsub (List.subset_append_left ms drilled)⟩
      rcases List.mem_append.1 hm with hm | hm
      · exact hms m hm
      · obtain ⟨hheld, hmh, hd⟩ := hc.spec_of_expand hall hdrilled m hm
        exact ⟨hheld, hmh.trans hh, l, List.mem_cons_of_mem first hmem, hd⟩

/-- Levels to which something selected is drilled one after the other have tables. -/
theorem hasTable_of_foldlM_expand {levels : List Level} {ms ms' : List Member}
    (h : levels.foldlM (fun ms level => do return ms ++ (← o.catalog.expand ms level)) ms = .ok ms')
    (hanchor : ∀ l ∈ levels, ∃ m ∈ ms, m.depth < l.depth) : ∀ l ∈ levels, o.HasTable l := by
  induction levels generalizing ms with
  | nil => exact fun l hl => absurd hl List.not_mem_nil
  | cons l levels ih =>
    obtain ⟨⟨m, hm, hlt⟩, hrest⟩ := List.forall_mem_cons.1 hanchor
    rw [List.foldlM_cons] at h
    obtain ⟨mid, hstep, h⟩ := bind_eq_ok h
    obtain ⟨drilled, hdrilled, hstep⟩ := bind_eq_ok hstep
    obtain rfl := Except.ok.inj hstep
    refine List.forall_mem_cons.2 ⟨?_, ih h ?_⟩
    · cases hd : anchorDepth? ms l with
      | some d => exact hasTable_of_expand hd hdrilled
      | none => exact absurd (anchorDepth?_eq_none.1 hd m hm) (Nat.not_le.2 hlt)
    · intro l' hl'
      obtain ⟨m, hm, hlt⟩ := hrest l' hl'
      exact ⟨m, List.mem_append_left drilled hm, hlt⟩

/-- The levels that are filled have tables, unless the first has no members. -/
theorem Consistent.hasTable_of_filled (hc : Consistent o) {first : Level} {deeper : List Level} {ms : List Member}
    (hasc : ∀ l ∈ deeper, first.depth < l.depth) (h : Edit.filled o.catalog (first :: deeper) = .ok ms)
    (hrows : o.rows first.hierarchy first.depth ≠ []) : ∀ l ∈ first :: deeper, o.HasTable l := by
  obtain ⟨start, hstart, h⟩ := bind_eq_ok h
  obtain rfl := eq_rows_of_membersOf hstart
  refine List.forall_mem_cons.2 ⟨hasTable_of_membersOf hstart, hasTable_of_foldlM_expand h ?_⟩
  intro l hl
  obtain ⟨m, hm⟩ := List.exists_mem_of_ne_nil _ hrows
  obtain ⟨-, -, hd⟩ := hc.mem_rows.1 hm
  exact ⟨m, hm, hd ▸ hasc l hl⟩

/-- A hierarchy is filled with all the members at the depths of its levels, whether or not the catalog has all the levels: below a
level without members there are none. -/
theorem Consistent.mem_filled (hc : Consistent o) {hierarchy : String} {levels : List Level}
    (hh : ∃ l ∈ levels, l.hierarchy = hierarchy) {ms : List Member}
    (h : Edit.filled o.catalog (Edit.levelsIn hierarchy levels) = .ok ms) (m : Member) :
    m ∈ ms ↔ o.Holds m ∧ m.hierarchy = hierarchy ∧ m.depth ∈ depthsIn hierarchy levels := by
  have hown : ∀ l ∈ Edit.levelsIn hierarchy levels, l.hierarchy = hierarchy := fun l hl => (Edit.mem_of_mem_levelsIn hl).2
  have hdepths : ∀ d, d ∈ depthsIn hierarchy levels ↔ ∃ l ∈ Edit.levelsIn hierarchy levels, l.depth = d := by
    intro d
    rw [← Edit.mem_map_depth_levelsIn, List.mem_map]
  obtain ⟨first, deeper, hls⟩ : ∃ first deeper, Edit.levelsIn hierarchy levels = first :: deeper := by
    obtain ⟨l, hl, hlh⟩ := hh
    obtain ⟨first, hfirst, -⟩ := (hdepths l.depth).1 (mem_depthsIn.2 ⟨l, hl, hlh, rfl⟩)
    exact List.exists_cons_of_ne_nil (List.ne_nil_of_mem hfirst)
  obtain ⟨rfl, -⟩ := List.forall_mem_cons.1 (hls ▸ hown)
  have hasc := List.pairwise_cons.1 (hls ▸ Edit.pairwise_lt_levelsIn first.hierarchy levels)
  by_cases hrows : o.rows first.hierarchy first.depth = []
  · -- a member at a depth of the levels would have an ancestor at the depth of the first
    have hnone : ∀ n, o.Holds n → n.hierarchy = first.hierarchy → n.depth ∉ depthsIn first.hierarchy levels := by
      intro n hn hnh hd
      obtain ⟨l, hl, hld⟩ := (hdepths n.depth).1 hd
      have hle : first.depth ≤ n.depth := by
        rw [hls] at hl
        rcases List.mem_cons.1 hl with rfl | hl
        · omega
        · have hlt := hasc.1 l hl
          omega
      obtain ⟨hah, hahh, had⟩ := hc.ancestor_spec hn hle
      have hrow := hc.mem_rows.2 ⟨hah, hahh.trans hnh, had⟩
      rw [hrows] at hrow
      exact absurd hrow List.not_mem_nil
    constructor
    · intro hm
      obtain ⟨hheld, hmh, l, hl, hd⟩ := (hc.spec_of_filled hown h).1 m hm
      exact absurd ((hdepths m.depth).2 ⟨l, hl, hd.symm⟩) (hnone m hheld hmh)
    · rintro ⟨hheld, hmh, hd⟩
      exact absurd hd (hnone m hheld hmh)
  · have htables := hls ▸ hc.hasTable_of_filled hasc.1 (hls ▸ h) hrows
    obtain ⟨ms', hms', hmem⟩ := hc.exists_filled htables hh
    obtain rfl := Except.ok.inj (hms'.symm.trans h)
    exact hmem m

/-- What is left after a level is removed is held, if what is left of its hierarchy is. -/
theorem sorts_without {hierarchy : String} {left : List Member} (hleft : o.HoldsAll hierarchy left) {ss : List Selection}
    (hss : ∀ s ∈ ss, o.Sorts s) : ∀ s ∈ without hierarchy left ss, o.Sorts s := by
  intro s' hs'
  obtain ⟨s, hs, he⟩ := List.mem_filterMap.1 hs'
  split at he
  · next hh =>
    split at he
    · nomatch he
    · obtain rfl := Option.some.inj he
      intro m hm
      rw [hh]
      exact hleft m (mem_of_mem_distinctOn hm)
  · obtain rfl := Option.some.inj he
    exact hss s hs

/-- Whatever an edit leaves on an axis of which all members are held is held. -/
theorem Consistent.sorts_edit (hc : Consistent o) {axis : Axis} (hax : ∀ m ∈ axis.members, o.Holds m) {m : Mutation} {edit : Edit}
    (h : m.edit o.catalog axis = .ok edit) : ∀ s ∈ edit.selections, o.Sorts s := by
  have hss := sorts_selections hax
  cases m with
  | add l position =>
    obtain ⟨-, hcases⟩ := Edit.cases_of_adding h
    rcases hcases with ⟨-, drilled, hdrilled, heq⟩ | ⟨-, ms, hms, heq⟩
    · rw [heq]
      refine sorts_map_change hss fun s hs hh m hm => ?_
      rcases List.mem_append.1 hm with hm | hm
      · exact hh ▸ hss s hs m hm
      · obtain ⟨hheld, hmh, -⟩ := hc.spec_of_expand (holdsAll_membersOf hax l.hierarchy) hdrilled m hm
        exact ⟨hheld, hmh⟩
    · rw [heq]
      intro s hs
      rcases List.eq_or_mem_of_mem_insertIdx hs with rfl | hs
      · rw [eq_rows_of_membersOf hms]
        exact hc.holdsAll_rows l.hierarchy l.depth
      · exact hss s hs
  | remove l =>
    obtain ⟨left, heq, -, hleft, -⟩ := hc.exists_left_of_removing hax h
    rw [heq]
    exact sorts_without hleft hss
  | place levels =>
    intro s hs m hm
    have hfilled := (hc.spec_of_filled (fun l hl => (Edit.mem_of_mem_levelsIn hl).2) ((Edit.spec_of_placing h).2 s hs)).1
    exact ⟨(hfilled m hm).1, (hfilled m hm).2.1⟩

/-- What comes of a mutation of an axis of held members that succeeds: the axis built from the selections that the edit leaves. They
are of different hierarchies, and there is at least one. -/
theorem Consistent.spec_of_run (hc : Consistent o) {axis axis' : Axis} (hax : ∀ m ∈ axis.members, o.Holds m) {m : Mutation}
    {mode : HierarchizeMode} {keys : SortKeys} (hk : o.Remembers keys) (h : (m.run o.catalog mode keys axis).result = .ok axis') :
    ∃ edit, m.edit o.catalog axis = .ok edit ∧ (∀ s ∈ edit.selections, o.Sorts s) ∧ (edit.selections.map (·.hierarchy)).Nodup ∧
      edit.selections ≠ [] ∧
      Axis.ofSets (edit.selections.map fun s => o.arranged s.members) (mode.apply axis.hierarchize) = .ok axis' := by
  cases he : m.edit o.catalog axis with
  | error e =>
    unfold Mutation.run at h
    rw [he] at h
    nomatch h
  | ok edit =>
    have hss := hc.sorts_edit hax he
    rw [(hc.run_eq he hss mode hk).1] at h
    refine ⟨edit, rfl, hss, Mutation.nodup_hierarchies_edit he, fun hnil => ?_, h⟩
    rw [hnil] at h
    nomatch h

/-- All members on the axis that comes of it are held. -/
theorem Consistent.holds_of_run (hc : Consistent o) {axis axis' : Axis} (hax : ∀ m ∈ axis.members, o.Holds m) {m : Mutation}
    {mode : HierarchizeMode} {keys : SortKeys} (hk : o.Remembers keys) (h : (m.run o.catalog mode keys axis).result = .ok axis') :
    ∀ n ∈ axis'.members, o.Holds n := by
  obtain ⟨edit, -, hss, hh, hne, hsets⟩ := hc.spec_of_run hax hk h
  obtain ⟨axis'', haxis, -, -, hsel⟩ := exists_ofSets_ordered hne hss hh (mode.apply axis.hierarchize)
  obtain rfl := Except.ok.inj (haxis.symm.trans hsets)
  exact holds_of_selects hsel (List.forall_mem_map.2 fun s hs => (hss s hs).ordered)

end Outline

end CubeAxes
