import CubeAxes.Proofs.Axis.Joined

/-!
# Removing a level, exactly

What removing a level from an axis of held members comes to (`Outline.Orderly.remove_exactly`). A level that the axis does not show is
refused. Of the hierarchy of any other remains what is not of the level and, where the level was the deepest but not the only one, the
ancestors to which its members are rolled up (`Outline.Remains`). If nothing remains the operand goes, and the axis cannot do without
its last one.
-/

namespace CubeAxes

/-- A depth is the next one above a bound among several. -/
def IsDepthAbove (depths : List Nat) (bound d : Nat) : Prop := d ∈ depths ∧ d < bound ∧ ∀ e ∈ depths, e < bound → e ≤ d

/-- Among depths some of which are above a bound there is a next one. -/
theorem exists_isDepthAbove {depths : List Nat} {bound : Nat} (h : ∃ d ∈ depths, d < bound) : ∃ d, IsDepthAbove depths bound d := by
  obtain ⟨d, hd, hlt⟩ := h
  have hfilter : d ∈ depths.filter fun e => decide (e < bound) := List.mem_filter.2 ⟨hd, decide_eq_true hlt⟩
  obtain ⟨next, hnext⟩ := Option.isSome_iff_exists.1 (List.isSome_max?_of_mem hfilter)
  obtain ⟨hin, hmax⟩ := List.max?_eq_some_iff.1 hnext
  simp only [List.mem_filter, decide_eq_true_eq] at hin hmax
  exact ⟨next, hin.1, hin.2, fun e he helt => hmax e ⟨he, helt⟩⟩

/-- A hierarchy some depth of which is on an axis is there. -/
theorem Axis.mem_hierarchies_of_mem_depths {axis : Axis} {hierarchy : String} {d : Nat} (h : d ∈ axis.depths hierarchy) :
    hierarchy ∈ axis.hierarchies := by
  obtain ⟨m, hm, -⟩ := Axis.mem_depths.1 h
  exact Axis.mem_hierarchies_of_mem_membersOf hm

/-- An axis shows a level when the level is among the visible ones of its hierarchy. -/
def Axis.Shows (axis : Axis) (cat : Catalog) (l : Level) : Prop :=
  ∃ visible, axis.visibleLevelsOf cat l.hierarchy = .ok visible ∧ l ∈ visible

namespace Outline

/-- A member remains of a hierarchy when a level of it is removed: it is selected and not of the level or, where the level is at the
deepest of the depths of the hierarchy and another is above it, it is the ancestor at the next one above of a member of the level. -/
def Remains (o : Outline) (axis : Axis) (l : Level) (m : Member) : Prop :=
  (m ∈ axis.membersOf l.hierarchy ∧ m.depth ≠ l.depth) ∨
    (∀ d ∈ axis.depths l.hierarchy, d ≤ l.depth) ∧ ∃ above, IsDepthAbove (axis.depths l.hierarchy) l.depth above ∧
      ∃ r ∈ axis.membersOf l.hierarchy, r.depth = l.depth ∧ o.ancestor r above = m

/-- What removing a level makes of the operands of an axis. Those of the other hierarchies hold what they held, and that of its own what
remains; it is there just when something does. -/
structure Removed (o : Outline) (axis : Axis) (l : Level) (axis' : Axis) : Prop where
  operands : o.OperandsAre axis' axis'.hierarchies fun n m =>
    n = l.hierarchy ∧ o.Remains axis l m ∨ n ≠ l.hierarchy ∧ m ∈ axis.membersOf n
  kept : (∃ m, o.Remains axis l m) → axis'.hierarchies = axis.hierarchies
  dropped : (∀ m, ¬o.Remains axis l m) → axis'.hierarchies = axis.hierarchies.filter fun n => decide (n ≠ l.hierarchy)

variable {o : Outline} {axis : Axis} {l : Level} {keys : SortKeys}

/-! ## Levels that are shown -/

/-- An axis of held members shows a level just when the outline has it, its hierarchy is at its depth on the axis, and the catalog does
not hide it. -/
theorem Consistent.shows_iff (hc : Consistent o) (hax : ∀ m ∈ axis.members, o.Holds m) :
    axis.Shows o.catalog l ↔ o.HasLevel l ∧ l.depth ∈ axis.depths l.hierarchy ∧ o.isVisible l = true := by
  by_cases hne : axis.membersOf l.hierarchy = []
  · have hdepths : axis.depths l.hierarchy = [] := by
      refine List.eq_nil_iff_forall_not_mem.2 ?_
      intro d hd
      obtain ⟨m, hm, -⟩ := Axis.mem_depths.1 hd
      rw [hne] at hm
      exact absurd hm List.not_mem_nil
    have hrefused : axis.visibleLevelsOf o.catalog l.hierarchy = .error (.hierarchyNotOnAxis l.hierarchy) := by
      rw [Axis.visibleLevelsOf, if_pos hdepths]
      rfl
    simp [Axis.Shows, hrefused, hdepths]
  · obtain ⟨visible, hvisible, hmem, -⟩ := hc.exists_visibleLevelsOf hne (holdsAll_membersOf hax l.hierarchy)
    simp [Axis.Shows, hvisible, hmem]

/-- The hierarchy of a level that is shown is on the axis. -/
theorem Consistent.mem_hierarchies_of_shows (hc : Consistent o) (hax : ∀ m ∈ axis.members, o.Holds m)
    (h : axis.Shows o.catalog l) : l.hierarchy ∈ axis.hierarchies :=
  Axis.mem_hierarchies_of_mem_depths ((hc.shows_iff hax).1 h).2.1

/-- A level is not shown for one of four reasons: its hierarchy is not on the axis, its depth is not there, the catalog hides it, or the
catalog has no such level. -/
theorem Consistent.not_shows_iff (hc : Consistent o) (hax : ∀ m ∈ axis.members, o.Holds m) :
    ¬axis.Shows o.catalog l ↔ l.hierarchy ∉ axis.hierarchies ∨ l.depth ∉ axis.depths l.hierarchy ∨ o.isVisible l = false ∨
      ¬o.HasLevel l := by
  rw [hc.shows_iff hax, not_and_or, not_and_or, Bool.not_eq_true]
  constructor
  · intro h
    rcases h with hlevel | hdepth | hhidden
    · exact Or.inr (Or.inr (Or.inr hlevel))
    · exact Or.inr (Or.inl hdepth)
    · exact Or.inr (Or.inr (Or.inl hhidden))
  · intro h
    rcases h with habsent | hdepth | hhidden | hlevel
    · exact Or.inr (Or.inl fun hdepth => habsent (Axis.mem_hierarchies_of_mem_depths hdepth))
    · exact Or.inr (Or.inl hdepth)
    · exact Or.inr (Or.inr hhidden)
    · exact Or.inl hlevel

/-- A level that is not shown is not removed. Nothing is reported, and no sort key is remembered. -/
theorem Consistent.run_remove_of_not_shows (hc : Consistent o) (hax : ∀ m ∈ axis.members, o.Holds m)
    (h : ¬axis.Shows o.catalog l) (mode : HierarchizeMode) (keys : SortKeys) :
    (Mutation.remove l).run o.catalog mode keys axis = ⟨.error (.levelNotVisible l.uniqueName), keys, []⟩ := by
  have hedit : (Mutation.remove l).edit o.catalog axis = .error (.levelNotVisible l.uniqueName) := by
    rw [Mutation.edit, Edit.removing]
    by_cases hne : axis.depths l.hierarchy = []
    · rw [Axis.visibleLevelsOf, if_pos hne]
      rfl
    · obtain ⟨d, hd⟩ := List.exists_mem_of_ne_nil _ hne
      obtain ⟨m, hm, -⟩ := Axis.mem_depths.1 hd
      obtain ⟨visible, hvisible, -⟩ :=
        hc.exists_visibleLevelsOf (List.ne_nil_of_mem hm) (holdsAll_membersOf hax l.hierarchy)
      have hnot : l ∉ visible := fun hl => h ⟨visible, hvisible, hl⟩
      rw [hvisible, Except.mapError, ok_bind, if_neg hnot]
      rfl
  rw [Mutation.run, hedit]

/-! ## What is left -/

/-- What is left of a hierarchy by an edit is what remains of it. -/
theorem leaves_iff_remains (hd : l.depth ∈ axis.depths l.hierarchy) {m : Member} : o.Leaves axis l m ↔ o.Remains axis l m := by
  have hasc := Axis.pairwise_depths axis l.hierarchy
  simp only [Leaves, RolledUp, Remains, IsDepthAbove, Edit.depthAbove?_eq_some hasc, Edit.getLast?_eq_some_iff_greatest hasc,
    List.mem_filter, decide_eq_true_eq, and_assoc, hd, true_and]
  refine or_congr_right ⟨?_, ?_⟩
  · rintro ⟨above, hin, hlt, hnext, hlast, r, hr⟩
    exact ⟨hlast, above, hin, hlt, hnext, r, hr⟩
  · rintro ⟨hlast, above, hin, hlt, hnext, r, hr⟩
    exact ⟨above, hin, hlt, hnext, hlast, r, hr⟩

/-- What remains of a hierarchy is held, of the hierarchy and not of the level. -/
theorem Consistent.spec_of_remains (hc : Consistent o) (hax : ∀ m ∈ axis.members, o.Holds m) {m : Member}
    (h : o.Remains axis l m) : o.Holds m ∧ m.hierarchy = l.hierarchy ∧ m.depth ≠ l.depth := by
  have hheld := holdsAll_membersOf hax l.hierarchy
  rcases h with ⟨hm, hd⟩ | ⟨-, above, habove, r, hr, hrd, rfl⟩
  · exact ⟨(hheld m hm).1, (hheld m hm).2, hd⟩
  · obtain ⟨ha, hah, had⟩ := hc.ancestor_spec (hheld r hr).1 (d := above) (by have := habove.2.1; omega)
    refine ⟨ha, hah.trans (hheld r hr).2, ?_⟩
    rw [had]
    exact Nat.ne_of_lt habove.2.1

/-- Removing a level that is shown edits the selections so that of its hierarchy is left what remains. -/
theorem Consistent.exists_removing_remains (hc : Consistent o) (hax : ∀ m ∈ axis.members, o.Holds m)
    (h : axis.Shows o.catalog l) :
    ∃ left, (∃ notes, (Mutation.remove l).edit o.catalog axis =
        .ok { selections := without l.hierarchy left axis.selections, notes }) ∧
      ∀ m, m ∈ left ↔ o.Remains axis l m := by
  obtain ⟨hl, hd, hv⟩ := (hc.shows_iff hax).1 h
  obtain ⟨left, hedit, hleft⟩ := hc.exists_removing hl hv (holdsAll_membersOf hax l.hierarchy) hd
  refine ⟨left, hedit, ?_⟩
  intro m
  rw [hleft, leaves_iff_remains hd]

/-- Where something remains of its hierarchy, a level that is shown is removed, and the hierarchies stay as they are. -/
theorem Consistent.exists_remove_of_remains (hc : Consistent o) (hax : ∀ m ∈ axis.members, o.Holds m)
    (h : axis.Shows o.catalog l) (hsome : ∃ m, o.Remains axis l m) (mode : HierarchizeMode) (hk : o.Remembers keys) :
    ∃ axis', ((Mutation.remove l).run o.catalog mode keys axis).result = .ok axis' ∧
      axis'.hierarchize = mode.apply axis.hierarchize ∧ axis'.hierarchies = axis.hierarchies ∧
      o.OperandsAre axis' axis.hierarchies fun n m =>
        n = l.hierarchy ∧ o.Remains axis l m ∨ n ≠ l.hierarchy ∧ m ∈ axis.membersOf n := by
  obtain ⟨left, ⟨notes, hedit⟩, hleft⟩ := hc.exists_removing_remains hax h
  obtain ⟨m₀, hm₀⟩ := hsome
  have hheld : ∀ m ∈ left, o.Holds m := fun m hm => (hc.spec_of_remains hax ((hleft m).1 hm)).1
  rw [without_of_ne_nil (List.ne_nil_of_mem ((hleft m₀).2 hm₀))] at hedit
  have hself : (⟨l.hierarchy, axis.membersOf l.hierarchy⟩ : Selection) ∈ axis.selections :=
    Axis.mem_selections.2 ⟨hc.mem_hierarchies_of_shows hax h, rfl⟩
  have hne : axis.selections ≠ [] := List.ne_nil_of_mem hself
  obtain ⟨axis', haxis', hz, hoperands⟩ := hc.exists_operandsAre_of_edit hax hedit (by simpa using hne) mode hk
  have hoperands' : o.OperandsAre axis' axis.hierarchies fun n m =>
      n = l.hierarchy ∧ o.Remains axis l m ∨ n ≠ l.hierarchy ∧ m ∈ axis.membersOf n := by
    refine hoperands ?_ ?_
    · rw [Selection.map_hierarchy_change, Axis.map_hierarchy_selections]
    · intro s' hs' m
      obtain ⟨s, hs, rfl⟩ := List.mem_map.1 hs'
      by_cases hh : s.hierarchy = l.hierarchy
      · simp [Selection.change_of_eq hh, hh, mem_distinctMembers hheld, hleft]
      · simp [Selection.change_of_ne hh, hh, (Axis.mem_selections.1 hs).2]
  refine ⟨axis', haxis', hz, hoperands'.hierarchies_eq ?_, hoperands'⟩
  intro n hn
  by_cases hh : n = l.hierarchy
  · exact ⟨m₀, Or.inl ⟨hh, hm₀⟩⟩
  · obtain ⟨m, hm⟩ := exists_mem_membersOf hax hn
    exact ⟨m, Or.inr ⟨hh, hm⟩⟩

/-- Where nothing remains of its hierarchy but others are on the axis, a level that is shown is removed with the hierarchy. -/
theorem Consistent.exists_remove_of_not_remains (hc : Consistent o) (hax : ∀ m ∈ axis.members, o.Holds m)
    (h : axis.Shows o.catalog l) (hnone : ∀ m, ¬o.Remains axis l m) (hother : ∃ n ∈ axis.hierarchies, n ≠ l.hierarchy)
    (mode : HierarchizeMode) (hk : o.Remembers keys) :
    ∃ axis', ((Mutation.remove l).run o.catalog mode keys axis).result = .ok axis' ∧
      axis'.hierarchize = mode.apply axis.hierarchize ∧
      axis'.hierarchies = axis.hierarchies.filter (fun n => decide (n ≠ l.hierarchy)) ∧
      o.OperandsAre axis' axis'.hierarchies fun n m =>
        n = l.hierarchy ∧ o.Remains axis l m ∨ n ≠ l.hierarchy ∧ m ∈ axis.membersOf n := by
  obtain ⟨left, ⟨notes, hedit⟩, hleft⟩ := hc.exists_removing_remains hax h
  obtain rfl : left = [] := List.eq_nil_iff_forall_not_mem.2 fun m hm => hnone m ((hleft m).1 hm)
  rw [without_nil] at hedit
  obtain ⟨n, hn, hne⟩ := hother
  have hstays : (⟨n, axis.membersOf n⟩ : Selection) ∈ axis.selections.filter fun s => decide (s.hierarchy ≠ l.hierarchy) :=
    List.mem_filter.2 ⟨Axis.mem_selections.2 ⟨hn, rfl⟩, decide_eq_true hne⟩
  obtain ⟨axis', haxis', hz, hoperands⟩ := hc.exists_operandsAre_of_edit hax hedit (List.ne_nil_of_mem hstays) mode hk
  have hoperands' : o.OperandsAre axis' (axis.hierarchies.filter fun n => decide (n ≠ l.hierarchy)) fun n m =>
      n = l.hierarchy ∧ o.Remains axis l m ∨ n ≠ l.hierarchy ∧ m ∈ axis.membersOf n := by
    refine hoperands ?_ ?_
    · rw [← Axis.map_hierarchy_selections, List.filter_map]
      rfl
    · intro s hs m
      obtain ⟨hs, hsh⟩ := List.mem_filter.1 hs
      simp [of_decide_eq_true hsh, (Axis.mem_selections.1 hs).2]
  have hhierarchies := hoperands'.hierarchies_eq (by
    intro n hn
    obtain ⟨hn, hne⟩ := List.mem_filter.1 hn
    obtain ⟨m, hm⟩ := exists_mem_membersOf hax hn
    exact ⟨m, Or.inr ⟨of_decide_eq_true hne, hm⟩⟩)
  exact ⟨axis', haxis', hz, hhierarchies, hhierarchies ▸ hoperands'⟩

/-- Where nothing remains of its hierarchy and no other is on the axis, a level that is shown is not removed. -/
theorem Consistent.run_remove_of_alone (hc : Consistent o) (hax : ∀ m ∈ axis.members, o.Holds m)
    (h : axis.Shows o.catalog l) (hnone : ∀ m, ¬o.Remains axis l m) (halone : ∀ n ∈ axis.hierarchies, n = l.hierarchy)
    (mode : HierarchizeMode) (keys : SortKeys) :
    ((Mutation.remove l).run o.catalog mode keys axis).result = .error .emptyAxis := by
  obtain ⟨left, ⟨notes, hedit⟩, hleft⟩ := hc.exists_removing_remains hax h
  obtain rfl : left = [] := List.eq_nil_iff_forall_not_mem.2 fun m hm => hnone m ((hleft m).1 hm)
  have hnil : axis.selections.filter (fun s => decide (s.hierarchy ≠ l.hierarchy)) = [] := by
    refine List.filter_eq_nil_iff.2 ?_
    intro s hs
    simpa using halone s.hierarchy (Axis.mem_selections.1 hs).1
  rw [without_nil, hnil] at hedit
  rw [Mutation.result_run, hedit]
  rfl

/-- A level that is shown is removed unless that would leave nothing on the axis. -/
theorem Consistent.exists_removed (hc : Consistent o) (hax : ∀ m ∈ axis.members, o.Holds m) (h : axis.Shows o.catalog l)
    (hsome : (∃ m, o.Remains axis l m) ∨ ∃ n ∈ axis.hierarchies, n ≠ l.hierarchy) (mode : HierarchizeMode) (hk : o.Remembers keys) :
    ∃ axis', ((Mutation.remove l).run o.catalog mode keys axis).result = .ok axis' ∧
      axis'.hierarchize = mode.apply axis.hierarchize ∧ o.Removed axis l axis' := by
  by_cases hremains : ∃ m, o.Remains axis l m
  · obtain ⟨axis', haxis', hz, hhierarchies, hoperands⟩ := hc.exists_remove_of_remains hax h hremains mode hk
    refine ⟨axis', haxis', hz, hhierarchies ▸ hoperands, fun _ => hhierarchies, ?_⟩
    intro hnone
    obtain ⟨m, hm⟩ := hremains
    exact absurd hm (hnone m)
  · obtain ⟨axis', haxis', hz, hhierarchies, hoperands⟩ :=
      hc.exists_remove_of_not_remains hax h (not_exists.1 hremains) (hsome.resolve_left hremains) mode hk
    exact ⟨axis', haxis', hz, hoperands, fun hm => absurd hm hremains, fun _ => hhierarchies⟩

/-- The operand of the hierarchy is there after the removal just when something remains of it. -/
theorem Removed.mem_hierarchies_iff {axis' : Axis} (h : o.Removed axis l axis') (hin : l.hierarchy ∈ axis.hierarchies) :
    l.hierarchy ∈ axis'.hierarchies ↔ ∃ m, o.Remains axis l m := by
  by_cases hremains : ∃ m, o.Remains axis l m
  · rw [h.kept hremains]
    exact iff_of_true hin hremains
  · rw [h.dropped (not_exists.1 hremains)]
    simp [hremains]

/-- What removing any level from an axis of held members of an orderly outline comes to. It is refused just when the axis does not show
the level, for its hierarchy or its depth is not there, the catalog hides it or has another in its place. It fails for the axis just when
nothing remains of the hierarchy and no other is there. Otherwise it succeeds, the operand of the hierarchy goes just when nothing
remains of it, and what is left is just what is to remain. -/
theorem Orderly.remove_exactly (ho : Orderly o) (hax : ∀ m ∈ axis.members, o.Holds m) (l : Level) (mode : HierarchizeMode)
    (hk : o.Remembers keys) :
    ((∃ name, ((Mutation.remove l).run o.catalog mode keys axis).result = .error (.levelNotVisible name)) ↔
        ¬axis.Shows o.catalog l) ∧
      (¬axis.Shows o.catalog l ↔ l.hierarchy ∉ axis.hierarchies ∨ l.depth ∉ axis.depths l.hierarchy ∨ o.isVisible l = false ∨
        ¬o.HasLevel l) ∧
      (¬axis.Shows o.catalog l →
        (Mutation.remove l).run o.catalog mode keys axis = ⟨.error (.levelNotVisible l.uniqueName), keys, []⟩) ∧
      (((Mutation.remove l).run o.catalog mode keys axis).result = .error .emptyAxis ↔
        axis.Shows o.catalog l ∧ (∀ m, ¬o.Remains axis l m) ∧ ∀ n ∈ axis.hierarchies, n = l.hierarchy) ∧
      (axis.Shows o.catalog l → (∃ m, o.Remains axis l m) ∨ (∃ n ∈ axis.hierarchies, n ≠ l.hierarchy) → ∃ axis',
        ((Mutation.remove l).run o.catalog mode keys axis).result = .ok axis' ∧
        axis'.hierarchize = mode.apply axis.hierarchize ∧
        (l.hierarchy ∈ axis'.hierarchies ↔ ∃ m, o.Remains axis l m) ∧ o.Removed axis l axis') := by
  have hc := ho.consistent
  have hrefused := fun h : ¬axis.Shows o.catalog l => hc.run_remove_of_not_shows hax h mode keys
  have halone := fun (h : axis.Shows o.catalog l) hnone hothers => hc.run_remove_of_alone hax h hnone hothers mode keys
  have hremoved := fun (h : axis.Shows o.catalog l) hsome => hc.exists_removed hax h hsome mode hk
  have hcases : ((∃ m, o.Remains axis l m) ∨ ∃ n ∈ axis.hierarchies, n ≠ l.hierarchy) ∨
      (∀ m, ¬o.Remains axis l m) ∧ ∀ n ∈ axis.hierarchies, n = l.hierarchy := by
    by_cases hsome : (∃ m, o.Remains axis l m) ∨ ∃ n ∈ axis.hierarchies, n ≠ l.hierarchy
    · exact Or.inl hsome
    · simpa [not_or] using Or.inr hsome
  refine ⟨⟨?_, ?_⟩, hc.not_shows_iff hax, hrefused, ⟨?_, ?_⟩, ?_⟩
  · intro herror h
    obtain ⟨name, herror⟩ := herror
    rcases hcases with hsome | ⟨hnone, hothers⟩
    · obtain ⟨axis', haxis', -⟩ := hremoved h hsome
      rw [haxis'] at herror
      nomatch herror
    · rw [halone h hnone hothers] at herror
      nomatch herror
  · intro h
    rw [hrefused h]
    exact ⟨_, rfl⟩
  · intro herror
    by_cases h : axis.Shows o.catalog l
    · refine ⟨h, hcases.resolve_left ?_⟩
      intro hsome
      obtain ⟨axis', haxis', -⟩ := hremoved h hsome
      rw [haxis'] at herror
      nomatch herror
    · rw [hrefused h] at herror
      nomatch herror
  · intro h
    exact halone h.1 h.2.1 h.2.2
  · intro h hsome
    obtain ⟨axis', haxis', hz, hspec⟩ := hremoved h hsome
    exact ⟨axis', haxis', hz, hspec.mem_hierarchies_iff (hc.mem_hierarchies_of_shows hax h), hspec⟩

/-- A family of the small cube and departments of this and the other one, joined with a gender. -/
def sampleUneven : Axis :=
  { nodes := #[
      .members [⟨"[Product].[All].[Drink]", "Drink", "Product", 1, 0, some "[Product].[All]"⟩,
        ⟨"[Product].[All].[Drink].[Dairy]", "Dairy", "Product", 2, 0, some "[Product].[All].[Drink]"⟩,
        ⟨"[Product].[All].[Food [new]]].[Snacks]", "Snacks", "Product", 2, 2, some "[Product].[All].[Food [new]]]"⟩],
      .members [⟨"[Gender].[All].[F]", "F", "Gender", 1, 0, some "[Gender].[All]"⟩],
      .join .call 0 1]
    root := some 2 }

/-- On the small cube departments are rolled up to a family that is there and to one that is not, a level that the cube has by another
name is refused, and the genders cannot go where nothing else is there. -/
theorem sample_remove_exactly :
    (∃ removed, ((Mutation.remove ⟨"Product", "Department", 2⟩).run sample.catalog .preserve [] sampleUneven).result = .ok removed ∧
        sample.Removed sampleUneven ⟨"Product", "Department", 2⟩ removed ∧
        removed.memberSets.map (·.map (·.name)) = [["Drink", "Food [new]"], ["F"]]) ∧
      (Mutation.remove ⟨"Gender", "Sex", 1⟩).run sample.catalog .preserve [] sampleUneven =
        ⟨.error (.levelNotVisible "[Gender].[Sex]"), [], []⟩ ∧
      ((Mutation.remove ⟨"Gender", "Gender", 1⟩).run sample.catalog .preserve [] sampleGender).result = .error .emptyAxis := by
  obtain ⟨huneven, hgender, hrolled, hother, hlevel, hshown, hdepths, hmembers, halone⟩ :
      (∀ m ∈ sampleUneven.members, sample.member? m.uniqueName = some m) ∧
      (∀ m ∈ sampleGender.members, sample.member? m.uniqueName = some m) ∧
      ((Mutation.remove ⟨"Product", "Department", 2⟩).run sample.catalog .preserve [] sampleUneven).result.toOption.any (fun removed =>
        decide (removed.memberSets.map (·.map (·.name)) = [["Drink", "Food [new]"], ["F"]])) = true ∧
      "Gender" ∈ sampleUneven.hierarchies ∧ ¬sample.HasLevel ⟨"Gender", "Sex", 1⟩ ∧
      (sample.HasLevel ⟨"Gender", "Gender", 1⟩ ∧ 1 ∈ sampleGender.depths "Gender" ∧
        sample.isVisible ⟨"Gender", "Gender", 1⟩ = true) ∧
      sampleGender.depths "Gender" = [1] ∧ (∀ m ∈ sampleGender.membersOf "Gender", m.depth = 1) ∧
      ∀ n ∈ sampleGender.hierarchies, n = "Gender" := by
    decide +kernel
  have hk := remembers_nil sample
  refine ⟨?_, ?_, ?_⟩
  · obtain ⟨removed, hremoved, hnames⟩ := exists_of_any_toOption hrolled
    obtain ⟨hrefused, -, -, -, hsucceeds⟩ := orderly_sample.remove_exactly huneven ⟨"Product", "Department", 2⟩ .preserve hk
    have hshows : sampleUneven.Shows sample.catalog ⟨"Product", "Department", 2⟩ := by
      by_contra hnot
      obtain ⟨_, herror⟩ := hrefused.2 hnot
      rw [hremoved] at herror
      nomatch herror
    obtain ⟨_, hsame, -, -, hspec⟩ := hsucceeds hshows (Or.inr ⟨"Gender", hother, by decide⟩)
    obtain rfl := Except.ok.inj (hremoved.symm.trans hsame)
    exact ⟨removed, hremoved, hspec, of_decide_eq_true hnames⟩
  · obtain ⟨-, hreasons, hrefused, -⟩ := orderly_sample.remove_exactly huneven ⟨"Gender", "Sex", 1⟩ .preserve hk
    exact hrefused (hreasons.2 (Or.inr (Or.inr (Or.inr hlevel))))
  · obtain ⟨-, -, -, hempty, -⟩ := orderly_sample.remove_exactly hgender ⟨"Gender", "Gender", 1⟩ .preserve hk
    refine hempty.2 ⟨(orderly_sample.consistent.shows_iff hgender).2 hshown, ?_, halone⟩
    intro m h
    rcases h with ⟨hm, hd⟩ | ⟨-, above, habove, -⟩
    · exact hd (hmembers m hm)
    · obtain ⟨hin, hlt, -⟩ := habove
      rw [hdepths, List.mem_singleton] at hin
      exact absurd hlt (Nat.not_lt.2 (Nat.le_of_eq hin.symm))

end Outline

end CubeAxes
