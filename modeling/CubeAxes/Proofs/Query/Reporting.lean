import CubeAxes.Proofs.Arena.Reached
import CubeAxes.Proofs.Axis.Joined
import CubeAxes.Proofs.Axis.Tracking
import CubeAxes.Proofs.Query.Rereading

/-!
# What is reported as visible

The visible levels of an axis are those that the catalog shows and at which some member is reached, whatever the set on the axis was put
together like. They come hierarchy by hierarchy, in the order in which the set is read, and by depth (`Outline.Reports`). Those of one
hierarchy are the part of this list that is of the hierarchy; a hierarchy of which no member is reached is refused, and one all of whose
levels are hidden is not. A query answers for a hierarchy from the first of its axes on which that occurs
(`Outline.Orderly.reports_exactly`).
-/

namespace CubeAxes

/-- A hierarchy occurs on an axis: some member of it is reached there. -/
def Axis.Occurs (axis : Axis) (hierarchy : String) : Prop := ∃ m, axis.Reached m ∧ m.hierarchy = hierarchy

/-- On an axis whose nodes are ordered the hierarchies that occur are those that it has. -/
theorem Axis.mem_hierarchies_iff_occurs {axis : Axis} (h : axis.nodes.Ordered) {hierarchy : String} :
    hierarchy ∈ axis.hierarchies ↔ axis.Occurs hierarchy := by
  simp only [mem_hierarchies, mem_members_iff_reached h, Occurs]

/-- The visible levels of a hierarchy that an axis does not have are refused, whatever the catalog. -/
theorem Axis.visibleLevelsOf_of_not_mem {axis : Axis} {hierarchy : String} (h : hierarchy ∉ axis.hierarchies) (cat : Catalog) :
    axis.visibleLevelsOf cat hierarchy = .error (.hierarchyNotOnAxis hierarchy) := by
  have hdepths : axis.depths hierarchy = [] := by
    refine List.eq_nil_iff_forall_not_mem.2 fun d hd => h ?_
    obtain ⟨m, hm, -⟩ := mem_depths.1 hd
    exact mem_hierarchies.2 ⟨m, mem_of_mem_membersOf hm⟩
  rw [visibleLevelsOf, if_pos hdepths]
  rfl

namespace Outline

/-- An outline furnishes an axis: that was built, and all members that are reached on it are held. -/
structure Furnishes (o : Outline) (axis : Axis) : Prop where
  built : axis.Built
  held : ∀ m, axis.Reached m → o.Holds m

/-- Levels are a report of what is visible on an axis. They are the levels that the catalog shows and at whose depth a member of their
hierarchy is reached, none of them twice. Those of one hierarchy stand next to one another and by depth, and of two hierarchies the one
that comes first in the reading of the axis has its levels first. -/
structure Reports (o : Outline) (axis : Axis) (visible : List Level) : Prop where
  levels : ∀ l, l ∈ visible ↔ o.HasLevel l ∧ o.isVisible l = true ∧ ∃ m, axis.Reached m ∧ m.hierarchy = l.hierarchy ∧ m.depth = l.depth
  nodup : visible.Nodup
  depths : visible.Pairwise fun a b => a.hierarchy = b.hierarchy → a.depth < b.depth
  contiguous : ∀ a b c, [a, b, c].Sublist visible → a.hierarchy = c.hierarchy → b.hierarchy = a.hierarchy
  order : visible.Pairwise fun a b => a.hierarchy ≠ b.hierarchy →
    (axis.reading.map (·.hierarchy)).idxOf a.hierarchy < (axis.reading.map (·.hierarchy)).idxOf b.hierarchy

variable {o : Outline} {axis : Axis}

/-- The members on an axis that an outline furnishes are held. -/
theorem Furnishes.holds (h : o.Furnishes axis) : ∀ m ∈ axis.members, o.Holds m :=
  fun m hm => h.held m ((Axis.mem_members_iff_reached h.built.nodes.ordered).1 hm)

/-- An outline furnishes an axis when its nodes are ordered, its set is one of them, and its members are held. -/
theorem furnishes_iff :
    o.Furnishes axis ↔ axis.nodes.Ordered ∧ (∀ id ∈ axis.root, id < axis.nodes.size) ∧ ∀ m ∈ axis.members, o.member? m.uniqueName = some m := by
  constructor
  · intro h
    exact ⟨h.built.nodes.ordered, h.built.root, h.holds⟩
  · rintro ⟨hnodes, hroot, hmembers⟩
    exact ⟨⟨hnodes.built, hroot⟩, fun m hm => hmembers m ((Axis.mem_members_iff_reached hnodes).2 hm)⟩

/-- Whether an outline furnishes an axis can be told from its nodes and its members. -/
instance decidableFurnishes (o : Outline) (axis : Axis) : Decidable (o.Furnishes axis) := decidable_of_iff _ furnishes_iff.symm

/-- The depths at which an axis that an outline furnishes has members of a hierarchy are those at which one is reached. -/
theorem Furnishes.mem_depths_iff (h : o.Furnishes axis) {hierarchy : String} {d : Nat} :
    d ∈ axis.depths hierarchy ↔ ∃ m, axis.Reached m ∧ m.hierarchy = hierarchy ∧ m.depth = d := by
  simp only [Axis.mem_depths, mem_membersOf h.holds, Axis.mem_members_iff_reached h.built.nodes.ordered, and_assoc]

/-- Levels that stand by depth where they are of one hierarchy, and otherwise in the order in which their hierarchies are read, are a report
of an axis if they are the ones to be reported. -/
theorem reports_of_pairwise {visible : List Level}
    (hlevels : ∀ l, l ∈ visible ↔
      o.HasLevel l ∧ o.isVisible l = true ∧ ∃ m, axis.Reached m ∧ m.hierarchy = l.hierarchy ∧ m.depth = l.depth)
    (h : visible.Pairwise fun a b => (a.hierarchy = b.hierarchy ∧ a.depth < b.depth) ∨
      (axis.reading.map (·.hierarchy)).idxOf a.hierarchy < (axis.reading.map (·.hierarchy)).idxOf b.hierarchy) :
    o.Reports axis visible := by
  have horder : visible.Pairwise fun a b => a.hierarchy ≠ b.hierarchy →
      (axis.reading.map (·.hierarchy)).idxOf a.hierarchy < (axis.reading.map (·.hierarchy)).idxOf b.hierarchy :=
    h.imp fun hab hne => hab.resolve_left fun heq => hne heq.1
  have hdepths : visible.Pairwise fun a b => a.hierarchy = b.hierarchy → a.depth < b.depth := by
    refine h.imp fun {a b} hab heq => (hab.resolve_right fun hlt => ?_).2
    rw [heq] at hlt
    exact Nat.lt_irrefl _ hlt
  refine ⟨hlevels, ?_, hdepths, ?_, horder⟩
  · refine hdepths.imp fun hab heq => ?_
    subst heq
    exact Nat.lt_irrefl _ (hab rfl)
  · -- a level of another hierarchy would be read after the first one's hierarchy and before it
    intro a b c hsub hac
    obtain ⟨hab, hbc⟩ := pairwise_of_triple horder hsub
    by_contra hne
    have hab := hab (Ne.symm hne)
    have hbc := hbc (hac ▸ hne)
    rw [hac] at hab
    omega

/-- The visible levels of an axis that an outline furnishes are reported, and those of each hierarchy that occurs are the part of them that
is of the hierarchy. -/
theorem Consistent.exists_reports (hc : Consistent o) (h : o.Furnishes axis) :
    ∃ visible, axis.visibleLevels o.catalog = .ok visible ∧ o.Reports axis visible ∧
      ∀ n, axis.Occurs n → axis.visibleLevelsOf o.catalog n = .ok (visible.filter fun l => decide (l.hierarchy = n)) := by
  have hordered := h.built.nodes.ordered
  have hgiven : ∀ n ∈ axis.hierarchies, ∃ visible, axis.visibleLevelsOf o.catalog n = .ok visible ∧
      (∀ l, l ∈ visible ↔ (o.HasLevel l ∧ o.isVisible l = true ∧ l.depth ∈ axis.depths l.hierarchy) ∧ l.hierarchy = n) ∧
      visible.Pairwise fun a b => a.depth < b.depth := by
    intro n hn
    obtain ⟨m, hm⟩ := exists_mem_membersOf h.holds hn
    obtain ⟨visible, hvisible, hmem, hpair⟩ := hc.exists_visibleLevelsOf (List.ne_nil_of_mem hm) (holdsAll_membersOf h.holds n)
    refine ⟨visible, hvisible, fun l => ?_, hpair⟩
    rw [hmem]
    constructor
    · rintro ⟨hlevel, rfl, hd, hv⟩
      exact ⟨⟨hlevel, hv, hd⟩, rfl⟩
    · rintro ⟨⟨hlevel, hv, hd⟩, rfl⟩
      exact ⟨hlevel, rfl, hd, hv⟩
  have hread : axis.hierarchies.Pairwise fun a b =>
      (axis.reading.map (·.hierarchy)).idxOf a < (axis.reading.map (·.hierarchy)).idxOf b := by
    rw [← Axis.members_eq_reading]
    exact pairwise_idxOf_distinctOn _
  obtain ⟨visible, hvisible, hmem, hpair, hpart⟩ := Axis.exists_visibleLevels hgiven hread
  refine ⟨visible, hvisible, reports_of_pairwise (fun l => ?_) hpair, fun n hn => hpart n ?_⟩
  · rw [hmem, h.mem_depths_iff, Axis.mem_hierarchies_iff_occurs hordered]
    refine and_iff_left_of_imp ?_
    rintro ⟨-, -, m, hr, hh, -⟩
    exact ⟨m, hr, hh⟩
  · exact (Axis.mem_hierarchies_iff_occurs hordered).2 hn

/-- The visible levels of a hierarchy are refused just when it does not occur on an axis that an outline furnishes. -/
theorem Consistent.visibleLevelsOf_eq_error_iff (hc : Consistent o) (h : o.Furnishes axis) {n : String} :
    axis.visibleLevelsOf o.catalog n = .error (.hierarchyNotOnAxis n) ↔ ¬axis.Occurs n := by
  constructor
  · intro herror hn
    obtain ⟨visible, -, -, hpart⟩ := hc.exists_reports h
    nomatch herror.symm.trans (hpart n hn)
  · intro hn
    exact Axis.visibleLevelsOf_of_not_mem (fun hin => hn ((Axis.mem_hierarchies_iff_occurs h.built.nodes.ordered).1 hin)) _

end Outline

/-! ## Over the axes of a query -/

namespace Query

variable {q : Query} {n : String}

/-- What is found first among the axes of a query is found by going through the names by ordinal. -/
theorem find?_axisList (q : Query) (p : AxisName × Axis → Bool) :
    q.axisList.find? p = (AxisName.all.find? fun a => (q.axes a).any fun axis => p (a, axis)).bind fun a => (q.axes a).map (a, ·) := by
  rw [axisList, List.find?_filterMap]
  simp only [Option.any_map]

/-- A query answers for a hierarchy from the axis of the lowest ordinal that has it. -/
theorem exists_lowest (h : ∃ name axis, q.axes name = some axis ∧ n ∈ axis.hierarchies) :
    ∃ i name axis, AxisName.ofOrdinal? i = some name ∧ q.axes name = some axis ∧ n ∈ axis.hierarchies ∧
      (∀ j < i, ∀ name' axis', AxisName.ofOrdinal? j = some name' → q.axes name' = some axis' → n ∉ axis'.hierarchies) ∧
      ∀ cat, q.visibleLevelsOf cat n = axis.visibleLevelsOf cat n := by
  have hhas : ∀ name, ((q.axes name).any fun axis => decide (n ∈ axis.hierarchies)) = true ↔
      ∃ axis, q.axes name = some axis ∧ n ∈ axis.hierarchies := by
    intro name
    cases q.axes name <;> simp
  cases hfind : AxisName.all.find? fun name => (q.axes name).any fun axis => decide (n ∈ axis.hierarchies) with
  | none =>
    obtain ⟨name, hname⟩ := h
    exact absurd ((hhas name).2 hname) (List.find?_eq_none.1 hfind name name.mem_all)
  | some name =>
    obtain ⟨hname, i, hi, hget, hbefore⟩ := List.find?_eq_some_iff_getElem.1 hfind
    obtain ⟨axis, haxis, hn⟩ := (hhas name).1 hname
    refine ⟨i, name, axis, ?_, haxis, hn, ?_, fun cat => ?_⟩
    · rw [AxisName.ofOrdinal?, List.getElem?_eq_getElem hi, hget]
    · intro j hj name' axis' hname' haxis' hn'
      obtain ⟨hlt, hget'⟩ := List.getElem?_eq_some_iff.1 hname'
      have hnone := hbefore j hj
      rw [hget', Bool.not_eq_true', (hhas name').2 ⟨axis', haxis', hn'⟩] at hnone
      nomatch hnone
    · rw [visibleLevelsOf, find?_axisList, hfind, Option.bind_some, haxis]
      rfl

/-- A query refuses a hierarchy that none of its axes has, whatever the catalog. -/
theorem visibleLevelsOf_of_forall_not_mem (h : ∀ name axis, q.axes name = some axis → n ∉ axis.hierarchies) (cat : Catalog) :
    q.visibleLevelsOf cat n = .error (.hierarchyNotOnAxis n) := by
  have hnone : (q.axisList.find? fun a => decide (n ∈ a.2.hierarchies)) = none := by
    refine List.find?_eq_none.2 fun a ha hn => ?_
    exact h a.1 a.2 (mem_axisList.1 ha) (of_decide_eq_true hn)
  rw [visibleLevelsOf, hnone]

end Query

namespace Outline

variable {o : Outline}

/-- What is reported as visible over an orderly outline. Of every axis that it furnishes the visible levels are reported; those of a
hierarchy that occurs there are the part of them that is of it, even if that is none, and a hierarchy that does not occur is refused. A
query all of whose axes are such refuses a hierarchy that occurs on none of them; for any other it answers with the part that is of the
hierarchy of what it reports for one axis, that of the lowest ordinal among those on which the hierarchy occurs. -/
theorem Orderly.reports_exactly (ho : Orderly o) :
    (∀ axis, o.Furnishes axis → ∃ visible, axis.visibleLevels o.catalog = .ok visible ∧ o.Reports axis visible ∧
      ∀ n, (axis.Occurs n → axis.visibleLevelsOf o.catalog n = .ok (visible.filter fun l => decide (l.hierarchy = n))) ∧
        (axis.visibleLevelsOf o.catalog n = .error (.hierarchyNotOnAxis n) ↔ ¬axis.Occurs n)) ∧
    (∀ q : Query, (∀ name axis, q.axes name = some axis → o.Furnishes axis) → ∀ n,
      (q.visibleLevelsOf o.catalog n = .error (.hierarchyNotOnAxis n) ↔ ∀ name axis, q.axes name = some axis → ¬axis.Occurs n) ∧
      ((∃ name axis, q.axes name = some axis ∧ axis.Occurs n) → ∃ i name axis visible,
        AxisName.ofOrdinal? i = some name ∧ q.axes name = some axis ∧ axis.Occurs n ∧
        (∀ j < i, ∀ name' axis', AxisName.ofOrdinal? j = some name' → q.axes name' = some axis' → ¬axis'.Occurs n) ∧
        q.visibleLevels o.catalog name = .ok visible ∧
        q.visibleLevelsOf o.catalog n = .ok (visible.filter fun l => decide (l.hierarchy = n)))) := by
  have hc := ho.consistent
  constructor
  · intro axis haxis
    obtain ⟨visible, hvisible, hreports, hpart⟩ := hc.exists_reports haxis
    exact ⟨visible, hvisible, hreports, fun n => ⟨hpart n, hc.visibleLevelsOf_eq_error_iff haxis⟩⟩
  · intro q hq n
    have hoccurs : ∀ name axis, q.axes name = some axis → (n ∈ axis.hierarchies ↔ axis.Occurs n) := fun name axis haxis =>
      Axis.mem_hierarchies_iff_occurs (hq name axis haxis).built.nodes.ordered
    have hlowest : (∃ name axis, q.axes name = some axis ∧ axis.Occurs n) → ∃ i name axis visible,
        AxisName.ofOrdinal? i = some name ∧ q.axes name = some axis ∧ axis.Occurs n ∧
        (∀ j < i, ∀ name' axis', AxisName.ofOrdinal? j = some name' → q.axes name' = some axis' → ¬axis'.Occurs n) ∧
        q.visibleLevels o.catalog name = .ok visible ∧
        q.visibleLevelsOf o.catalog n = .ok (visible.filter fun l => decide (l.hierarchy = n)) := by
      rintro ⟨name, axis, haxis, hn⟩
      obtain ⟨i, name, axis, hi, haxis, hn, hbefore, hanswer⟩ := q.exists_lowest ⟨name, axis, haxis, (hoccurs name axis haxis).2 hn⟩
      obtain ⟨visible, hvisible, -, hpart⟩ := hc.exists_reports (hq name axis haxis)
      have hn' := (hoccurs name axis haxis).1 hn
      refine ⟨i, name, axis, visible, hi, haxis, hn', ?_, ?_, (hanswer _).trans (hpart n hn')⟩
      · intro j hj name' axis' hname' haxis' hn''
        exact hbefore j hj name' axis' hname' haxis' ((hoccurs name' axis' haxis').2 hn'')
      · rw [Query.visibleLevels, haxis]
        exact hvisible
    refine ⟨⟨?_, ?_⟩, hlowest⟩
    · intro herror name axis haxis hn
      obtain ⟨_, _, _, _, -, -, -, -, -, hanswer⟩ := hlowest ⟨name, axis, haxis, hn⟩
      nomatch herror.symm.trans hanswer
    · intro hnone
      refine Query.visibleLevelsOf_of_forall_not_mem (fun name axis haxis hn => ?_) _
      exact hnone name axis haxis ((hoccurs name axis haxis).1 hn)

/-- A set of members of the small cube, given by their names. -/
def sampleNode (names : List String) : Node := .members (names.filterMap sample.member?)

/-- Nodes over the small cube: a family, a department and all products, each joined with one gender, which they share; a union of the
joins, the first of them twice; and that joined with no members. -/
def sampleShared : Axis where
  nodes := #[sampleNode ["[Gender].[All].[F]"], sampleNode ["[Product].[All].[Food [new]]]"],
    sampleNode ["[Product].[All].[Drink].[Dairy]"], sampleNode ["[Product].[All]"], sampleNode [], .join .call 1 0, .join .tuple 2 0,
    .join .tuple 3 0, .union [5, 6, 7, 5], .join .call 8 4]
  root := some 9

/-- A family alone. -/
def sampleLone : Axis where
  nodes := #[sampleNode ["[Product].[All].[Food [new]]]"]]
  root := some 0

/-- All genders together. -/
def sampleTop : Axis where
  nodes := #[sampleNode ["[Gender].[All]"]]
  root := some 0

/-- A query with all genders together on its columns and the shared nodes on its rows. -/
def sampleQuery : Query where
  cube := "Sales"
  axes
    | .columns => some sampleTop
    | .rows => some sampleShared
    | _ => none
  slicer := none
  render := {}
  text := ""

/-- Where families are hidden, the top and the departments are reported for products and then the genders; a family alone shows nothing,
which is not refused, while the genders are; and a query answers for the genders from its columns, although they are on its rows too. -/
theorem sample_reports_exactly :
    (∃ visible, sampleShared.visibleLevels sampleHidden.catalog = .ok visible ∧ sampleHidden.Reports sampleShared visible ∧
      visible = [⟨"Product", "(All)", 0⟩, sampleDepartments, ⟨"Gender", "Gender", 1⟩]) ∧
    (sampleLone.visibleLevelsOf sampleHidden.catalog "Product" = .ok [] ∧
      sampleLone.visibleLevelsOf sampleHidden.catalog "Gender" = .error (.hierarchyNotOnAxis "Gender")) ∧
    (sampleQuery.visibleLevelsOf sampleHidden.catalog "Gender" = .ok [⟨"Gender", "(All)", 0⟩] ∧
      sampleQuery.visibleLevelsOf sampleHidden.catalog "Store" = .error (.hierarchyNotOnAxis "Store")) := by
  obtain ⟨hshared, hlone, hall, hvisible, hhidden, hproduct, hgender, htop, hcolumns, hstore⟩ :
      sampleHidden.Furnishes sampleShared ∧ sampleHidden.Furnishes sampleLone ∧
      (∀ name ∈ AxisName.all, ∀ axis ∈ sampleQuery.axes name, sampleHidden.Furnishes axis) ∧
      (sampleShared.visibleLevels sampleHidden.catalog).toOption =
        some [⟨"Product", "(All)", 0⟩, sampleDepartments, ⟨"Gender", "Gender", 1⟩] ∧
      (sampleLone.visibleLevels sampleHidden.catalog).toOption = some [] ∧
      "Product" ∈ sampleLone.hierarchies ∧ "Gender" ∉ sampleLone.hierarchies ∧ "Gender" ∈ sampleTop.hierarchies ∧
      (sampleQuery.visibleLevels sampleHidden.catalog .columns).toOption = some [⟨"Gender", "(All)", 0⟩] ∧
      (∀ name ∈ AxisName.all, ∀ axis ∈ sampleQuery.axes name, "Store" ∉ axis.hierarchies) := by
    decide +kernel
  have hq : ∀ name axis, sampleQuery.axes name = some axis → sampleHidden.Furnishes axis :=
    fun name axis haxis => hall name name.mem_all axis haxis
  have hoccurs : ∀ {axis}, sampleHidden.Furnishes axis → ∀ n, n ∈ axis.hierarchies ↔ axis.Occurs n :=
    fun h _ => Axis.mem_hierarchies_iff_occurs h.built.nodes.ordered
  obtain ⟨haxes, hqueries⟩ := orderly_sampleHidden.reports_exactly
  refine ⟨?_, ?_, ?_, ?_⟩
  · obtain ⟨visible, hok, hreports, -⟩ := haxes sampleShared hshared
    rw [hok] at hvisible
    exact ⟨visible, hok, hreports, Option.some.inj hvisible⟩
  · obtain ⟨visible, hok, -, hpart⟩ := haxes sampleLone hlone
    rw [hok] at hhidden
    obtain rfl := Option.some.inj hhidden
    exact ⟨(hpart "Product").1 ((hoccurs hlone _).1 hproduct), (hpart "Gender").2.2 fun hn => hgender ((hoccurs hlone _).2 hn)⟩
  · have hon : sampleTop.Occurs "Gender" := (hoccurs (hq .columns _ rfl) _).1 htop
    obtain ⟨i, name, axis, visible, hi, -, -, hbefore, hok, hanswer⟩ :=
      (hqueries sampleQuery hq "Gender").2 ⟨.columns, sampleTop, rfl, hon⟩
    have hfirst : i = 0 := Nat.eq_zero_of_not_pos fun hpos => hbefore 0 hpos .columns sampleTop rfl rfl hon
    subst hfirst
    obtain rfl : AxisName.columns = name := Option.some.inj hi
    rw [hok] at hcolumns
    obtain rfl := Option.some.inj hcolumns
    exact hanswer
  · refine (hqueries sampleQuery hq "Store").1.2 fun name axis haxis hn => ?_
    exact hstore name name.mem_all axis haxis ((hoccurs (hq name axis haxis) _).2 hn)

end Outline

end CubeAxes
