import CubeAxes.Proofs.Axis.Joined
import CubeAxes.Proofs.Outline.Anchors

/-!
# Adding a level, exactly

What adding a level to an axis of held members comes to (`Outline.Orderly.add_exactly`). A position beyond the hierarchies is refused
whatever the catalog. Any other succeeds: where the hierarchy is there (`Outline.Consistent.exists_add_of_mem`) its operand is widened by
what drilling brings in, and the position does not matter further; where it is not (`Outline.Consistent.exists_add_of_not_mem`) an operand
of all the members of the level comes in at the position, even if there are none.
-/

namespace CubeAxes

/-- An axis has as many selections as hierarchies. -/
theorem Axis.length_selections (axis : Axis) : axis.selections.length = axis.hierarchies.length := by
  rw [← Axis.map_hierarchy_selections, List.length_map]

/-- A position beyond the hierarchies on an axis is refused whatever the catalog, whether or not the hierarchy of the level is there.
Nothing is reported, and no sort key is remembered. -/
theorem Mutation.run_add_of_length_lt {axis : Axis} {position : Int} (hp : (axis.hierarchies.length : Int) < position) (cat : Catalog)
    (l : Level) (mode : HierarchizeMode) (keys : SortKeys) :
    (Mutation.add l position).run cat mode keys axis = ⟨.error (.invalidPosition position axis.hierarchies.length), keys, []⟩ := by
  rw [← Axis.length_selections] at hp ⊢
  rw [run, edit, Edit.adding_of_length_lt hp]

namespace Outline

/-- What adding a level at a position makes of the operands of an axis. Where the hierarchy is there, every operand holds what was there,
and that of the hierarchy also what comes of drilling it to the level. Where it is not, an operand of all the members of the level comes
in at an index that does not exceed the number of hierarchies: the position or, if that is negative, the end. -/
structure Added (o : Outline) (axis : Axis) (l : Level) (position : Int) (axis' : Axis) : Prop where
  drilled : l.hierarchy ∈ axis.hierarchies → o.OperandsAre axis' axis.hierarchies fun n m =>
    m ∈ axis.membersOf n ∨ n = l.hierarchy ∧ o.DrillsTo (axis.membersOf l.hierarchy) l m
  inserted : l.hierarchy ∉ axis.hierarchies → ∃ index, index ≤ axis.hierarchies.length ∧
    (index : Int) = (if position < 0 then (axis.hierarchies.length : Int) else position) ∧
    o.OperandsAre axis' (axis.hierarchies.insertIdx index l.hierarchy) fun n m =>
      m ∈ axis.membersOf n ∨ n = l.hierarchy ∧ o.Holds m ∧ m.hierarchy = l.hierarchy ∧ m.depth = l.depth

variable {o : Outline} {axis : Axis} {l : Level} {position : Int} {keys : SortKeys}

/-- A level whose hierarchy is on the axis widens the operand of that by what comes of drilling its members to the level. -/
theorem Consistent.exists_add_of_mem (hc : Consistent o) (hax : ∀ m ∈ axis.members, o.Holds m) (hl : o.HasTable l)
    (hin : l.hierarchy ∈ axis.hierarchies) (hp : position ≤ axis.hierarchies.length) (mode : HierarchizeMode)
    (hk : o.Remembers keys) :
    ∃ axis', ((Mutation.add l position).run o.catalog mode keys axis).result = .ok axis' ∧
      axis'.hierarchize = mode.apply axis.hierarchize ∧
      o.OperandsAre axis' axis.hierarchies fun n m =>
        m ∈ axis.membersOf n ∨ n = l.hierarchy ∧ o.DrillsTo (axis.membersOf l.hierarchy) l m := by
  obtain ⟨drilled, hdrilled, hmem⟩ := hc.exists_expand_drillsTo hl (holdsAll_membersOf hax l.hierarchy)
  rw [← Axis.length_selections] at hp
  obtain ⟨notes, hadding⟩ := Edit.adding_of_mem hp hin hdrilled
  have hedit : (Mutation.add l position).edit o.catalog axis = .ok _ := hadding
  have hne : axis.selections ≠ [] := by
    intro hnil
    rw [← Axis.map_hierarchy_selections, hnil] at hin
    exact absurd hin List.not_mem_nil
  obtain ⟨axis', haxis', hz, hoperands⟩ := hc.exists_operandsAre_of_edit hax hedit (by simpa using hne) mode hk
  refine ⟨axis', haxis', hz, hoperands ?_ ?_⟩
  · rw [Selection.map_hierarchy_change, Axis.map_hierarchy_selections]
  · intro s' hs' m
    obtain ⟨s, hs, rfl⟩ := List.mem_map.1 hs'
    rw [Selection.mem_change_append, Selection.hierarchy_change, (Axis.mem_selections.1 hs).2, hmem]

/-- A level whose hierarchy is not on the axis comes in as an operand of its own that holds all its members. -/
theorem Consistent.exists_add_of_not_mem (hc : Consistent o) (hax : ∀ m ∈ axis.members, o.Holds m) (hl : o.HasTable l)
    (hin : l.hierarchy ∉ axis.hierarchies) (hp : position ≤ axis.hierarchies.length) (mode : HierarchizeMode)
    (hk : o.Remembers keys) :
    ∃ axis', ((Mutation.add l position).run o.catalog mode keys axis).result = .ok axis' ∧
      axis'.hierarchize = mode.apply axis.hierarchize ∧
      o.OperandsAre axis'
        (axis.hierarchies.insertIdx (if position < 0 then axis.hierarchies.length else position.toNat) l.hierarchy) fun n m =>
          m ∈ axis.membersOf n ∨ n = l.hierarchy ∧ o.Holds m ∧ m.hierarchy = l.hierarchy ∧ m.depth = l.depth := by
  obtain ⟨t, ht⟩ := hl
  rw [← Axis.length_selections] at hp ⊢
  obtain ⟨notes, hadding⟩ := Edit.adding_of_not_mem hp hin (membersOf_none ht)
  have hedit : (Mutation.add l position).edit o.catalog axis = .ok _ := hadding
  have hnone : ∀ m, m ∉ axis.membersOf l.hierarchy := by
    intro m hm
    exact hin (Axis.mem_hierarchies_of_mem_membersOf hm)
  have hnew := (List.mem_insertIdx (a := ⟨l.hierarchy, o.rows l.hierarchy l.depth⟩) (Edit.index_le hp)).2 (Or.inl rfl)
  obtain ⟨axis', haxis', hz, hoperands⟩ := hc.exists_operandsAre_of_edit hax hedit (List.ne_nil_of_mem hnew) mode hk
  refine ⟨axis', haxis', hz, hoperands ?_ ?_⟩
  · rw [List.map_insertIdx, Axis.map_hierarchy_selections]
  · intro s hs m
    rcases List.eq_or_mem_of_mem_insertIdx hs with rfl | hs
    · simp [hc.mem_rows, hnone]
    · obtain ⟨hh, hms⟩ := Axis.mem_selections.1 hs
      have hne : s.hierarchy ≠ l.hierarchy := by
        intro heq
        exact hin (heq ▸ hh)
      simp [hms, hne]

/-- A level is added at every position that is not beyond the hierarchies. -/
theorem Consistent.exists_added (hc : Consistent o) (hax : ∀ m ∈ axis.members, o.Holds m) (hl : o.HasTable l)
    (hp : position ≤ axis.hierarchies.length) (mode : HierarchizeMode) (hk : o.Remembers keys) :
    ∃ axis', ((Mutation.add l position).run o.catalog mode keys axis).result = .ok axis' ∧
      axis'.hierarchize = mode.apply axis.hierarchize ∧ o.Added axis l position axis' := by
  by_cases hin : l.hierarchy ∈ axis.hierarchies
  · obtain ⟨axis', haxis', hz, hoperands⟩ := hc.exists_add_of_mem hax hl hin hp mode hk
    refine ⟨axis', haxis', hz, fun _ => hoperands, ?_⟩
    intro hnot
    exact absurd hin hnot
  · obtain ⟨axis', haxis', hz, hoperands⟩ := hc.exists_add_of_not_mem hax hl hin hp mode hk
    refine ⟨axis', haxis', hz, fun hmem => absurd hmem hin, ?_⟩
    intro _
    refine ⟨_, Edit.index_le hp, ?_, hoperands⟩
    split <;> omega

/-- What adding a level of an orderly outline to an axis of held members comes to, wherever it is to stand. It fails for its position just
when that is beyond the hierarchies on the axis; then the catalog is asked nothing, so that any catalog would do, and it does not matter
whether the hierarchy of the level is there. Otherwise it succeeds, and what was added is just what was to be. -/
theorem Orderly.add_exactly (ho : Orderly o) (hax : ∀ m ∈ axis.members, o.Holds m) (hl : o.HasLevel l) (position : Int)
    (mode : HierarchizeMode) (hk : o.Remembers keys) :
    ((∃ count, ((Mutation.add l position).run o.catalog mode keys axis).result = .error (.invalidPosition position count)) ↔
        (axis.hierarchies.length : Int) < position) ∧
      ((axis.hierarchies.length : Int) < position → ∀ cat keys', (Mutation.add l position).run cat mode keys' axis =
        ⟨.error (.invalidPosition position axis.hierarchies.length), keys', []⟩) ∧
      (position ≤ axis.hierarchies.length → ∃ axis',
        ((Mutation.add l position).run o.catalog mode keys axis).result = .ok axis' ∧
        axis'.hierarchize = mode.apply axis.hierarchize ∧ o.Added axis l position axis') := by
  have hrefused : (axis.hierarchies.length : Int) < position → ∀ cat keys', (Mutation.add l position).run cat mode keys' axis =
      ⟨.error (.invalidPosition position axis.hierarchies.length), keys', []⟩ := by
    intro hp cat keys'
    exact Mutation.run_add_of_length_lt hp cat l mode keys'
  have hsucceeds := fun hp : position ≤ axis.hierarchies.length => ho.consistent.exists_added hax hl.hasTable hp mode hk
  refine ⟨⟨?_, ?_⟩, hrefused, hsucceeds⟩
  · intro h
    obtain ⟨count, herror⟩ := h
    by_contra hp
    obtain ⟨axis', haxis', -⟩ := hsucceeds (Int.not_lt.1 hp)
    rw [haxis'] at herror
    nomatch herror
  · intro hp
    rw [hrefused hp]
    exact ⟨_, rfl⟩

/-- On the small cube departments are drilled to on a union of tuples and joins, families come in before a gender, and a position beyond
the hierarchies is refused before it is found that there is an outage. -/
theorem sample_add_exactly :
    (∃ added, (sampleDrill.run sample.catalog .preserve [] sampleUnited).result = .ok added ∧
        sample.Added sampleUnited ⟨"Product", "Department", 2⟩ 0 added ∧
        added.memberSets.map (·.map (·.name)) = [["Drink", "Dairy", "Beverages", "Food [new]", "Snacks"], ["F", "M"]]) ∧
      (∃ added, ((Mutation.add ⟨"Product", "Family", 1⟩ 0).run sample.catalog .preserve [] sampleGender).result = .ok added ∧
        sample.Added sampleGender ⟨"Product", "Family", 1⟩ 0 added ∧
        added.memberSets.map (·.map (·.name)) = [["Drink", "Food [new]"], ["F"]]) ∧
      (Mutation.add ⟨"Product", "Department", 2⟩ 3).run (sample.catalog.outage "down") .preserve [] sampleUnited =
        ⟨.error (.invalidPosition 3 sampleUnited.hierarchies.length), [], []⟩ := by
  obtain ⟨hunited, hgender, hdepartments, hfamilies, hlength, hdrilled, hinserted⟩ :
      (∀ m ∈ sampleUnited.members, sample.member? m.uniqueName = some m) ∧
      (∀ m ∈ sampleGender.members, sample.member? m.uniqueName = some m) ∧ sample.HasLevel ⟨"Product", "Department", 2⟩ ∧
      sample.HasLevel ⟨"Product", "Family", 1⟩ ∧ sampleUnited.hierarchies.length = 2 ∧
      (sampleDrill.run sample.catalog .preserve [] sampleUnited).result.toOption.any (fun added => decide
        (added.memberSets.map (·.map (·.name)) = [["Drink", "Dairy", "Beverages", "Food [new]", "Snacks"], ["F", "M"]])) = true ∧
      ((Mutation.add ⟨"Product", "Family", 1⟩ 0).run sample.catalog .preserve [] sampleGender).result.toOption.any (fun added => decide
        (added.memberSets.map (·.map (·.name)) = [["Drink", "Food [new]"], ["F"]])) = true := by
    decide +kernel
  have hk := remembers_nil sample
  refine ⟨?_, ?_, ?_⟩
  · obtain ⟨added, hadded, -, hspec⟩ := (orderly_sample.add_exactly hunited hdepartments 0 .preserve hk).2.2 (by omega)
    obtain ⟨_, hsame, hnames⟩ := exists_of_any_toOption hdrilled
    obtain rfl := Except.ok.inj (hadded.symm.trans hsame)
    exact ⟨added, hadded, hspec, of_decide_eq_true hnames⟩
  · obtain ⟨added, hadded, -, hspec⟩ := (orderly_sample.add_exactly hgender hfamilies 0 .preserve hk).2.2 (by omega)
    obtain ⟨_, hsame, hnames⟩ := exists_of_any_toOption hinserted
    obtain rfl := Except.ok.inj (hadded.symm.trans hsame)
    exact ⟨added, hadded, hspec, of_decide_eq_true hnames⟩
  · exact (orderly_sample.add_exactly hunited hdepartments 3 .preserve hk).2.1 (by omega) _ _

end Outline

end CubeAxes
