import CubeAxes.Proofs.Axis.Edited

/-!
# The members on an axis after a mutation

Which members stand on the axis that comes of a mutation that succeeds, for each mutation: adding keeps those that were there and brings
in more of one hierarchy (`Outline.Consistent.mem_members_of_add`), removing keeps those of the other hierarchies and leaves of its own
what is at other depths or rolled up to (`Outline.Consistent.mem_members_of_remove`), and placing puts there all the members at the
depths of its levels (`Outline.Consistent.mem_members_of_place`).
-/

namespace CubeAxes

namespace Outline

variable {o : Outline}

/-- The members on the axis that comes of a mutation are those of the selections that the edit leaves. -/
theorem Consistent.mem_members_of_run (hc : Consistent o) {axis axis' : Axis} (hax : ∀ m ∈ axis.members, o.Holds m) {m : Mutation}
    {mode : HierarchizeMode} {keys : SortKeys} (hk : o.Remembers keys) (h : (m.run o.catalog mode keys axis).result = .ok axis') :
    ∃ edit, m.edit o.catalog axis = .ok edit ∧ ∀ n, n ∈ axis'.members ↔ ∃ s ∈ edit.selections, n ∈ s.members := by
  obtain ⟨edit, he, hss, hh, hne, hsets⟩ := hc.spec_of_run hax hk h
  obtain ⟨axis'', haxis, -, -, hsel⟩ := exists_ofSets_ordered hne hss hh (mode.apply axis.hierarchize)
  obtain rfl := Except.ok.inj (haxis.symm.trans hsets)
  refine ⟨edit, he, fun n => ?_⟩
  rw [hsel.members, List.mem_flatMap]
  constructor
  · rintro ⟨_, hs', hn⟩
    obtain ⟨s, hs, rfl⟩ := List.mem_map.1 hs'
    exact ⟨s, hs, (mem_arranged fun k hk => (hss s hs k hk).1).1 hn⟩
  · rintro ⟨s, hs, hn⟩
    exact ⟨o.ordered s, List.mem_map_of_mem hs, (mem_arranged fun k hk => (hss s hs k hk).1).2 hn⟩

/-- The members on an axis are those of its selections. -/
theorem mem_members_iff_selections {axis : Axis} (hax : ∀ m ∈ axis.members, o.Holds m) {m : Member} :
    m ∈ axis.members ↔ ∃ s ∈ axis.selections, m ∈ s.members := by
  constructor
  · intro hm
    exact ⟨⟨m.hierarchy, axis.membersOf m.hierarchy⟩, Axis.mem_selections.2 ⟨Axis.mem_hierarchies.2 ⟨m, hm, rfl⟩, rfl⟩,
      (mem_membersOf hax).2 ⟨hm, rfl⟩⟩
  · rintro ⟨s, hs, hm⟩
    rw [(Axis.mem_selections.1 hs).2] at hm
    exact (Axis.mem_of_mem_membersOf hm).1

/-- Adding a level keeps the members on an axis and brings in those that drilling its hierarchy gives, or those of the level if the
hierarchy was not on the axis. -/
theorem Consistent.mem_members_of_add (hc : Consistent o) {axis axis' : Axis} (hax : ∀ m ∈ axis.members, o.Holds m) {l : Level}
    {position : Int} {mode : HierarchizeMode} {keys : SortKeys} (hk : o.Remembers keys)
    (h : ((Mutation.add l position).run o.catalog mode keys axis).result = .ok axis') :
    ∃ brought, (∀ m, m ∈ axis'.members ↔ m ∈ axis.members ∨ m ∈ brought) ∧ (∀ m ∈ brought, m.hierarchy = l.hierarchy) ∧
      ((l.hierarchy ∈ axis.hierarchies ∧ o.catalog.expand (axis.membersOf l.hierarchy) l = .ok brought) ∨
        (l.hierarchy ∉ axis.hierarchies ∧ o.catalog.membersOf l none = .ok brought)) := by
  obtain ⟨edit, he, hmem⟩ := hc.mem_members_of_run hax hk h
  obtain ⟨hp, hcases⟩ := Edit.cases_of_adding he
  rcases hcases with ⟨hin, drilled, hd, heq⟩ | ⟨hin, ms, hms, heq⟩
  · refine ⟨drilled, fun m => ?_, fun m hm => (hc.spec_of_expand (holdsAll_membersOf hax l.hierarchy) hd m hm).2.1, Or.inl ⟨hin, hd⟩⟩
    rw [hmem, heq, mem_members_iff_selections hax]
    simp only [List.mem_map, exists_exists_and_eq_and, Selection.mem_change_append, and_or_left, exists_or]
    refine or_congr_right ⟨?_, fun hm => ?_⟩
    · rintro ⟨s, -, -, hm⟩
      exact hm
    · exact ⟨⟨l.hierarchy, axis.membersOf l.hierarchy⟩, Axis.mem_selections.2 ⟨hin, rfl⟩, rfl, hm⟩
  · have hindex := Edit.index_le hp
    refine ⟨ms, fun m => ?_, fun m hm => ?_, Or.inr ⟨hin, of_asked_eq_ok hms⟩⟩
    · rw [hmem, heq, mem_members_iff_selections hax]
      simp only [List.mem_insertIdx hindex, or_and_right, exists_or, exists_eq_left]
      exact or_comm
    · rw [eq_rows_of_membersOf hms] at hm
      exact (hc.mem_rows.1 hm).2.1

/-- What is left of the selections when a level is removed: the other hierarchies, and in the place of its own what is left of that. -/
theorem mem_without {hierarchy : String} {left : List Member} (hleft : ∀ m ∈ left, o.Holds m) {ss : List Selection} {m : Member} :
    (∃ s ∈ without hierarchy left ss, m ∈ s.members) ↔
      (∃ s ∈ ss, s.hierarchy ≠ hierarchy ∧ m ∈ s.members) ∨ ((∃ s ∈ ss, s.hierarchy = hierarchy) ∧ m ∈ left) := by
  constructor
  · rintro ⟨s', hs', hm⟩
    obtain ⟨s, hs, he⟩ := List.mem_filterMap.1 hs'
    split at he
    · next hh =>
      split at he
      · nomatch he
      · obtain rfl := Option.some.inj he
        exact Or.inr ⟨⟨s, hs, hh⟩, mem_of_mem_distinctOn hm⟩
    · next hh =>
      obtain rfl := Option.some.inj he
      exact Or.inl ⟨s, hs, hh, hm⟩
  · rintro (⟨s, hs, hh, hm⟩ | ⟨⟨s, hs, hh⟩, hm⟩)
    · exact ⟨s, List.mem_filterMap.2 ⟨s, hs, if_neg hh⟩, hm⟩
    · refine ⟨{ s with members := distinctMembers left }, List.mem_filterMap.2 ⟨s, hs, ?_⟩, (mem_distinctMembers hleft).2 hm⟩
      rw [if_pos hh, if_neg (List.ne_nil_of_mem hm)]

/-- Removing a level keeps the members of the other hierarchies, and of its own what is left of that. -/
theorem Consistent.mem_members_of_remove (hc : Consistent o) {axis axis' : Axis} (hax : ∀ m ∈ axis.members, o.Holds m) {l : Level}
    {mode : HierarchizeMode} {keys : SortKeys} (hk : o.Remembers keys)
    (h : ((Mutation.remove l).run o.catalog mode keys axis).result = .ok axis') :
    l.depth ∈ axis.depths l.hierarchy ∧
      ∀ m, m ∈ axis'.members ↔ (m ∈ axis.members ∧ m.hierarchy ≠ l.hierarchy) ∨ o.Leaves axis l m := by
  obtain ⟨edit, he, hmem⟩ := hc.mem_members_of_run hax hk h
  obtain ⟨left, heq, hdepth, hheld, hleft⟩ := hc.exists_left_of_removing hax he
  obtain ⟨n, hn, -⟩ := Axis.mem_depths.1 hdepth
  have hin : ∃ s ∈ axis.selections, s.hierarchy = l.hierarchy := by
    obtain ⟨hnm, hnh⟩ := Axis.mem_of_mem_membersOf hn
    exact ⟨⟨l.hierarchy, axis.membersOf l.hierarchy⟩, Axis.mem_selections.2 ⟨Axis.mem_hierarchies.2 ⟨n, hnm, hnh⟩, rfl⟩, rfl⟩
  refine ⟨hdepth, fun m => ?_⟩
  rw [hmem, heq, mem_without fun n hn => (hheld n hn).1, hleft]
  refine or_congr ⟨?_, ?_⟩ (and_iff_right hin)
  · rintro ⟨s, hs, hh, hm⟩
    rw [(Axis.mem_selections.1 hs).2] at hm
    obtain ⟨hm, hmh⟩ := Axis.mem_of_mem_membersOf hm
    exact ⟨hm, fun heq => hh (hmh.symm.trans heq)⟩
  · rintro ⟨hm, hmh⟩
    obtain ⟨s, hs, hms⟩ := (mem_members_iff_selections hax).1 hm
    refine ⟨s, hs, fun heq => hmh ?_, hms⟩
    rw [(Axis.mem_selections.1 hs).2] at hms
    exact (Axis.mem_of_mem_membersOf hms).2.trans heq

/-- Placing levels puts all the members at their depths on the axis, and nothing else. -/
theorem Consistent.mem_members_of_place (hc : Consistent o) {axis axis' : Axis} (hax : ∀ m ∈ axis.members, o.Holds m)
    {levels : List Level} {mode : HierarchizeMode} {keys : SortKeys} (hk : o.Remembers keys)
    (h : ((Mutation.place levels).run o.catalog mode keys axis).result = .ok axis') (m : Member) :
    m ∈ axis'.members ↔ o.Holds m ∧ m.depth ∈ depthsIn m.hierarchy levels := by
  obtain ⟨edit, he, hmem⟩ := hc.mem_members_of_run hax hk h
  obtain ⟨hhierarchies, hfilled⟩ := Edit.spec_of_placing he
  have hrequested : ∀ n, (∃ s ∈ edit.selections, s.hierarchy = n) ↔ ∃ l ∈ levels, l.hierarchy = n := by
    intro n
    rw [← List.mem_map, hhierarchies, mem_distinctOn_id, List.mem_map]
  have hband : ∀ s ∈ edit.selections, ∀ m, m ∈ s.members ↔ o.Holds m ∧ m.hierarchy = s.hierarchy ∧ m.depth ∈ depthsIn s.hierarchy levels :=
    fun s hs m => hc.mem_filled ((hrequested s.hierarchy).1 ⟨s, hs, rfl⟩) (hfilled s hs) m
  rw [hmem]
  constructor
  · rintro ⟨s, hs, hm⟩
    obtain ⟨hheld, hh, hd⟩ := (hband s hs m).1 hm
    exact ⟨hheld, hh ▸ hd⟩
  · rintro ⟨hheld, hd⟩
    obtain ⟨l, hl, hlh, -⟩ := mem_depthsIn.1 hd
    obtain ⟨s, hs, hsh⟩ := (hrequested m.hierarchy).2 ⟨l, hl, hlh⟩
    exact ⟨s, hs, (hband s hs m).2 ⟨hheld, hsh.symm, hsh ▸ hd⟩⟩

end Outline

end CubeAxes
