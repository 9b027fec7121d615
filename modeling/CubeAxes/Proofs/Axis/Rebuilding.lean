import CubeAxes.Placement
import CubeAxes.Proofs.Axis.Sets
import CubeAxes.Proofs.Outline.Order

/-!
# Rebuilding an axis over a consistent outline

What a mutation makes of an axis is settled by the selections that it edits: over members that are held the sort does not fail, and
the axis joins the members of each selection in hierarchical order (`Consistent.run_eq`). Which sort keys were remembered plays no
part. The axis then selects what the edited selections say, put in order (`exists_ofSets_ordered`).
-/

namespace CubeAxes

/-- An axis that joins the members of selections of different hierarchies selects what they say. -/
theorem Axis.Joins.selects {axis : Axis} {ss : List Selection} (h : axis.Joins (ss.map (·.members)))
    (own : ∀ s ∈ ss, ∀ m ∈ s.members, m.hierarchy = s.hierarchy) (nodup : ∀ s ∈ ss, (s.members.map (·.uniqueName)).Nodup)
    (hierarchies : (ss.map (·.hierarchy)).Nodup) : axis.Selects ss := by
  refine ⟨?_, own, nodup, hierarchies⟩
  rw [Axis.members, h.memberSets_eq, ← List.flatMap_def]

namespace Outline

variable {o : Outline}

/-- A selection with its members in hierarchical order, none of them twice. -/
def ordered (o : Outline) (s : Selection) : Selection := ⟨s.hierarchy, o.arranged s.members⟩

@[simp] theorem hierarchy_ordered (o : Outline) (s : Selection) : (o.ordered s).hierarchy = s.hierarchy := rfl

@[simp] theorem members_ordered (o : Outline) (s : Selection) : (o.ordered s).members = o.arranged s.members := rfl

/-- A selection of members that are held and of its hierarchy. -/
def Sorts (o : Outline) (s : Selection) : Prop := o.HoldsAll s.hierarchy s.members

/-- On an axis that selects members that are held all members are. -/
theorem holds_of_selects {axis : Axis} {ss : List Selection} (h : axis.Selects ss) (hss : ∀ s ∈ ss, o.Sorts s) :
    ∀ m ∈ axis.members, o.Holds m := by
  intro m hm
  rw [h.members] at hm
  obtain ⟨s, hs, hm⟩ := List.mem_flatMap.1 hm
  exact (hss s hs m hm).1

/-- Putting a selection in order keeps its members. -/
theorem Sorts.ordered {s : Selection} (h : o.Sorts s) : o.Sorts (o.ordered s) := HoldsAll.arranged h

/-- Members in order have no repetitions to be left out. -/
theorem distinctMembers_arranged (o : Outline) (ms : List Member) : distinctMembers (o.arranged ms) = o.arranged ms :=
  distinctOn_of_nodup (nodup_map_arranged o ms)

/-- Over members that are held the members of every selection are put in order. -/
theorem Consistent.sortedSets_eq (hc : Consistent o) {ss : List Selection} (hss : ∀ s ∈ ss, o.Sorts s) {keys : SortKeys}
    (hk : o.Remembers keys) :
    ∃ keys', sortedSets o.catalog keys ss = (.ok (ss.map fun s => o.arranged s.members), keys') ∧ o.Remembers keys' := by
  induction ss generalizing keys with
  | nil => exact ⟨keys, rfl, hk⟩
  | cons s ss ih =>
    have hs : ∀ m ∈ distinctMembers s.members, o.Holds m := by
      intro m hm
      exact (hss s List.mem_cons_self m (mem_of_mem_distinctOn hm)).1
    obtain ⟨keys', hsort, hk'⟩ := hc.sort_eq hs hk
    obtain ⟨keys'', hrest, hk''⟩ := ih (fun t ht => hss t (List.mem_cons_of_mem s ht)) hk'
    refine ⟨keys'', ?_, hk''⟩
    simp only [sortedSets, hsort, hrest]
    rfl

/-- The axis built anew joins the members of each selection in order. -/
theorem Consistent.rebuilt_eq (hc : Consistent o) {ss : List Selection} (hss : ∀ s ∈ ss, o.Sorts s) {keys : SortKeys}
    (hk : o.Remembers keys) (hierarchize : Bool) :
    ∃ keys', rebuilt o.catalog keys hierarchize ss = (Axis.ofSets (ss.map fun s => o.arranged s.members) hierarchize, keys') ∧
      o.Remembers keys' := by
  obtain ⟨keys', hsets, hk'⟩ := hc.sortedSets_eq hss hk
  refine ⟨keys', ?_, hk'⟩
  simp only [rebuilt, hsets]
  rfl

/-- What a mutation makes of an axis is settled by the selections that it edits. -/
theorem Consistent.run_eq (hc : Consistent o) {m : Mutation} {axis : Axis} {edit : Edit}
    (he : m.edit o.catalog axis = .ok edit) (hss : ∀ s ∈ edit.selections, o.Sorts s) (mode : HierarchizeMode) {keys : SortKeys}
    (hk : o.Remembers keys) :
    (m.run o.catalog mode keys axis).result =
        Axis.ofSets (edit.selections.map fun s => o.arranged s.members) (mode.apply axis.hierarchize) ∧
      o.Remembers (m.run o.catalog mode keys axis).keys := by
  obtain ⟨keys', hr, hk'⟩ := hc.rebuilt_eq hss hk (mode.apply axis.hierarchize)
  simp only [Mutation.run, he, hr, true_and]
  exact hk'

/-- The axis built from selections of different hierarchies selects what they say, in order. -/
theorem exists_ofSets_ordered {ss : List Selection} (hne : ss ≠ []) (hss : ∀ s ∈ ss, o.Sorts s)
    (hh : (ss.map (·.hierarchy)).Nodup) (hierarchize : Bool) :
    ∃ axis, Axis.ofSets (ss.map fun s => o.arranged s.members) hierarchize = .ok axis ∧ axis.hierarchize = hierarchize ∧
      axis.Joins (ss.map fun s => o.arranged s.members) ∧ axis.Selects (ss.map o.ordered) := by
  have hne' : (ss.map fun s => o.arranged s.members) ≠ [] := by simpa using hne
  obtain ⟨axis, haxis, hz, hj⟩ := Axis.exists_ofSets hne' hierarchize
  have hsame : (ss.map fun s => o.arranged s.members).map distinctMembers = ss.map fun s => o.arranged s.members := by
    rw [List.map_map]
    exact List.map_congr_left fun s _ => distinctMembers_arranged o s.members
  rw [hsame] at hj
  refine ⟨axis, haxis, hz, hj, ?_⟩
  have hmembers : (ss.map o.ordered).map (·.members) = ss.map fun s => o.arranged s.members := by
    rw [List.map_map]
    rfl
  refine Axis.Joins.selects (by rw [hmembers]; exact hj) ?_ ?_ ?_
  · intro s hs m hm
    obtain ⟨t, ht, rfl⟩ := List.mem_map.1 hs
    exact (HoldsAll.arranged (hss t ht) m hm).2
  · intro s hs
    obtain ⟨t, -, rfl⟩ := List.mem_map.1 hs
    exact nodup_map_arranged o t.members
  · rw [List.map_map]
    exact hh

end Outline

end CubeAxes
