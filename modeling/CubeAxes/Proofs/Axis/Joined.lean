import CubeAxes.Proofs.Axis.Normalized

/-!
# Operands of an axis

What a mutation leaves is settled by the hierarchies of its operands, in their order, and by the members that each operand holds
(`Outline.OperandsAre`): two axes of which the same is said are one, node for node (`Outline.OperandsAre.unique`). An edit that leaves
some selection succeeds, and its selections are the operands (`Outline.Consistent.exists_operandsAre_of_edit`). Where every operand has
members, they are what the axis is then seen to select.
-/

namespace CubeAxes

/-- A hierarchy that has members on an axis is there. -/
theorem Axis.mem_hierarchies_of_mem_membersOf {axis : Axis} {n : String} {m : Member} (h : m ∈ axis.membersOf n) :
    n ∈ axis.hierarchies :=
  Axis.mem_hierarchies.2 ⟨m, Axis.mem_of_mem_membersOf h⟩

namespace Outline

/-- The operands of an axis are sets of members of several hierarchies, in this order, each holding the members that `P` gives to its
hierarchy. The axis is normalized, and is the one that is built of these sets. -/
def OperandsAre (o : Outline) (axis : Axis) (hierarchies : List String) (P : String → Member → Prop) : Prop :=
  ∃ ss : List Selection, o.Normalized axis ss ∧ ss.map (·.hierarchy) = hierarchies ∧
    (∀ s ∈ ss, ∀ m, m ∈ s.members ↔ P s.hierarchy m) ∧
    Axis.ofSets (ss.map fun s => o.arranged s.members) axis.hierarchize = .ok axis

variable {o : Outline} {axis axis' : Axis} {hierarchies : List String} {P Q : String → Member → Prop}

/-! ## What operands settle -/

/-- What is said of the members need only be right for the hierarchies of the operands. -/
theorem OperandsAre.congr (h : o.OperandsAre axis hierarchies P) (hPQ : ∀ n ∈ hierarchies, ∀ m, P n m ↔ Q n m) :
    o.OperandsAre axis hierarchies Q := by
  obtain ⟨ss, hn, rfl, hmem, hsets⟩ := h
  refine ⟨ss, hn, rfl, ?_, hsets⟩
  intro s hs m
  rw [hmem s hs m]
  exact hPQ s.hierarchy (List.mem_map_of_mem hs) m

/-- An axis is settled by its operands and its mark. -/
theorem OperandsAre.unique (hc : Consistent o) (h : o.OperandsAre axis hierarchies P) (h' : o.OperandsAre axis' hierarchies P)
    (hz : axis.hierarchize = axis'.hierarchize) : axis = axis' := by
  obtain ⟨ss, hn, rfl, hmem, hsets⟩ := h
  obtain ⟨ss', hn', hh, hmem', hsets'⟩ := h'
  have hsame : (ss.map fun s => o.arranged s.members) = ss'.map fun s => o.arranged s.members := by
    have hlength : ss'.length = ss.length := by simpa using congrArg List.length hh
    refine List.ext_getElem (by simp [hlength]) ?_
    intro i hi hi'
    simp only [List.length_map] at hi hi'
    have hhi : ss'[i].hierarchy = ss[i].hierarchy := by simpa [hi, hi'] using congrArg (·[i]?) hh
    simp only [List.getElem_map]
    refine hc.arranged_congr (hn.sorts _ (List.getElem_mem hi)) ?_
    intro m
    rw [hmem _ (List.getElem_mem hi), hmem' _ (List.getElem_mem hi'), hhi]
  rw [hsame, hz] at hsets
  exact Except.ok.inj (hsets.symm.trans hsets')

/-- The operands select their members. -/
theorem OperandsAre.exists_selects (h : o.OperandsAre axis hierarchies P) :
    ∃ ss, axis.Selects ss ∧ (∀ s ∈ ss, o.Sorts s) ∧ ss.map (·.hierarchy) = hierarchies ∧
      ∀ s ∈ ss, ∀ m, m ∈ s.members ↔ P s.hierarchy m := by
  obtain ⟨ss, hn, hh, hmem, -⟩ := h
  have hmembers : axis.members = ss.flatMap (·.members) := by
    rw [Axis.members, hn.joins.memberSets_eq, ← List.flatMap_def]
  refine ⟨ss, ⟨hmembers, fun s hs m hm => (hn.sorts s hs m hm).2, ?_, hn.hierarchies⟩, hn.sorts, hh, hmem⟩
  intro s hs
  have hnames := hn.names
  rw [hmembers, List.map_flatMap] at hnames
  exact (List.nodup_flatMap.1 hnames).1 s hs

/-- All members of the operands are held. -/
theorem OperandsAre.holds (h : o.OperandsAre axis hierarchies P) : ∀ m ∈ axis.members, o.Holds m := by
  obtain ⟨ss, hsel, hsorts, -⟩ := h.exists_selects
  exact holds_of_selects hsel hsorts

/-- The axis has the members of an operand as the members of its hierarchy. -/
theorem OperandsAre.mem_membersOf (h : o.OperandsAre axis hierarchies P) {n : String} (hn : n ∈ hierarchies) {m : Member} :
    m ∈ axis.membersOf n ↔ P n m := by
  obtain ⟨ss, hsel, -, rfl, hmem⟩ := h.exists_selects
  obtain ⟨s, hs, rfl⟩ := List.mem_map.1 hn
  rw [hsel.membersOf_eq hs]
  exact hmem s hs m

/-- Where every operand has members, the hierarchies on the axis are those of the operands. -/
theorem OperandsAre.hierarchies_eq (h : o.OperandsAre axis hierarchies P) (hfull : ∀ n ∈ hierarchies, ∃ m, P n m) :
    axis.hierarchies = hierarchies := by
  obtain ⟨ss, hsel, -, rfl, hmem⟩ := h.exists_selects
  rw [hsel.hierarchies_eq]
  refine congrArg (List.map _) (List.filter_eq_self.2 ?_)
  intro s hs
  obtain ⟨m, hm⟩ := hfull s.hierarchy (List.mem_map_of_mem hs)
  exact decide_eq_true (List.ne_nil_of_mem ((hmem s hs m).2 hm))

/-- A hierarchy on an axis of held members has members there. -/
theorem exists_mem_membersOf (hax : ∀ m ∈ axis.members, o.Holds m) {n : String} (hn : n ∈ axis.hierarchies) :
    ∃ m, m ∈ axis.membersOf n := by
  obtain ⟨m, hm, hmh⟩ := Axis.mem_hierarchies.1 hn
  exact ⟨m, (mem_membersOf hax).2 ⟨hm, hmh⟩⟩

/-! ## Operands after an edit -/

/-- The selections that an edit leaves, if there are any, are the operands of the axis that comes of it. -/
theorem Consistent.exists_operandsAre_of_edit (hc : Consistent o) (hax : ∀ m ∈ axis.members, o.Holds m) {m : Mutation} {edit : Edit}
    (he : m.edit o.catalog axis = .ok edit) (hne : edit.selections ≠ []) (mode : HierarchizeMode) {keys : SortKeys}
    (hk : o.Remembers keys) :
    ∃ axis', (m.run o.catalog mode keys axis).result = .ok axis' ∧ axis'.hierarchize = mode.apply axis.hierarchize ∧
      ∀ {hierarchies P}, edit.selections.map (·.hierarchy) = hierarchies →
        (∀ s ∈ edit.selections, ∀ n, n ∈ s.members ↔ P s.hierarchy n) → o.OperandsAre axis' hierarchies P := by
  have hss := hc.sorts_edit hax he
  have hh := Mutation.nodup_hierarchies_edit he
  obtain ⟨axis', haxis', -⟩ := exists_ofSets_ordered hne hss hh (mode.apply axis.hierarchize)
  obtain ⟨hn, hz, -⟩ := hc.normalized_of_ofSets hss hh haxis'
  refine ⟨axis', (hc.run_eq he hss mode hk).1.trans haxis', hz, ?_⟩
  intro hierarchies P hhs hP
  refine ⟨edit.selections.map o.ordered, hn, ?_, ?_, ?_⟩
  · rw [← hhs, List.map_map]
    rfl
  · intro s' hs' n
    obtain ⟨s, hs, rfl⟩ := List.mem_map.1 hs'
    have hheld : ∀ k ∈ s.members, o.Holds k := fun k hkm => (hss s hs k hkm).1
    simp only [members_ordered, hierarchy_ordered, mem_arranged hheld]
    exact hP s hs n
  · have hagain : ((edit.selections.map o.ordered).map fun s => o.arranged s.members) =
        edit.selections.map fun s => o.arranged s.members := by
      rw [List.map_map]
      refine List.map_congr_left fun s hs => ?_
      have hheld : ∀ k ∈ o.arranged s.members, o.Holds k := fun k hkm => (HoldsAll.arranged (hss s hs) k hkm).1
      exact hc.arranged_of_pairwise hheld (hc.pairwise_arranged (hss s hs))
    rw [hagain, hz]
    exact haxis'

/-- One gender of the small cube. -/
def sampleGender : Axis := .ofTuples (.members [⟨"[Gender].[All].[F]", "F", "Gender", 1, 0, some "[Gender].[All]"⟩]) true

end Outline

end CubeAxes
