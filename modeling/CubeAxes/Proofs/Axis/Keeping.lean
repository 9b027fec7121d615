import CubeAxes.Proofs.Axis.Edited
import CubeAxes.Proofs.Resolution.Sound

/-!
# Mutations keep axes sound

The selections that an edit leaves all have members just when the mutation fills them (`Outline.Consistent.ne_nil_edit_iff`): a
level without members may be added where its hierarchy is on the axis, and placed beside one of its hierarchy that has members. The
axis that comes of a mutation that fills its selections carries a sound set (`Outline.Consistent.exists_sound_of_run`). It does not
matter how the axis was built before, nor with which mode and which keys the mutation runs.
-/

namespace CubeAxes

/-- The levels that a mutation brings in. -/
def Mutation.brought : Mutation → List Level
  | .add level _ => [level]
  | .remove _ => []
  | .place levels => levels

namespace Outline

/-- A mutation of an axis has members for every hierarchy that it leaves there. -/
def Fills (o : Outline) (axis : Axis) : Mutation → Prop
  | .add level _ => level.hierarchy ∈ axis.hierarchies ∨ o.HasMembers level
  | .remove _ => True
  | .place levels => ∀ l ∈ levels, ∃ l' ∈ levels, l'.hierarchy = l.hierarchy ∧ o.HasMembers l'

variable {o : Outline}

/-- A mutation that brings in levels with members only does so. -/
theorem fills_of_hasMembers {m : Mutation} (h : ∀ l ∈ m.brought, o.HasMembers l) (axis : Axis) : o.Fills axis m := by
  cases m with
  | add l position => exact Or.inr (h l (List.mem_singleton_self l))
  | remove l => exact trivial
  | place levels => exact fun l hl => ⟨l, hl, rfl, h l hl⟩

/-! ## Selections that have members -/

/-- Removing a level leaves no empty selection. -/
theorem ne_nil_without {hierarchy : String} {left : List Member} {ss : List Selection} (hss : ∀ s ∈ ss, s.members ≠ []) :
    ∀ s ∈ without hierarchy left ss, s.members ≠ [] := by
  intro s' hs'
  obtain ⟨s, hs, he⟩ := List.mem_filterMap.1 hs'
  split at he
  · split at he
    · nomatch he
    · next hne =>
      obtain rfl := Option.some.inj he
      obtain ⟨m, hm⟩ := List.exists_mem_of_ne_nil left hne
      obtain ⟨n, hn, -⟩ := exists_mem_distinctOn Member.uniqueName hm
      exact List.ne_nil_of_mem hn
  · obtain rfl := Option.some.inj he
    exact hss s hs

/-- Adding a level leaves no empty selection, unless it brings in its hierarchy and has no members. -/
theorem Consistent.ne_nil_adding_iff (hc : Consistent o) {axis : Axis} {l : Level} {position : Int} {edit : Edit}
    (h : Edit.adding o.catalog axis l position = .ok edit) :
    (∀ s ∈ edit.selections, s.members ≠ []) ↔ l.hierarchy ∈ axis.hierarchies ∨ o.HasMembers l := by
  obtain ⟨hp, hcases⟩ := Edit.cases_of_adding h
  rcases hcases with ⟨hin, drilled, -, heq⟩ | ⟨hin, ms, hms, heq⟩
  · refine iff_of_true (fun s' hs' => ?_) (Or.inl hin)
    obtain ⟨s, hs, rfl⟩ := List.mem_map.1 (heq ▸ hs')
    by_cases hh : s.hierarchy = l.hierarchy
    · rw [Selection.change_of_eq hh]
      exact List.append_ne_nil_of_left_ne_nil (Axis.ne_nil_of_mem_selections hs) drilled
    · rw [Selection.change_of_ne hh]
      exact Axis.ne_nil_of_mem_selections hs
  · obtain rfl := eq_rows_of_membersOf hms
    rw [heq, hc.hasMembers_iff]
    constructor
    · intro hall
      have hindex := Edit.index_le hp
      exact Or.inr (hall _ ((List.mem_insertIdx hindex).2 (Or.inl rfl)))
    · intro hsome s hs
      rcases List.eq_or_mem_of_mem_insertIdx hs with rfl | hs
      · exact hsome.resolve_left hin
      · exact Axis.ne_nil_of_mem_selections hs

/-- Placing levels leaves no empty selection, unless none of the levels of some hierarchy has members. -/
theorem Consistent.ne_nil_placing_iff (hc : Consistent o) {levels : List Level} {edit : Edit}
    (h : Edit.placing o.catalog levels = .ok edit) :
    (∀ s ∈ edit.selections, s.members ≠ []) ↔ ∀ l ∈ levels, ∃ l' ∈ levels, l'.hierarchy = l.hierarchy ∧ o.HasMembers l' := by
  obtain ⟨hhierarchies, hfilled⟩ := Edit.spec_of_placing h
  have hspec : ∀ s ∈ edit.selections, _ := fun s hs =>
    hc.spec_of_filled (fun l hl => (Edit.mem_of_mem_levelsIn hl).2) (hfilled s hs)
  constructor
  · intro hall l hl
    have hh : l.hierarchy ∈ edit.selections.map (·.hierarchy) := by
      rw [hhierarchies, mem_distinctOn_id]
      exact List.mem_map_of_mem hl
    obtain ⟨s, hs, hsl⟩ := List.mem_map.1 hh
    obtain ⟨m, hm⟩ := List.exists_mem_of_ne_nil _ (hall s hs)
    obtain ⟨hheld, hmh, l', hl', hd⟩ := (hspec s hs).1 m hm
    obtain ⟨hlev, hlh⟩ := Edit.mem_of_mem_levelsIn hl'
    exact ⟨l', hlev, hlh.trans hsl, m, hheld, hmh.trans hlh.symm, hd⟩
  · intro hlevels s hs
    have hh : s.hierarchy ∈ levels.map (·.hierarchy) := by
      rw [← mem_distinctOn_id, ← hhierarchies]
      exact List.mem_map_of_mem hs
    obtain ⟨l, hl, hls⟩ := List.mem_map.1 hh
    obtain ⟨l', hl', hlh, m, hheld, hmh, hd⟩ := hlevels l hl
    have hdepth : l'.depth ∈ (Edit.levelsIn s.hierarchy levels).map (·.depth) :=
      Edit.mem_map_depth_levelsIn.2 (mem_depthsIn.2 ⟨l', hl', hlh.trans hls, rfl⟩)
    obtain ⟨k, hk, hkd⟩ := List.mem_map.1 hdepth
    have hasc := Edit.pairwise_levelsIn s.hierarchy levels
    have hrows := (hspec s hs).2
    -- the shallowest level has the ancestor of any member of a deeper one
    generalize Edit.levelsIn s.hierarchy levels = ls at hk hasc hrows
    cases ls with
    | nil => exact absurd hk List.not_mem_nil
    | cons first deeper =>
      have hle : first.depth ≤ m.depth := by
        rw [hd, ← hkd]
        rcases List.mem_cons.1 hk with rfl | hk
        · exact Nat.le_refl _
        · exact (List.pairwise_cons.1 hasc).1 k hk
      obtain ⟨hanc, hanch, hancd⟩ := hc.ancestor_spec hheld hle
      exact List.ne_nil_of_mem (hrows first rfl (hc.mem_rows.2 ⟨hanc, hanch.trans (hmh.trans (hlh.trans hls)), hancd⟩))

/-- An edit leaves no empty selection when the mutation fills the selections, and only then. -/
theorem Consistent.ne_nil_edit_iff (hc : Consistent o) {axis : Axis} {m : Mutation} {edit : Edit}
    (h : m.edit o.catalog axis = .ok edit) : (∀ s ∈ edit.selections, s.members ≠ []) ↔ o.Fills axis m := by
  cases m with
  | add l position => exact hc.ne_nil_adding_iff h
  | remove l =>
    obtain ⟨_, _, -, -, -, heq⟩ := Edit.spec_of_removing h
    rw [heq]
    exact iff_of_true (ne_nil_without fun s hs => Axis.ne_nil_of_mem_selections hs) trivial
  | place levels => exact hc.ne_nil_placing_iff h

/-! ## The axis that comes of a mutation -/

/-- The members of a selection, put in order, are a set that has tuples when the selection is not empty. -/
theorem selectsNothing_arranged_iff {s : Selection} (hs : o.Sorts s) :
    (TupleSet.members (o.arranged s.members)).selectsNothing = false ↔ s.members ≠ [] := by
  have hmem : ∀ n, n ∈ o.arranged s.members ↔ n ∈ s.members := fun n => mem_arranged fun k hk => (hs k hk).1
  rw [TupleSet.selectsNothing, List.isEmpty_eq_false_iff, ne_eq, ne_eq, List.eq_nil_iff_forall_not_mem,
    List.eq_nil_iff_forall_not_mem]
  simp only [hmem]

/-- The axis built from selections joins their members, put in order. -/
theorem exists_chain_of_ofSets {ss : List Selection} {hierarchize : Bool} {axis : Axis}
    (h : Axis.ofSets (ss.map fun s => o.arranged s.members) hierarchize = .ok axis) :
    ∃ t, axis.tuples? = some t ∧ TupleSet.chain .call (ss.map fun s => .members (o.arranged s.members)) = some t := by
  have hne : ss ≠ [] := by
    rintro rfl
    nomatch h
  obtain ⟨axis', haxis, -, hj⟩ := Axis.exists_ofSets (by simpa using hne : (ss.map fun s => o.arranged s.members) ≠ []) hierarchize
  obtain rfl := Except.ok.inj (haxis.symm.trans h)
  have hsets : ((ss.map fun s => o.arranged s.members).map distinctMembers).map TupleSet.members =
      ss.map fun s => .members (o.arranged s.members) := by
    rw [List.map_map, List.map_map]
    exact List.map_congr_left fun s _ => congrArg TupleSet.members (distinctMembers_arranged o s.members)
  obtain ⟨t, ht⟩ : ∃ t, TupleSet.chain .call (ss.map fun s => .members (o.arranged s.members)) = some t :=
    TupleSet.exists_chain .call (by simpa using hne)
  rw [Axis.Joins, hsets] at hj
  exact ⟨t, hj.trans ht, ht⟩

/-- All the sets joined have tuples when the mutation fills its selections, and only then. -/
theorem Consistent.selectsNothing_edit_iff (hc : Consistent o) {axis : Axis} {m : Mutation} {edit : Edit}
    (h : m.edit o.catalog axis = .ok edit) (hss : ∀ s ∈ edit.selections, o.Sorts s) :
    (∀ u ∈ edit.selections.map fun s => TupleSet.members (o.arranged s.members), u.selectsNothing = false) ↔ o.Fills axis m := by
  rw [← hc.ne_nil_edit_iff h, List.forall_mem_map]
  exact forall₂_congr fun s hs => selectsNothing_arranged_iff (hss s hs)

/-- The axis that comes of a mutation that fills its selections carries a sound set. -/
theorem Consistent.exists_sound_of_run (hc : Consistent o) {axis axis' : Axis} (hax : ∀ m ∈ axis.members, o.Holds m)
    {m : Mutation} (hm : o.Fills axis m) {mode : HierarchizeMode} {keys : SortKeys} (hk : o.Remembers keys)
    (h : (m.run o.catalog mode keys axis).result = .ok axis') : ∃ t, axis'.tuples? = some t ∧ o.Sound t := by
  obtain ⟨edit, he, hss, -, -, hsets⟩ := hc.spec_of_run hax hk h
  obtain ⟨t, ht, hchain⟩ := exists_chain_of_ofSets hsets
  have hselect := (hc.selectsNothing_edit_iff he hss).2 hm
  refine ⟨t, ht, Sound.chain hchain fun u hu => ⟨?_, hselect u hu⟩⟩
  obtain ⟨s, hs, rfl⟩ := List.mem_map.1 hu
  exact .members (HoldsAll.arranged (hss s hs)) (nodup_map_arranged o s.members)

end Outline

end CubeAxes
